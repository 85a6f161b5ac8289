import Mathlib.Data.List.DropRight
import ShadowMount.Native.Platform
import ShadowMount.Proofs.Ui.Requests

/-!
# The channel between many senders and one consumer

One channel and any number of senders, in the hands of a host that makes one call after the other.
What the calls ask for is read off from their list: the batch that a sender is building, the batches
added so far, whether a frame was requested, who is to be woken. The channel does just that.

* **`Exchange.after`**, **`Exchange.replies`** — the channel and its senders after some calls, and
  what the calls were answered.
* **`openBatch`**, **`addedBatches`**, **`registeredWaker`**, **`frameWanted`** — what the calls ask
  for.
* **`Exchange.order_preserved`** — batches cross the channel whole, once and in order, wherever it
  is drained; so a user interface that flushes to a sender shows what it would show directly.
-/

namespace ShadowMount.Native

variable {ω κ : Type}

/-- A call on the channel or on one of its senders, which are numbered. -/
inductive Call (ω κ : Type) where
  /-- A sender executes an operation: it puts it in its batch. -/
  | execute (sender : Nat) (operation : Operation κ)
  /-- A sender ends its batch. -/
  | endBatch (sender : Nat)
  /-- The consumer takes all batches that wait. -/
  | drain
  /-- The host asks whether a frame was requested since it last asked. -/
  | takeFrameRequest
  /-- The host asks how many batches wait. -/
  | pendingBatches
  /-- The host registers whom to wake, in the place of whoever was registered. -/
  | setWaker (waker : ω)
  /-- The host removes the waker. -/
  | clearWaker

/-- What a call is answered. -/
inductive Reply (ω κ : Type) where
  /-- No answer. -/
  | quiet
  /-- A batch was added; whom this woke. -/
  | added (wake : Option (Wake ω))
  /-- The calls to the consumer, and the number of operations that draining answers. -/
  | drained (deliveries : List (Delivery κ)) (count : Nat)
  /-- Whether a frame was requested. -/
  | frameRequest (requested : Bool)
  /-- How many batches wait. -/
  | pending (count : Nat)

namespace Call

/-- The sender whose batch a call ends. -/
def ended? : Call ω κ → Option Nat
  | endBatch sender => some sender
  | _ => none

/-- The operation that a call gives to a sender. -/
def executed? (sender : Nat) : Call ω κ → Option (Operation κ)
  | execute other operation => if other = sender then some operation else none
  | _ => none

/-- Whether a call asks if a frame was requested. -/
def isTake : Call ω κ → Bool
  | takeFrameRequest => true
  | _ => false

/-- What a call makes of the waker, if anything. -/
def waker? : Call ω κ → Option (Option ω)
  | setWaker waker => some (some waker)
  | clearWaker => some none
  | _ => none

/-- The delivery that a call hands to a sender, with the sender. -/
def sent? : Call ω κ → Option (Nat × Delivery κ)
  | execute sender operation => some (sender, .execute operation)
  | endBatch sender => some (sender, .endBatch)
  | _ => none

end Call

/-- The calls to the consumer. -/
def Reply.deliveries : Reply ω κ → List (Delivery κ)
  | drained deliveries _ => deliveries
  | _ => []

/-! ## What calls ask for -/

/-- What a sender has executed since its last batch ended. -/
def openBatch (sender : Nat) (calls : List (Call ω κ)) : List (Operation κ) :=
  (calls.rtakeWhile (·.ended? != some sender)).filterMap (Call.executed? sender)

/-- The batches that calls add after the calls `before`. -/
def addedAfter (before : List (Call ω κ)) : List (Call ω κ) → List (List (Operation κ))
  | [] => []
  | call :: rest =>
    (call.ended?.map (openBatch · before)).toList ++ addedAfter (before ++ [call]) rest

/-- The batches added by calls, oldest first. -/
def addedBatches (calls : List (Call ω κ)) : List (List (Operation κ)) := addedAfter [] calls

/-- Whether a batch was added since this was last asked. -/
def frameWanted (calls : List (Call ω κ)) : Bool :=
  (calls.rtakeWhile (!·.isTake)).any (·.ended?.isSome)

/-- The waker that was registered last, unless it was removed since. -/
def registeredWaker (calls : List (Call ω κ)) : Option ω :=
  (calls.reverse.findSome? Call.waker?).join

section Concat

variable (calls : List (Call ω κ)) (call : Call ω κ)

/-- A call adds to the batch of its sender, or ends it. -/
theorem openBatch_concat (sender : Nat) : openBatch sender (calls ++ [call]) =
    if call.ended? = some sender then []
    else openBatch sender calls ++ (call.executed? sender).toList := by
  rw [openBatch, List.rtakeWhile_concat]
  by_cases hended : call.ended? = some sender
  · simp [hended]
  · rw [if_pos (by simpa using hended), if_neg hended, List.filterMap_append, openBatch,
      List.filterMap_cons]
    cases call.executed? sender <;> rfl

/-- The batch that the last call ends is what its sender has built from all calls before. -/
theorem addedAfter_concat : ∀ (before calls : List (Call ω κ)),
    addedAfter before (calls ++ [call]) = addedAfter before calls ++
      (call.ended?.map (openBatch · (before ++ calls))).toList
  | before, [] => by simp [addedAfter]
  | before, first :: rest => by simp [addedAfter, addedAfter_concat, List.append_assoc]

/-- The last call adds the batch that it ends. -/
theorem addedBatches_concat : addedBatches (calls ++ [call]) =
    addedBatches calls ++ (call.ended?.map (openBatch · calls)).toList :=
  addedAfter_concat call [] calls

/-- The last call takes the request back, or makes one by ending a batch. -/
theorem frameWanted_concat : frameWanted (calls ++ [call]) =
    (!call.isTake && (frameWanted calls || call.ended?.isSome)) := by
  rw [frameWanted, List.rtakeWhile_concat]
  cases call.isTake <;> simp [frameWanted]

/-- The last call changes the waker, or leaves it. -/
theorem registeredWaker_concat :
    registeredWaker (calls ++ [call]) = call.waker?.getD (registeredWaker calls) := by
  rw [registeredWaker, List.reverse_concat, List.findSome?_cons]
  cases call.waker? <;> rfl

end Concat

/-! ## The channel and its senders

The channel keeps the batches that wait, whether a frame was requested, and a waker; each sender
keeps the batch that it is building. One call changes one of these. -/

/-- A channel and its senders. -/
structure Exchange (ω κ : Type) where
  /-- The channel. -/
  channel : Channel ω κ := {}
  /-- The sender of each number, which starts with nothing executed. -/
  senders : Nat → Sender κ := fun _ => {}

namespace Exchange

/-- Makes a call. -/
def step (exchange : Exchange ω κ) : Call ω κ → Reply ω κ × Exchange ω κ
  | .execute sender operation =>
    let fed := (exchange.senders sender).execute operation
    (.quiet, { exchange with senders := Function.update exchange.senders sender fed })
  | .endBatch sender =>
    let (wake, emptied, channel) := (exchange.senders sender).endBatch exchange.channel
    (.added wake, { channel, senders := Function.update exchange.senders sender emptied })
  | .drain =>
    let (batches, channel) := exchange.channel.drain
    (.drained (drainDeliveries batches) (drainedCount batches), { exchange with channel })
  | .takeFrameRequest =>
    let (requested, channel) := exchange.channel.takeFrameRequest
    (.frameRequest requested, { exchange with channel })
  | .pendingBatches => (.pending exchange.channel.pendingBatches, exchange)
  | .setWaker waker => (.quiet, { exchange with channel := exchange.channel.setWaker waker })
  | .clearWaker => (.quiet, { exchange with channel := exchange.channel.clearWaker })

/-- A new channel and its senders, after some calls. -/
def after (calls : List (Call ω κ)) : Exchange ω κ :=
  calls.foldl (fun exchange call => (exchange.step call).2) {}

/-- What calls are answered. -/
def replies (exchange : Exchange ω κ) : List (Call ω κ) → List (Reply ω κ)
  | [] => []
  | call :: rest => (exchange.step call).1 :: (exchange.step call).2.replies rest

/-- All calls to the consumer. -/
def delivered (calls : List (Call ω κ)) : List (Delivery κ) :=
  (replies {} calls).flatMap Reply.deliveries

variable {calls : List (Call ω κ)} {call : Call ω κ}

/-- The last call is made on what the others leave. -/
theorem after_concat : after (calls ++ [call]) = ((after calls).step call).2 :=
  List.foldl_concat ..

/-- The last answer. -/
theorem replies_concat : ∀ {exchange : Exchange ω κ} {calls : List (Call ω κ)},
    exchange.replies (calls ++ [call]) = exchange.replies calls ++
      [((calls.foldl (fun exchange call => (exchange.step call).2) exchange).step call).1]
  | _, [] => rfl
  | _, _ :: _ => congrArg _ replies_concat

/-- What the last call hands to the consumer. -/
theorem delivered_concat :
    delivered (calls ++ [call]) = delivered calls ++ ((after calls).step call).1.deliveries := by
  rw [delivered, replies_concat, List.flatMap_append, List.flatMap_singleton]
  rfl

/-! ## What the channel keeps

The step lemma says what one call does to each part, and by induction on the calls each part is what
the calls ask for. -/

/-- What one call does to the senders and to the channel. -/
theorem step_spec (exchange : Exchange ω κ) (call : Call ω κ) :
    (∀ sender, ((exchange.step call).2.senders sender).buffered =
      if call.ended? = some sender then []
      else (exchange.senders sender).buffered ++ (call.executed? sender).toList) ∧
    (exchange.step call).2.channel.frameRequested =
      (!call.isTake && (exchange.channel.frameRequested || call.ended?.isSome)) ∧
    (exchange.step call).2.channel.waker = call.waker?.getD exchange.channel.waker := by
  refine ⟨fun sender => ?_, ?_, ?_⟩
  -- a sender changes by its own calls alone
  · cases call with
    | execute other operation =>
      by_cases hother : other = sender
      · subst hother
        simp [step, Call.ended?, Call.executed?, Sender.execute]
      · simp [step, Call.ended?, Call.executed?, hother, Function.update_of_ne (Ne.symm hother)]
    | endBatch other =>
      by_cases hother : other = sender
      · subst hother
        simp [step, Call.ended?, Sender.endBatch]
      · simp [step, Call.ended?, Call.executed?, hother, Function.update_of_ne (Ne.symm hother)]
    | _ => simp [step, Call.ended?, Call.executed?]
  · cases call <;> simp [step, Call.ended?, Call.isTake, Sender.endBatch, Channel.push,
      Channel.drain, Channel.takeFrameRequest, Channel.setWaker, Channel.clearWaker]
  · cases call <;> simp [step, Call.waker?, Sender.endBatch, Channel.push, Channel.drain,
      Channel.takeFrameRequest, Channel.setWaker, Channel.clearWaker]

/-- Senders buffer what they executed, and the marks of the channel are as the calls ask. -/
theorem after_spec (calls : List (Call ω κ)) :
    (∀ sender, ((after calls).senders sender).buffered = openBatch sender calls) ∧
    (after calls).channel.frameRequested = frameWanted calls ∧
    (after calls).channel.waker = registeredWaker calls := by
  induction calls using List.reverseRecOn with
  | nil => exact ⟨fun _ => rfl, rfl, rfl⟩
  | append_singleton calls call ih =>
    obtain ⟨hbuffered, hrequested, hwaker⟩ := ih
    obtain ⟨hbuffered', hrequested', hwaker'⟩ := step_spec (after calls) call
    rw [after_concat]
    refine ⟨fun sender => ?_, ?_, ?_⟩
    · rw [hbuffered', openBatch_concat, hbuffered]
    · rw [hrequested', frameWanted_concat, hrequested]
    · rw [hwaker', registeredWaker_concat, hwaker]

/-- A call adds a batch at the end, or hands all waiting batches to the consumer, or leaves the
batches alone. -/
theorem step_batches (exchange : Exchange ω κ) (call : Call ω κ) :
    ((exchange.step call).1.deliveries = [] ∧ (exchange.step call).2.channel.batches =
      exchange.channel.batches ++
        (call.ended?.map fun sender => (exchange.senders sender).buffered).toList) ∨
    (call.ended? = none ∧
      (exchange.step call).1.deliveries = drainDeliveries exchange.channel.batches ∧
      (exchange.step call).2.channel.batches = []) := by
  cases call with
  | drain => exact .inr ⟨rfl, rfl, rfl⟩
  | endBatch sender => exact .inl ⟨rfl, rfl⟩
  | _ => exact .inl ⟨rfl, (List.append_nil _).symm⟩

/-- What was drained, followed by what waits, is what was added. -/
theorem exists_drained (calls : List (Call ω κ)) : ∃ drained,
    drained ++ (after calls).channel.batches = addedBatches calls ∧
      delivered calls = drainDeliveries drained := by
  induction calls using List.reverseRecOn with
  | nil => exact ⟨[], rfl, rfl⟩
  | append_singleton calls call ih =>
    obtain ⟨drained, hadded, hdelivered⟩ := ih
    rw [after_concat, addedBatches_concat, delivered_concat, ← hadded, hdelivered]
    -- the last call adds a batch behind those that wait, or drains them all
    rcases step_batches (after calls) call with ⟨hquiet, hbatches⟩ | ⟨hnone, hall, hempty⟩
    · refine ⟨drained, ?_, by rw [hquiet, List.append_nil]⟩
      rw [hbatches, List.append_assoc]
      simp only [(after_spec calls).1]
    · refine ⟨drained ++ (after calls).channel.batches, ?_, ?_⟩
      · rw [hempty, hnone]
        rfl
      · rw [hall, drainDeliveries, drainDeliveries, drainDeliveries, List.flatMap_append]

end Exchange

/-! ## The consumer

A consumer sees batches whole: their operations and then their end. Whatever is between two drains,
what it has seen is the list of drained batches, and a flush that was handed to a sender is one of
them. -/

/-- Whether a call to the consumer executes an operation. -/
def isExecute : Delivery κ → Bool
  | .execute _ => true
  | _ => false

/-- What consecutive batches deliver. -/
theorem drainDeliveries_append (batches batches' : List (List (Operation κ))) :
    drainDeliveries (batches ++ batches') = drainDeliveries batches ++ drainDeliveries batches' :=
  List.flatMap_append

/-- Draining answers how many operations the consumer executes. -/
theorem drainedCount_eq (batches : List (List (Operation κ))) :
    drainedCount batches = (drainDeliveries batches).countP isExecute := by
  -- all calls of a batch but the one that closes it execute an operation
  have hall : ∀ batch : List (Operation κ),
      (batch.map Delivery.execute).countP isExecute = batch.length := by
    intro batch
    rw [List.countP_map]
    exact List.countP_eq_length.mpr fun _ _ => rfl
  induction batches with
  | nil => rfl
  | cons batch rest ih =>
    show (batch ++ rest.flatten).length =
      (Delivery.ofBatch batch ++ drainDeliveries rest).countP isExecute
    rw [List.length_append, List.countP_append, Delivery.ofBatch, List.countP_append, hall, ← ih]
    rfl

/-- Deliveries made of whole batches do not end within one. -/
theorem eq_nil_of_drainDeliveries {batches batches' : List (List (Operation κ))}
    {operations : List (Operation κ)}
    (h : drainDeliveries batches ++ operations.map .execute = drainDeliveries batches') :
    operations = [] := by
  -- if the last delivery were an operation, it would be the close of a batch
  rcases List.eq_nil_or_concat operations with hnil | ⟨init, last, rfl⟩
  · exact hnil
  rcases List.eq_nil_or_concat batches' with rfl | ⟨init', last', rfl⟩
  · simp [drainDeliveries] at h
  · have hlast := congrArg List.getLast? h
    simp [drainDeliveries, Delivery.ofBatch] at hlast

/-- Only calls to the native side have an effect on it. -/
theorem Hierarchy.foldl_receive_filter (deliveries : List (Delivery κ)) (h : Hierarchy κ) :
    (deliveries.filter Delivery.isNative).foldl receive h = deliveries.foldl receive h := by
  induction deliveries generalizing h with
  | nil => rfl
  | cons delivery rest ih =>
    cases delivery with
    | execute operation => exact ih _
    | endBatch => exact ih _
    | frameChanged tag frame => exact ih h
    | passDone flushed => exact ih h

/-- What a user interface sends to the native side are whole batches, one for each flush. -/
theorem filter_isNative_deliveries (answers : List (Answer κ)) :
    (answers.flatMap Answer.deliveries).filter Delivery.isNative =
      drainDeliveries ((answers.filterMap Answer.flush?).map Flush.operations) := by
  have hflush : ∀ flush : Flush κ,
      flush.deliveries.filter Delivery.isNative = Delivery.ofBatch flush.operations := by
    intro flush
    -- the native part of a flush is its batch, and nothing in the reports is native
    have hnative : (Delivery.ofBatch flush.operations).filter Delivery.isNative =
        Delivery.ofBatch flush.operations :=
      List.filter_eq_self.mpr (List.forall_mem_append.mpr
        ⟨List.forall_mem_map.mpr fun _ _ => rfl, List.forall_mem_singleton.mpr rfl⟩)
    have hreports : (flush.frameChanges.map fun change =>
        Delivery.frameChanged change.1 change.2).filter Delivery.isNative = [] :=
      List.filter_eq_nil_iff.mpr (List.forall_mem_map.mpr fun _ _ => Bool.false_ne_true)
    rw [Flush.deliveries, List.filter_append, List.filter_append, hnative, hreports]
    simp [Delivery.isNative]
  induction answers with
  | nil => rfl
  | cons answer rest ih =>
    rw [List.flatMap_cons, List.filter_append, ih, Answer.deliveries, List.filterMap_cons]
    cases answer.flush? with
    | none => rfl
    | some flush => rw [Option.elim_some, hflush]; rfl

namespace Exchange

variable {calls : List (Call ω κ)}

/-- What one sender was given are the batches added and the one it is building, if no other sender
was used. -/
theorem sent_eq {sender : Nat} (honly : ∀ entry ∈ calls.filterMap Call.sent?, entry.1 = sender) :
    (calls.filterMap Call.sent?).map Prod.snd =
      drainDeliveries (addedBatches calls) ++ (openBatch sender calls).map .execute := by
  induction calls using List.reverseRecOn with
  | nil => rfl
  | append_singleton calls call ih =>
    rw [List.filterMap_append] at honly ⊢
    obtain ⟨hearlier, hlast⟩ := List.forall_mem_append.mp honly
    rw [List.map_append, ih hearlier, addedBatches_concat, openBatch_concat,
      drainDeliveries_append]
    -- only calls of this sender send anything; an operation goes into its batch, and the end of the
    -- batch adds it
    cases call with
    | execute other operation =>
      obtain rfl : other = sender := hlast _ (List.mem_singleton_self _)
      simp [Call.sent?, Call.ended?, Call.executed?, drainDeliveries]
    | endBatch other =>
      obtain rfl : other = sender := hlast _ (List.mem_singleton_self _)
      simp [Call.sent?, Call.ended?, drainDeliveries, Delivery.ofBatch]
    | _ => simp [Call.sent?, Call.ended?, Call.executed?, drainDeliveries]

/-- Once the channel is drained, everything that was added has been delivered. -/
theorem delivered_drain (calls : List (Call ω κ)) :
    delivered (calls ++ [.drain]) = drainDeliveries (addedBatches calls) := by
  obtain ⟨drained, hadded, hdelivered⟩ := exists_drained calls
  rw [delivered_concat, hdelivered, ← hadded, drainDeliveries_append]
  rfl

/-- A sender that is given what user interfaces flush, and drained at the end, delivers just
that. -/
theorem delivered_drain_of_sent {sender : Nat} {answers : List (Answer κ)}
    (hsent : calls.filterMap Call.sent? =
      ((answers.flatMap Answer.deliveries).filter Delivery.isNative).map (sender, ·)) :
    delivered (calls ++ [.drain]) =
      (answers.flatMap Answer.deliveries).filter Delivery.isNative := by
  -- what is sent is sent by the one sender, so its batches are all there are
  have honly : ∀ entry ∈ calls.filterMap Call.sent?, entry.1 = sender := by
    rw [hsent]
    exact List.forall_mem_map.mpr fun _ _ => rfl
  have hbatches := sent_eq honly
  rw [hsent, List.map_map] at hbatches
  have hsame : (answers.flatMap Answer.deliveries).filter Delivery.isNative =
      drainDeliveries (addedBatches calls) ++ (openBatch sender calls).map .execute :=
    (List.map_id _).symm.trans hbatches
  -- a flush closes its batch, so nothing is left open
  have hopen : openBatch sender calls = [] := by
    rw [filter_isNative_deliveries] at hsame
    exact eq_nil_of_drainDeliveries hsame.symm
  rw [delivered_drain, hsame, hopen, List.map_nil, List.append_nil]

/-- The channel after any calls. What was drained, followed by what waits, are the batches added, in
order; the consumer sees each of them whole and closed. A batch that a sender ends holds what the
sender executed since it last ended one, and wakes the registered waker once, with the batch
counted. Draining answers the number of operations that the consumer executes, and leaves nothing
waiting; a frame is requested if and only if a batch was added since this was last asked. Hence a
user interface that flushes to a sender, wherever the channel is drained in between, leaves a
hierarchy just as it would directly. -/
theorem order_preserved [Coordinate κ] (calls : List (Call ω κ)) :
    (∃ drained, drained ++ (after calls).channel.batches = addedBatches calls ∧
      delivered calls = drainDeliveries drained) ∧
    (∀ sender,
      ((after calls).step (.endBatch sender)).2.channel.batches =
        (after calls).channel.batches ++ [openBatch sender calls] ∧
      ((after calls).step (.endBatch sender)).1 = .added ((registeredWaker calls).map
        fun waker => ⟨waker, ((after calls).channel.batches ++ [openBatch sender calls]).length⟩)) ∧
    (∃ deliveries, deliveries = drainDeliveries (after calls).channel.batches ∧
      ((after calls).step .drain).1 = .drained deliveries (deliveries.countP isExecute) ∧
      ((after calls).step .drain).2.channel.batches = []) ∧
    ((after calls).step .takeFrameRequest).1 = .frameRequest (frameWanted calls) ∧
    ((after calls).step .pendingBatches).1 = .pending (after calls).channel.batches.length ∧
    ∀ {ui : Ui κ} {requests : List (Request κ)} {sender : Nat},
      calls.filterMap Call.sent? = (((ui.answers requests).flatMap Answer.deliveries).filter
        Delivery.isNative).map (sender, ·) →
      ∀ native : Hierarchy κ, (delivered (calls ++ [.drain])).foldl .receive native =
        native.follow (ui.answers requests) := by
  obtain ⟨hbuffered, hrequested, hwaker⟩ := after_spec calls
  refine ⟨exists_drained calls, fun sender => ?_, ⟨_, rfl, ?_, rfl⟩, ?_, rfl,
    fun hsent native => ?_⟩
  -- the answers are computed from the batch of the sender and the waker, which are as the calls ask
  · rw [← hbuffered, ← hwaker]
    exact ⟨rfl, rfl⟩
  · rw [← drainedCount_eq]
    rfl
  · rw [← hrequested]
    rfl
  · rw [delivered_drain_of_sent hsent, Hierarchy.foldl_receive_filter]
    rfl

/-- The call that hands a delivery to a sender, if it is for the native side. -/
def callOf? (sender : Nat) : Delivery κ → Option (Call ω κ)
  | .execute operation => some (.execute sender operation)
  | .endBatch => some (.endBatch sender)
  | .frameChanged .. | .passDone _ => none

/-- The calls of a host that hands all flushes to one sender and drains the channel before each. -/
def relayed (sender : Nat) (answers : List (Answer κ)) : List (Call ω κ) :=
  answers.flatMap fun answer => .drain :: answer.deliveries.filterMap (callOf? sender)

/-- Handing all flushes to one sender sends what concerns the native side. -/
theorem sent_relayed (sender : Nat) (answers : List (Answer κ)) :
    (relayed sender answers : List (Call ω κ)).filterMap Call.sent? =
      ((answers.flatMap Answer.deliveries).filter Delivery.isNative).map (sender, ·) := by
  have hcalls : ∀ deliveries : List (Delivery κ),
      (deliveries.filterMap (callOf? sender) : List (Call ω κ)).filterMap Call.sent? =
        (deliveries.filter Delivery.isNative).map (sender, ·) := by
    intro deliveries
    rw [List.filterMap_filterMap, ← List.filterMap_eq_map, List.filterMap_filter]
    refine List.filterMap_congr fun delivery _ => ?_
    cases delivery <;> rfl
  induction answers with
  | nil => rfl
  | cons answer rest ih =>
    show ((answer.deliveries.filterMap (callOf? sender) ++
      relayed sender rest : List (Call ω κ))).filterMap Call.sent? = _
    rw [List.filterMap_append, hcalls, ih, List.flatMap_cons, List.filter_append, List.map_append]

/-- A scroller is shown, and removed after a pass. -/
def shownOnce : List (Request Float32) :=
  [.perform (.addRoot 1 0 0), .perform (.create 2 "ScrollView" 1 .empty),
    .perform (.prependChildren 1 [2]), .pass,
    .perform (.editChildren 1 { removeFrom := [0] }), .pass]

/-- Through the channel, too, both batches arrive and leave no violation. -/
theorem order_preserved_shownOnce :
    let calls : List (Call Unit Float32) :=
      relayed 7 ((Ui.new Managers.builtins {}).answers shownOnce)
    let shown := (delivered (calls ++ [.drain])).foldl .receive (Hierarchy.withRoots [1])
    shown.batches = 2 ∧ shown.violations = [] ∧ shown.droppedTags = [2] := by
  intro calls shown
  have hshown : shown = _ := (order_preserved calls).2.2.2.2.2 (sent_relayed 7 _) _
  rw [hshown]
  decide +kernel

end Exchange

end ShadowMount.Native
