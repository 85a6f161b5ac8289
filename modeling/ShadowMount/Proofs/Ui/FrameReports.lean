import ShadowMount.Proofs.Ui.Sends

/-!
# Frame reports

The frames sent since the last flush are kept twice: as operations in the queue, and in a list of
their own for the listener. Commands and passes add to both at once; a dropped view is taken out of
the list at once, and out of the queue only if pruning is on. What is left of the two agrees at
every moment up to the views that wait for their drop, and so it does when a pass flushes.

* **`MountState.stable_reporting`** — the list is made of the frames in the queue, apart from those
  of views that wait for their drop.
* **`Ui.frames_reported_once`** — every flush reports the frames it sends to views that it does not
  drop, in order and after everything else.
-/

namespace ShadowMount

variable {κ : Type}

/-- The view that an operation destroys. -/
def Operation.dropped? : Operation κ → Option Tag
  | drop tag | dropRoot tag => some tag
  | _ => none

/-- The views that a flush destroys. -/
def Flush.dropped (flush : Flush κ) : List Tag := flush.operations.filterMap Operation.dropped?

/-- The frame that is reported, with its view. -/
def Delivery.report? : Delivery κ → Option (Tag × Frame κ)
  | frameChanged tag frame => some (tag, frame)
  | _ => none

namespace Operation

/-- A frame is addressed to the view that it is reported for. -/
theorem target?_of_frame? {operation : Operation κ} {entry : Tag × Frame κ}
    (h : operation.frame? = some entry) : operation.target? = some entry.1 := by
  cases operation with
  | setFrame => cases h; rfl
  | _ => cases h

/-- Operations other than drops destroy no view. -/
theorem dropped?_of_not_isDrop {operation : Operation κ} (h : operation.isDrop = false) :
    operation.dropped? = none := by
  cases operation with
  | drop => cases h
  | dropRoot => cases h
  | _ => rfl

end Operation

/-! ## Frames that wait -/

/-- The frames to be reported are those in the queue, apart from the views that wait for their
drop. -/
def MountState.Reporting (state : MountState κ) : Prop :=
  state.frameChanges =
    (state.queue.filterMap Operation.frame?).filter (·.1 ∉ state.dropTags)

/-- Frames are sent to views that stay, and go into the queue and the list alike. When a drop is
scheduled its frames go out of the list, and in the queue they no longer count. -/
theorem MountState.stable_reporting : Stable (Reporting : MountState κ → Prop) where
  idle hqueue hframes _ := by rw [Reporting, hqueue, hframes]; rfl
  sends := by
    intro state sent operations h _ hdrops hqueue hframes hviewed
    have htags : sent.dropTags = state.dropTags := by rw [dropTags, dropTags, hdrops]
    -- what is sent goes to no view that waits for its drop
    have hall : ∀ entry ∈ operations.filterMap Operation.frame?, entry.1 ∉ state.dropTags := by
      intro entry hentry
      obtain ⟨operation, hmem, hframe⟩ := List.mem_filterMap.mp hentry
      exact (hviewed operation hmem).2 _ (Operation.target?_of_frame? hframe)
    rw [Reporting, hqueue, hframes, htags, List.filterMap_append, List.filter_append, ← h,
      List.filter_eq_self.mpr fun entry hentry => decide_eq_true (hall entry hentry)]
  scheduled := by
    intro state tag isRoot h
    rw [Reporting, frameChanges_scheduled, queue_scheduled, dropTags_scheduled, h,
      List.filter_filter, List.filter_filterMap, List.filterMap_filter, List.filter_filterMap]
    refine List.filterMap_congr fun operation _ => ?_
    cases operation with
    | setFrame other parent frame =>
      -- a frame that pruning takes out of the queue was addressed to the view
      cases state.config.pruneDrops <;> by_cases hgone : other = tag <;>
        simp [Operation.frame?, Operation.survives, Operation.target?, Operation.isCreate,
          Option.filter_some, hgone]
    | _ => simp [Operation.frame?]

/-! ## Flushes

A flush is handed out in two parts: the operations and the end of the batch to the native side, and
then the reports to the listener. -/

/-- A drop destroys its view. -/
theorem PendingDrop.dropped?_operation (drop : PendingDrop) :
    (drop.operation : Operation κ).dropped? = some drop.tag := by
  rw [operation]
  split <;> rfl

/-- A drop sets no frame. -/
theorem PendingDrop.frame?_operation (drop : PendingDrop) :
    (drop.operation : Operation κ).frame? = none := by
  rw [operation]
  split <;> rfl

/-- A flush destroys the views that wait for their drop. -/
theorem MountState.dropped_closePass {state : MountState κ}
    (hkinds : ∀ operation ∈ state.queue, operation.isDrop = false) :
    state.closePass.1.dropped = state.dropTags := by
  -- the queue has no drops; those that wait are handed over behind it
  have hqueue : state.queue.filterMap Operation.dropped? = [] :=
    List.filterMap_eq_nil_iff.mpr fun operation hmem =>
      Operation.dropped?_of_not_isDrop (hkinds operation hmem)
  show (state.queue ++ state.drops.map PendingDrop.operation).filterMap Operation.dropped? = _
  rw [List.filterMap_append, hqueue, List.nil_append, List.filterMap_map, dropTags,
    ← List.filterMap_eq_map]
  exact List.filterMap_congr fun drop _ => drop.dropped?_operation

/-- A flush reports the frames that it sends to views that stay. -/
theorem MountState.Reporting.closePass {state : MountState κ} (h : state.Reporting)
    (hkinds : ∀ operation ∈ state.queue, operation.isDrop = false) :
    state.closePass.1.frameChanges =
      (state.closePass.1.operations.filterMap Operation.frame?).filter
        (·.1 ∉ state.closePass.1.dropped) := by
  -- the drops at the end of the flush add no frames
  have hdrops : (state.drops.map PendingDrop.operation : List (Operation κ)).filterMap
      Operation.frame? = [] := by
    rw [List.filterMap_map]
    exact List.filterMap_eq_nil_iff.mpr fun drop _ => drop.frame?_operation
  rw [dropped_closePass hkinds]
  show state.frameChanges =
    ((state.queue ++ state.drops.map PendingDrop.operation).filterMap Operation.frame?).filter _
  rw [List.filterMap_append, hdrops, List.append_nil]
  exact h

namespace Flush

variable (flush : Flush κ)

/-- The listener hears of the frame changes of a flush. -/
theorem reports_deliveries :
    flush.deliveries.filterMap Delivery.report? = flush.frameChanges := by
  -- a batch for the native side reports nothing
  have hnative : (Delivery.ofBatch flush.operations).filterMap Delivery.report? = [] := by
    simp [Delivery.ofBatch, List.filterMap_eq_nil_iff, Delivery.report?]
  have hframes : (flush.frameChanges.map fun change =>
      Delivery.frameChanged change.1 change.2).filterMap Delivery.report? = flush.frameChanges := by
    rw [List.filterMap_map]
    exact List.filterMap_some
  rw [deliveries, List.filterMap_append, List.filterMap_append, hnative, hframes]
  exact List.append_nil _

/-- The native side executes the operations and sees the end of the batch, and then comes what
does not concern it. -/
theorem deliveries_split : ∃ reports, flush.deliveries =
    flush.operations.map Delivery.execute ++ [.endBatch] ++ reports ∧
      ∀ call ∈ reports, call.isNative = false := by
  refine ⟨flush.frameChanges.map (fun change => Delivery.frameChanged change.1 change.2) ++
    [.passDone flush.count], List.append_assoc .., ?_⟩
  exact List.forall_mem_append.mpr
    ⟨List.forall_mem_map.mpr fun _ _ => rfl, List.forall_mem_singleton.mpr rfl⟩

/-- No call to the native side comes after a report. -/
theorem reports_last : flush.deliveries.Pairwise fun earlier later =>
    earlier.report?.isSome = true → later.isNative = false := by
  -- the calls come in two parts: nothing is reported in the first, nothing is native in the second
  have hnative : ∀ call ∈ flush.operations.map Delivery.execute ++ [.endBatch],
      call.report?.isSome = false :=
    List.forall_mem_append.mpr
      ⟨List.forall_mem_map.mpr fun _ _ => rfl, List.forall_mem_singleton.mpr rfl⟩
  obtain ⟨reports, hsplit, hreports⟩ := flush.deliveries_split
  rw [hsplit, List.pairwise_append]
  refine ⟨?_, ?_, fun _ _ later hlater _ => hreports later hlater⟩
  · refine List.pairwise_of_forall_mem_list fun earlier hearlier later _ hreport => ?_
    rw [hnative earlier hearlier] at hreport
    cases hreport
  · exact List.pairwise_of_forall_mem_list fun _ _ later hlater _ => hreports later hlater

end Flush

section Runs

variable [Coordinate κ] {ui after : Ui κ} {report : PassReport κ}

/-- A flush reports, after everything else, the frames that it sends to views that it does not
drop. -/
theorem History.flush_reports {record : Record κ} (h : History record ui)
    (hpass : ui.Passes report after) {flush : Flush κ} (hflush : report.flush = some flush) :
    flush.deliveries.filterMap Delivery.report? =
      (flush.operations.filterMap Operation.frame?).filter (·.1 ∉ flush.dropped) := by
  rcases hpass.closes h.reachable.sound with
    ⟨-, hnone, -⟩ | ⟨refreshed, log, htouches, -, hsome, -⟩
  · rw [hnone] at hflush
    cases hflush
  · obtain rfl : refreshed.mount.closePass.1 = flush := Option.some.inj (hsome.symm.trans hflush)
    -- the list agrees with the queue when the pass hands both over
    have hreporting := h.stable_refreshed MountState.stable_reporting
      (h.stable MountState.stable_reporting) htouches
    have hundropped := h.stable_refreshed MountState.stable_undropped h.tracks.undropped htouches
    rw [Flush.reports_deliveries]
    exact hreporting.closePass hundropped

omit [Coordinate κ] in
/-- The reports of a run are those of its flushes, one after the other. -/
theorem reports_flatMap {frames : Flush κ → List (Tag × Frame κ)} :
    ∀ {answers : List (Answer κ)}, (∀ answer ∈ answers, ∀ flush, answer.flush? = some flush →
        flush.deliveries.filterMap Delivery.report? = frames flush) →
      (answers.flatMap Answer.deliveries).filterMap Delivery.report? =
        (answers.filterMap Answer.flush?).flatMap frames
  | [], _ => rfl
  | answer :: rest, h => by
    obtain ⟨hfirst, hrest⟩ := List.forall_mem_cons.mp h
    rw [List.flatMap_cons, List.filterMap_append, reports_flatMap hrest, List.filterMap_cons,
      Answer.deliveries]
    cases hflush : answer.flush? with
    | none => rfl
    | some flush => rw [Option.elim_some, hfirst flush hflush, List.flatMap_cons]

/-- The frames reported in a fair run. Every flush reports the frames that it sends to views that it
does not drop, in the order in which they are sent. It has then executed its operations, all of
them, and closed the batch; no call to the native side comes after a report. So the reports of the
whole run are the frames of its flushes, one flush after the other, and what is still to be reported
are the frames in the queue, apart from those of views that wait for their drop. -/
theorem Ui.frames_reported_once {managers : Managers} {config : Config}
    {requests : List (Request κ)}
    (hfair : (Ui.new managers config : Ui κ).Obeys Fair requests) :
    let answers := (Ui.new managers config : Ui κ).answers requests
    let mount := ((Ui.new managers config : Ui κ).after requests).scene.mount
    (∀ flush ∈ answers.filterMap Answer.flush?,
      flush.deliveries.filterMap Delivery.report? =
        (flush.operations.filterMap Operation.frame?).filter (·.1 ∉ flush.dropped) ∧
      (∃ reports, flush.deliveries =
        flush.operations.map Delivery.execute ++ [.endBatch] ++ reports ∧
          ∀ call ∈ reports, call.isNative = false) ∧
      flush.deliveries.Pairwise fun earlier later =>
        earlier.report?.isSome = true → later.isNative = false) ∧
    (answers.flatMap Answer.deliveries).filterMap Delivery.report? =
      (answers.filterMap Answer.flush?).flatMap (fun flush =>
        (flush.operations.filterMap Operation.frame?).filter (·.1 ∉ flush.dropped)) ∧
    mount.frameChanges =
      (mount.queue.filterMap Operation.frame?).filter (·.1 ∉ mount.dropTags) := by
  intro answers mount
  have hanswers : ∀ answer ∈ answers, ∀ flush, answer.flush? = some flush →
      flush.deliveries.filterMap Delivery.report? =
        (flush.operations.filterMap Operation.frame?).filter (·.1 ∉ flush.dropped) := by
    -- what is said of one flush is shown in the state in which its request is served
    refine hfair.forall_answers fun hearlier hrule flush hflush => ?_
    obtain ⟨record, hhistory⟩ := exists_history hearlier
    obtain ⟨report, hpass, hreport⟩ := passes_of_flush hrule.framesOnly hflush
    exact hhistory.flush_reports hpass hreport
  refine ⟨fun flush hmem => ?_, ?_, ?_⟩
  · obtain ⟨answer, hanswer, hflush⟩ := List.mem_filterMap.mp hmem
    -- what a flush delivers does not depend on the run
    exact ⟨hanswers answer hanswer flush hflush, flush.deliveries_split, flush.reports_last⟩
  · exact reports_flatMap hanswers
  · obtain ⟨record, hhistory⟩ := exists_history hfair
    exact hhistory.stable MountState.stable_reporting

end Runs

/-- An engine that moves a node and then fails. -/
def haltingEngine : LayoutEngine Float32 := fun _ => do
  Tree.setFrame 2 ⟨0, 5, 10, 10⟩
  throw (.missing 9)

theorem framesOnly_haltingEngine : haltingEngine.FramesOnly := by
  intro root tree
  -- the engine fails in any case, and has set a frame before if the node is there
  cases hget : tree.get? 2 with
  | none =>
    have hfail : haltingEngine root tree = .error (.missing 2) tree :=
      bind_of_error (Tree.update_of_missing hget)
    rw [leaves_of_error hfail]
  | some node =>
    have hset : Tree.setFrame 2 ⟨0, 5, 10, 10⟩ tree = .ok () _ := Tree.update_of_get? hget
    have hfail : haltingEngine root tree = .error (.missing 9) _ := bind_of_ok hset
    rw [leaves_of_error hfail]
    exact .single ⟨2, _, hset⟩

/-- A command gives two nested scrollers their views, the outer one is moved by an engine that
fails, and the inner one is removed before the first pass that flushes. -/
def haltedRun : List (Request Float32) :=
  [.perform (.addRoot 1 0 0), .perform (.create 2 "ScrollView" 1 .empty),
    .perform (.create 3 "ScrollView" 1 .empty), .perform (.prependChildren 2 [3]),
    .perform (.prependChildren 1 [2]), .perform (.sendCommand 3 0 []),
    .layOutAndPass haltingEngine, .perform (.editChildren 2 { removeFrom := [0] }), .pass]

/-- Both frames of the outer scroller are reported, and the one of the inner scroller is not. -/
theorem Ui.frames_reported_once_haltedRun :
    ∃ flush ∈ ((Ui.new Managers.builtins {}).answers haltedRun).filterMap Answer.flush?,
      (flush.operations.filterMap Operation.frame?).map Prod.fst = [2, 3, 2] ∧
      (flush.deliveries.filterMap Delivery.report?).map Prod.fst = [2, 2] := by
  have hfair : (Ui.new Managers.builtins {}).Obeys Ui.Fair haltedRun := by
    refine ⟨⟨trivial, ?_⟩, ⟨trivial, ?_⟩, ⟨trivial, ?_⟩, ⟨trivial, ?_⟩, ⟨trivial, ?_⟩,
      ⟨trivial, ?_⟩, ⟨framesOnly_haltingEngine, ?_⟩, ⟨trivial, ?_⟩, ⟨trivial, ?_⟩, trivial⟩ <;>
      decide +kernel
  have hshape : (((Ui.new Managers.builtins {}).answers haltedRun).filterMap Answer.flush?).map
      (fun flush => ((flush.operations.filterMap Operation.frame?).map Prod.fst, flush.dropped)) =
        [([2, 3, 2], [3])] := by decide +kernel
  obtain ⟨flush, hflushes, hframes⟩ := List.map_eq_singleton_iff.mp hshape
  have hmem : flush ∈ ((Ui.new Managers.builtins {}).answers haltedRun).filterMap
      Answer.flush? := by rw [hflushes]; exact List.mem_singleton_self flush
  obtain ⟨htags, hdropped⟩ := Prod.mk.inj hframes
  refine ⟨flush, hmem, htags, ?_⟩
  have hlasting : ∀ frames : List (Tag × Frame Float32),
      (frames.filter (·.1 ∉ [3])).map Prod.fst = (frames.map Prod.fst).filter (· ∉ [3]) :=
    fun frames => by rw [List.filter_map]; rfl
  rw [((Ui.frames_reported_once hfair).1 flush hmem).1, hdropped, hlasting, htags]
  rfl

end ShadowMount
