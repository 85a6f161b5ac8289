import ShadowMount.Proofs.Native.Contents
import ShadowMount.Proofs.Props.Deltas
import ShadowMount.Proofs.Ui.Sends

/-!
# Portraits of native views

What is remembered of a view is a portrait of it: the properties, the frame and the child list it
will have once everything that waits is executed. An operation changes the view that it is addressed
to and the portrait of that view in the same way.

* **`Hierarchy.foreseen`** — the contents of a view once a queue is executed.
* **`Operation.remembered`** — what an operation makes of a portrait; `SentState.ShownBy.after` says
  that the view follows.
* **`MountState.Tells`** — a mount state sends something to a view and remembers it. So do
  `frameSent`, `childrenSent`, `propsSent` and `createSent`.
* **`MountState.Shows`** — a view will be as in its portrait.
-/

namespace ShadowMount

open Native

variable {κ : Type}

/-! ## Views to come -/

namespace Native.Hierarchy

variable {native : Hierarchy κ} {queue more : List (Operation κ)} {t : Tag}

/-- The contents of a view once the operations of a queue are executed. -/
def foreseen (native : Hierarchy κ) (queue : List (Operation κ)) (tag : Tag) : Option (Content κ) :=
  (queue.filter (·.target? = some tag)).foldl
    (fun content operation => contentAfter operation content) (native.content? tag)

/-- Without a violation, this is what comes. -/
theorem content?_eq_foreseen (hquiet : (queue.foldl execute native).violations = []) (tag : Tag) :
    (queue.foldl execute native).content? tag = native.foreseen queue tag :=
  content?_foldl tag queue native hquiet

/-- The last operation of a queue changes the view it is addressed to, after all others. -/
theorem foreseen_concat (native : Hierarchy κ) (queue : List (Operation κ))
    (operation : Operation κ) (tag : Tag) : native.foreseen (queue ++ [operation]) tag =
      if operation.target? = some tag then contentAfter operation (native.foreseen queue tag)
      else native.foreseen queue tag := by
  unfold foreseen
  rw [List.filter_append, List.foldl_append]
  split
  · next htarget => rw [List.filter_cons_of_pos (by simpa using htarget)]; rfl
  · next htarget => rw [List.filter_cons_of_neg (by simpa using htarget)]; rfl

/-- Operations addressed elsewhere make no difference. -/
theorem foreseen_append (hother : ∀ operation ∈ more, operation.target? ≠ some t) :
    native.foreseen (queue ++ more) t = native.foreseen queue t := by
  unfold foreseen
  have hnone : more.filter (·.target? = some t) = [] := by simpa using hother
  rw [List.filter_append, hnone, List.append_nil]

/-- Pruning a queue makes no difference to a view none of whose operations are left out. -/
theorem foreseen_filter {keep : Operation κ → Bool}
    (hkeep : ∀ operation, operation.target? = some t → keep operation = true) :
    native.foreseen (queue.filter keep) t = native.foreseen queue t := by
  unfold foreseen
  rw [List.filter_filter]
  refine congrArg (List.foldl _ _) (List.filter_congr fun operation _ => ?_)
  by_cases htarget : operation.target? = some t
  · simp [htarget, hkeep operation htarget]
  · simp [htarget]

end Native.Hierarchy

/-! ## Portraits -/

/-- What an operation makes of what is remembered of its view. -/
def Operation.remembered : Operation κ → SentState κ → SentState κ
  | .create _ _ _ props, _ => { props }
  | .setProps _ _ props, sent => { sent with props := Props.merge sent.props props }
  | .setFrame _ _ frame, sent => { sent with frame := some frame }
  | .setChildren _ children, sent => { sent with children }
  | _, sent => sent

/-- The contents of a view are as remembered. The frame is left to the platform if the view is
placed by it. -/
structure SentState.ShownBy (sent : SentState κ) (placed : Prop) (content : Content κ) : Prop where
  /-- The properties are the remembered ones. -/
  props : content.props = sent.props
  /-- So is the frame, unless the platform places the view. -/
  frame : ¬ placed → content.frame = sent.frame

namespace SentState.ShownBy

variable {sent : SentState κ} {placed : Prop} {content : Content κ} {operation : Operation κ}

/-- The view follows its portrait. -/
theorem after (h : sent.ShownBy placed content) (hkind : operation.isDrop = false) :
    ∃ changed, contentAfter operation (some content) = some changed ∧
      (operation.remembered sent).ShownBy placed changed := by
  cases operation with
  | create tag root viewClass props => exact ⟨_, rfl, rfl, fun _ => rfl⟩
  | setProps tag viewClass props =>
    refine ⟨_, rfl, ?_, h.frame⟩
    show Props.merge content.props props = Props.merge sent.props props
    rw [h.props]
  | setFrame tag parent frame => exact ⟨_, rfl, h.props, fun _ => rfl⟩
  | setChildren tag children => exact ⟨_, rfl, h.props, h.frame⟩
  | drop => cases hkind
  | dropRoot => cases hkind
  | _ => exact ⟨_, rfl, h⟩

end SentState.ShownBy

/-- An operation without an address is not remembered. -/
theorem Operation.remembered_of_unaddressed {operation : Operation κ}
    (h : operation.target? = none) (sent : SentState κ) : operation.remembered sent = sent := by
  cases operation with
  | clearResponder => rfl
  | _ => cases h

/-- Only creates and updates change the properties that are remembered. -/
theorem Operation.props_remembered {operation : Operation κ} (hcreate : operation.isCreate = false)
    (hprops : operation.props? = none) (sent : SentState κ) :
    (operation.remembered sent).props = sent.props := by
  cases operation with
  | create => cases hcreate
  | setProps => cases hprops
  | _ => rfl

/-- A view and its portrait change alike, operation by operation. -/
theorem SentState.ShownBy.foreseen {native : Hierarchy κ} {placed : Prop} {tag : Tag} :
    ∀ {operations queue : List (Operation κ)} {sent : SentState κ} {content : Content κ},
      sent.ShownBy placed content →
      (∀ operation ∈ operations,
        operation.isDrop = false ∧ ∀ other ∈ operation.target?, other = tag) →
      native.foreseen queue tag = some content →
      ∃ changed, native.foreseen (queue ++ operations) tag = some changed ∧
        (operations.foldl (fun sent operation => operation.remembered sent) sent).ShownBy placed
          changed
  | [], queue, sent, content, hshown, _, hforeseen =>
    ⟨content, by rwa [List.append_nil], hshown⟩
  | operation :: rest, queue, sent, content, hshown, haddressed, hforeseen => by
    obtain ⟨⟨hkind, htarget⟩, hrest⟩ := List.forall_mem_cons.mp haddressed
    have hnext := native.foreseen_concat queue operation tag
    rw [hforeseen] at hnext
    rw [List.append_cons, List.foldl_cons]
    cases haddress : operation.target? with
    -- an operation without a target changes neither the view nor the portrait
    | none =>
      rw [haddress, if_neg nofun] at hnext
      rw [Operation.remembered_of_unaddressed haddress]
      exact hshown.foreseen hrest hnext
    -- any other is addressed to this view, and changes both alike
    | some other =>
      obtain rfl := htarget other haddress
      obtain ⟨changed, hchanged, hshown⟩ := hshown.after hkind
      rw [haddress, if_pos rfl, hchanged] at hnext
      exact hshown.foreseen hrest hnext

namespace MountState

variable {state told : MountState κ} {native : Hierarchy κ} {placed : Prop} {tag t : Tag}
  {operations : List (Operation κ)}

/-- To remember a view is to add it to the remembered ones. -/
theorem mem_remember (state : MountState κ) (tag t : Tag) (sent : SentState κ) :
    t ∈ (state.remember tag sent).sentStates ↔ tag = t ∨ t ∈ state.sentStates := by
  simp [remember, Std.ExtTreeMap.mem_insert]

/-- Operations are sent to the view `tag` and remembered. -/
structure Tells (state : MountState κ) (tag : Tag) (operations : List (Operation κ))
    (told : MountState κ) : Prop where
  /-- What is sent waits at the end of the queue. -/
  queue : told.queue = state.queue ++ operations
  /-- All of it is addressed to the one view, and none of it drops the view. -/
  addressed : ∀ operation ∈ operations,
    operation.isDrop = false ∧ ∀ other ∈ operation.target?, other = tag
  /-- The portrait of the view follows what is sent. -/
  sent : told.sent tag =
    operations.foldl (fun sent operation => operation.remembered sent) (state.sent tag)
  /-- No other portrait changes. -/
  others : ∀ {other}, tag ≠ other → told.sent other = state.sent other
  /-- A view with a portrait already is no new one. -/
  known : tag ∈ state.sentStates → ∀ other, other ∈ told.sentStates ↔ other ∈ state.sentStates

/-- What is remembered is remembered once more. -/
theorem tells_again (state : MountState κ) (tag : Tag) :
    state.Tells tag [] (state.remember tag (state.sent tag)) where
  queue := (List.append_nil _).symm
  addressed := nofun
  sent := by rw [sent_remember, if_pos rfl]; rfl
  others hne := by rw [sent_remember, if_neg hne]
  known htag other := by
    rw [mem_remember]
    exact or_iff_right_of_imp fun heq => heq ▸ htag

/-- One operation, sent and remembered. -/
theorem tells_one {operation : Operation κ} (hkind : operation.isDrop = false)
    (htarget : operation.target? = some tag) : state.Tells tag [operation]
      ((state.remember tag (operation.remembered (state.sent tag))).enqueue operation) where
  queue := rfl
  addressed := List.forall_mem_singleton.mpr ⟨hkind, fun other hother => by
    rw [htarget] at hother
    exact (Option.some.inj hother).symm⟩
  sent := (sent_remember ..).trans (if_pos rfl)
  others hne := (sent_remember ..).trans (if_neg hne)
  known htag other := (mem_remember ..).trans (or_iff_right_of_imp fun heq => heq ▸ htag)

/-- An operation that is not remembered. -/
theorem tells_enqueue {operation : Operation κ} (hkind : operation.isDrop = false)
    (htarget : ∀ other ∈ operation.target?, other = tag)
    (hforgotten : ∀ sent, operation.remembered sent = sent) :
    state.Tells tag [operation] (state.enqueue operation) where
  queue := rfl
  addressed := List.forall_mem_singleton.mpr ⟨hkind, htarget⟩
  sent := (hforgotten _).symm
  others _ := rfl
  known _ _ := .rfl

/-- Sending a frame tells the view of it, or of nothing if it was sent before. -/
theorem tells_frameSent [Coordinate κ] (state : MountState κ) (tag parent : Tag)
    (frame : Frame κ) : ∃ operations, state.Tells tag operations (state.frameSent tag parent frame) ∧
      ∀ operation ∈ operations, operation.isCreate = false ∧ operation.props? = none := by
  unfold frameSent
  split
  · refine ⟨[], ⟨(List.append_nil _).symm, nofun, rfl, fun _ => rfl, fun _ _ => .rfl⟩, nofun⟩
  · have htells := @tells_one _ state tag (.setFrame tag parent frame) rfl rfl
    exact ⟨_, ⟨htells.queue, htells.addressed, htells.sent, htells.others, htells.known⟩,
      List.forall_mem_singleton.mpr ⟨rfl, rfl⟩⟩

/-- Sending a child list tells the view of it, or of nothing if it was sent before. -/
theorem tells_childrenSent (state : MountState κ) (tag : Tag) (children : List Tag) :
    ∃ operations, state.Tells tag operations (state.childrenSent tag children) ∧
      ∀ operation ∈ operations, operation.isCreate = false ∧ operation.props? = none := by
  unfold childrenSent
  split
  · exact ⟨[], state.tells_again tag, nofun⟩
  · exact ⟨_, @tells_one _ state tag (.setChildren tag children) rfl rfl,
      List.forall_mem_singleton.mpr ⟨rfl, rfl⟩⟩

/-- The changes that a delta makes are sent, and merged into what is remembered. -/
theorem tells_propsSent (state : MountState κ) (tag : Tag) (viewClass : String) (delta : Props) :
    ∃ operations, state.Tells tag operations (state.propsSent tag viewClass delta) ∧
      ((state.propsSent tag viewClass delta).sent tag).props =
        Props.merge (state.sent tag).props (Props.changes (state.sent tag).props delta) := by
  unfold propsSent
  dsimp only
  split
  · next hempty =>
    have hnone : (Props.changes (state.sent tag).props delta).entries = [] :=
      List.isEmpty_iff.mp hempty
    refine ⟨[], state.tells_again tag, ?_⟩
    rw [sent_remember, if_pos rfl, Props.merge, hnone]
    rfl
  · exact ⟨_, @tells_one _ state tag (.setProps tag viewClass _) rfl rfl,
      congrArg SentState.props ((sent_remember ..).trans (if_pos rfl))⟩

/-- Creating a view tells it of its creation, with which its portrait begins. -/
theorem tells_createSent (state : MountState κ) (tag : Tag) (node : Node κ) :
    state.Tells tag [.create tag node.root node.viewClass node.props]
      (state.createSent tag node) := by
  have htells := @tells_one _ state tag (.create tag node.root node.viewClass node.props) rfl rfl
  exact ⟨htells.queue, htells.addressed, htells.sent, htells.others, htells.known⟩

/-! ## What a view will show -/

/-- A view will be as it is remembered. -/
def Shows (state : MountState κ) (native : Hierarchy κ) (placed : Prop) (tag : Tag) : Prop :=
  ∃ content, native.foreseen state.queue tag = some content ∧
    (state.sent tag).ShownBy placed content

namespace Tells

/-- What is told to one view makes no difference to what another will show. -/
theorem foreseen_other (h : state.Tells tag operations told) (hne : tag ≠ t) :
    native.foreseen told.queue t = native.foreseen state.queue t := by
  rw [h.queue]
  refine Hierarchy.foreseen_append fun operation hmem htarget => hne ?_
  exact ((h.addressed operation hmem).2 t htarget).symm

/-- Nor does it make a difference to whether the other will be as in its portrait. -/
theorem shows_other (h : state.Tells tag operations told) (hne : tag ≠ t)
    (hshows : state.Shows native placed t) : told.Shows native placed t := by
  obtain ⟨content, hforeseen, hshown⟩ := hshows
  refine ⟨content, (h.foreseen_other hne).trans hforeseen, ?_⟩
  rw [h.others hne]
  exact hshown

/-- The view will be as it is remembered if it would have been before. -/
theorem shows (h : state.Tells tag operations told) (hshows : state.Shows native placed tag) :
    told.Shows native placed tag := by
  obtain ⟨content, hforeseen, hshown⟩ := hshows
  rw [Shows, h.queue, h.sent]
  exact hshown.foreseen h.addressed hforeseen

/-- Telling a view something other than properties changes no remembered properties. -/
theorem props (h : state.Tells tag operations told)
    (hplain : ∀ operation ∈ operations, operation.isCreate = false ∧ operation.props? = none)
    (other : Tag) : (told.sent other).props = (state.sent other).props := by
  by_cases heq : tag = other
  · subst heq
    rw [h.sent]
    generalize state.sent tag = sent
    clear h
    induction operations generalizing sent with
    | nil => rfl
    | cons operation rest ih =>
      obtain ⟨⟨hcreate, hprops⟩, hrest⟩ := List.forall_mem_cons.mp hplain
      rw [List.foldl_cons, ih hrest]
      exact Operation.props_remembered hcreate hprops sent
  · rw [h.others heq]

end Tells

/-- A new view is as it is remembered. -/
theorem shows_createSent (state : MountState κ) (native : Hierarchy κ) (placed : Prop) (tag : Tag)
    (node : Node κ) : (state.createSent tag node).Shows native placed tag := by
  refine ⟨⟨node.viewClass, node.props, none⟩, ?_, ?_⟩
  · rw [(state.tells_createSent tag node).queue, Hierarchy.foreseen_concat]
    exact if_pos rfl
  · rw [sent_createSent, if_pos rfl]
    exact ⟨rfl, fun _ => rfl⟩

/-- With or without pruning, what is sent to a view stays when the drops of others are scheduled. -/
theorem foreseen_scheduledAll {isRoot : Tag → Bool} {tags : List Tag} (ht : t ∉ tags) :
    native.foreseen (state.scheduledAll isRoot tags).queue t = native.foreseen state.queue t := by
  rw [queue_scheduledAll]
  refine Hierarchy.foreseen_filter fun operation htarget =>
    Operation.survives_of_target? htarget ?_
  simp [ht]

/-- A view that is placed by the platform in more cases has less to show. -/
theorem Shows.imp {placed' : Prop} (h : state.Shows native placed t) (himp : placed → placed') :
    state.Shows native placed' t := by
  obtain ⟨content, hforeseen, hshown⟩ := h
  exact ⟨content, hforeseen, hshown.props,
    fun hnot => hshown.frame fun hplaced => hnot (himp hplaced)⟩

/-- Scheduling the drops of other views makes no difference to what a view will show. -/
theorem Shows.scheduledAll (h : state.Shows native placed t) {isRoot : Tag → Bool}
    {tags : List Tag} (ht : t ∉ tags) : (state.scheduledAll isRoot tags).Shows native placed t := by
  obtain ⟨content, hforeseen, hshown⟩ := h
  refine ⟨content, ?_, ?_⟩
  · rw [foreseen_scheduledAll ht]
    exact hforeseen
  · rw [sent_scheduledAll _ _ ht]
    exact hshown

end MountState

end ShadowMount
