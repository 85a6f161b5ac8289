import ShadowMount.Proofs.Mount.Requests
import ShadowMount.Proofs.Native.Replay
import ShadowMount.Ui.Command

/-!
# Actions that do not see what pruning discards

Pruning takes operations out of the queue, and nothing that commands or passes do depends on them.
The essence of a scene leaves out the operations that pruning would discard by now, the switches
and the log. Every action of the mount core is blind to the rest: on two scenes with the same
essence it answers alike, or fails alike, and leaves scenes with the same essence.

* **`Scene.essence`** — a scene without what pruning discards.
* **`Blind`** — an action that depends on the essence alone; blind actions compose.
* **`Mount.blind_scheduleDrop`** — the one action that prunes is blind.
* **`Command.blind_run`**, **`Mount.blind_refreshRoots`** — commands and passes are blind.
-/

namespace ShadowMount

variable {κ α β : Type}

/-! ## Essence

Two scenes have the same essence if they differ in operations that wait for a view which is to be
dropped, in the switches, and in the log. -/

/-- The mount state without its switches and without the operations that pruning would discard. -/
def MountState.essence (state : MountState κ) : MountState κ :=
  { state with
    config := {}
    queue := state.queue.filter (Operation.survives state.dropTags.contains) }

/-- The scene without its switches, without the operations that pruning would discard, and without
its log. -/
def Scene.essence (scene : Scene κ) : Scene κ :=
  { tree := scene.tree, mount := scene.mount.essence }

namespace MountState

variable {a b : MountState κ}

/-- Two mount states have one essence exactly if their queues agree after pruning and everything
else but the switches agrees. Both queues may be pruned for the same drops, as the pending drops are
among what agrees. -/
theorem essence_eq_iff : a.essence = b.essence ↔
    a.queue.filter (Operation.survives a.dropTags.contains) =
      b.queue.filter (Operation.survives a.dropTags.contains) ∧
    a.sentStates = b.sentStates ∧ a.frameChanges = b.frameChanges ∧ a.drops = b.drops ∧
    a.passOpen = b.passOpen := by
  rw [essence, essence, MountState.mk.injEq]
  constructor
  · rintro ⟨-, hqueue, hsent, hframes, hdrops, hopen⟩
    have htags : b.dropTags = a.dropTags := by rw [dropTags, dropTags, hdrops]
    rw [htags] at hqueue
    exact ⟨hqueue, hsent, hframes, hdrops, hopen⟩
  · rintro ⟨hqueue, hsent, hframes, hdrops, hopen⟩
    have htags : b.dropTags = a.dropTags := by rw [dropTags, dropTags, hdrops]
    rw [htags]
    exact ⟨rfl, hqueue, hsent, hframes, hdrops, hopen⟩

/-- The memory of views is part of the essence. -/
theorem sent_eq_of_essence (h : a.essence = b.essence) (tag : Tag) : a.sent tag = b.sent tag := by
  rw [sent, sent, (essence_eq_iff.mp h).2.1]

/-- Writing to the memory keeps states of one essence at one essence. -/
theorem essence_remember (h : a.essence = b.essence) (tag : Tag) (sent : SentState κ) :
    (a.remember tag sent).essence = (b.remember tag sent).essence := by
  obtain ⟨hqueue, hsent, hrest⟩ := essence_eq_iff.mp h
  refine essence_eq_iff.mpr ⟨hqueue, ?_, hrest⟩
  rw [remember, remember, hsent]

/-- An operation added to both queues survives in both or in neither. -/
theorem essence_enqueue (h : a.essence = b.essence) (operation : Operation κ) :
    (a.enqueue operation).essence = (b.enqueue operation).essence := by
  obtain ⟨hqueue, hrest⟩ := essence_eq_iff.mp h
  refine essence_eq_iff.mpr ⟨?_, hrest⟩
  show (a.queue ++ [operation]).filter (Operation.survives a.dropTags.contains) =
    (b.queue ++ [operation]).filter (Operation.survives a.dropTags.contains)
  rw [List.filter_append, List.filter_append, hqueue]

/-- Pruning for a view when its drop is scheduled discards no more than pruning for all drops
afterwards. -/
theorem filter_scheduled (state : MountState κ) (tag : Tag) (isRoot : Bool) :
    (state.scheduled tag isRoot).queue.filter
        (Operation.survives (state.dropTags ++ [tag]).contains) =
      (state.queue.filter (Operation.survives state.dropTags.contains)).filter
        (Operation.survives (· == tag)) := by
  -- both sides filter by a conjunction of the same tests; which ones the queue on the left has been
  -- through already depends on the switch
  rw [queue_scheduled, List.filter_filter, List.filter_filter]
  refine List.filter_congr fun operation _ => ?_
  rw [Operation.survives_concat]
  cases state.config.pruneDrops with
  | false => simp [Operation.survives_none, Bool.and_comm]
  | true => simp [Bool.and_comm]

/-- What pruning takes out of the queue when a view is dropped is no longer seen afterwards. -/
theorem essence_scheduled (h : a.essence = b.essence) (tag : Tag) (isRoot : Bool) :
    (a.scheduled tag isRoot).essence = (b.scheduled tag isRoot).essence := by
  obtain ⟨hqueue, hsent, hframes, hdrops, hopen⟩ := essence_eq_iff.mp h
  -- what dropping a view does besides pruning does not depend on the switch
  have hfields : ∀ s : MountState κ,
      (s.scheduled tag isRoot).sentStates = s.sentStates.erase tag ∧
      (s.scheduled tag isRoot).frameChanges = s.frameChanges.filter (·.1 != tag) ∧
      (s.scheduled tag isRoot).passOpen = s.passOpen := by
    intro s
    unfold scheduled
    split <;> exact ⟨rfl, rfl, rfl⟩
  have htags : b.dropTags = a.dropTags := by rw [dropTags, dropTags, hdrops]
  refine essence_eq_iff.mpr ⟨?_, ?_, ?_, ?_, ?_⟩
  -- the queue, with the new drop among those pruned for: on each side it is the old pruned queue,
  -- pruned once more
  · have hb := filter_scheduled b tag isRoot
    rw [htags] at hb
    rw [dropTags_scheduled, filter_scheduled, hb, hqueue]
  -- the other parts change alike
  · rw [(hfields a).1, (hfields b).1, hsent]
  · rw [(hfields a).2.1, (hfields b).2.1, hframes]
  · rw [drops_scheduled, drops_scheduled, hdrops]
  · rw [(hfields a).2.2, (hfields b).2.2, hopen]

end MountState

/-! ## Blind actions

Blindness is closed under everything that actions are made of: sequence, choice by what is
essential, loops, and failures that are caught. So it is shown of an action by following how the
action is written. -/

/-- An outcome with the essence of the scene it leaves. -/
def outcome : EStateM.Result UiError (Scene κ) α → EStateM.Result UiError (Scene κ) α
  | .ok answer scene => .ok answer scene.essence
  | .error err scene => .error err scene.essence

/-- An action whose outcome depends on the essence of the scene alone. -/
structure Blind (action : MountM κ α) : Prop where
  agrees : ∀ {a b : Scene κ}, a.essence = b.essence → outcome (action a) = outcome (action b)

/-- Trees are compared as they are. -/
theorem Scene.tree_eq_of_essence {a b : Scene κ} (h : a.essence = b.essence) : a.tree = b.tree :=
  (congrArg Scene.tree h :)

/-- Mount states are compared by their own essence. -/
theorem Scene.mount_essence {a b : Scene κ} (h : a.essence = b.essence) :
    a.mount.essence = b.mount.essence :=
  (congrArg Scene.mount h :)

namespace Blind

open MountM

/-- An action that only answers is blind. -/
theorem pure (answer : α) : Blind (Pure.pure answer : MountM κ α) :=
  ⟨fun h => congrArg (EStateM.Result.ok answer) h⟩

/-- An action that only fails is blind. -/
theorem throw (err : UiError) : Blind (MonadExcept.throw err : MountM κ α) :=
  ⟨fun h => congrArg (EStateM.Result.error err) h⟩

/-- Both runs of a blind action answer alike, or both fail alike. -/
theorem cases {x : MountM κ α} (hx : Blind x) {a b : Scene κ} (h : a.essence = b.essence) :
    (∃ answer a' b', x a = .ok answer a' ∧ x b = .ok answer b' ∧ a'.essence = b'.essence) ∨
    ∃ err a' b', x a = .error err a' ∧ x b = .error err b' ∧ a'.essence = b'.essence := by
  have hagree := hx.agrees h
  -- the outcomes being equal, answers meet answers and errors meet errors
  cases ha : x a with
  | ok answer a' =>
    cases hb : x b with
    | ok answer' b' =>
      rw [ha, hb, outcome, outcome, EStateM.Result.ok.injEq] at hagree
      obtain ⟨rfl, hafter⟩ := hagree
      exact .inl ⟨answer, a', b', rfl, rfl, hafter⟩
    | error err' b' => rw [ha, hb] at hagree; cases hagree
  | error err a' =>
    cases hb : x b with
    | ok answer' b' => rw [ha, hb] at hagree; cases hagree
    | error err' b' =>
      rw [ha, hb, outcome, outcome, EStateM.Result.error.injEq] at hagree
      obtain ⟨rfl, hafter⟩ := hagree
      exact .inr ⟨err, a', b', rfl, rfl, hafter⟩

/-- Blind actions compose: the rest starts from scenes of one essence with one answer. -/
theorem bind {x : MountM κ α} {f : α → MountM κ β} (hx : Blind x)
    (hf : ∀ answer, Blind (f answer)) : Blind (x >>= f) := by
  refine ⟨fun {a b} h => ?_⟩
  rcases hx.cases h with ⟨answer, a', b', ha, hb, hafter⟩ | ⟨err, a', b', ha, hb, hafter⟩
  · rw [bind_of_ok ha, bind_of_ok hb]
    exact (hf answer).agrees hafter
  · rw [bind_of_error ha, bind_of_error hb]
    exact congrArg (EStateM.Result.error err) hafter

/-- A handler of a blind action sees the same error on both sides, and scenes of one essence. -/
theorem tryCatch {x : MountM κ α} {handler : UiError → MountM κ α} (hx : Blind x)
    (hhandler : ∀ err, Blind (handler err)) : Blind (MonadExcept.tryCatch x handler) := by
  refine ⟨fun {a b} h => ?_⟩
  rcases hx.cases h with ⟨answer, a', b', ha, hb, hafter⟩ | ⟨err, a', b', ha, hb, hafter⟩
  · rw [tryCatch_of_ok ha, tryCatch_of_ok hb]
    exact congrArg (EStateM.Result.ok answer) hafter
  · rw [tryCatch_of_error ha, tryCatch_of_error hb]
    exact (hhandler err).agrees hafter

/-- The scenes left behind have one essence, whether the action answered or failed. -/
theorem leaves {x : MountM κ α} (hx : Blind x) {a b : Scene κ} (h : a.essence = b.essence) :
    (ShadowMount.leaves x a).essence = (ShadowMount.leaves x b).essence := by
  rcases hx.cases h with ⟨answer, a', b', ha, hb, hafter⟩ | ⟨err, a', b', ha, hb, hafter⟩
  · rw [leaves_of_ok ha, leaves_of_ok hb, hafter]
  · rw [leaves_of_error ha, leaves_of_error hb, hafter]

/-- Reading the scene is blind where what is read is part of the essence. -/
theorem get {f : Scene κ → MountM κ α}
    (hread : ∀ {a b : Scene κ}, a.essence = b.essence → f a = f b) (hf : ∀ scene, Blind (f scene)) :
    Blind (MonadState.get >>= f) := by
  refine ⟨fun {a b} h => ?_⟩
  rw [get_bind, get_bind, hread h]
  exact (hf b).agrees h

/-- Asking the tree is blind. -/
theorem query (ask : Tree κ → Except UiError α) : Blind (MountM.query ask) := by
  refine ⟨fun {a b} h => ?_⟩
  rw [MountM.query, MountM.query, Scene.tree_eq_of_essence h]
  cases ask b.tree with
  | ok answer => exact congrArg (EStateM.Result.ok answer) h
  | error err => exact congrArg (EStateM.Result.error err) h

/-- Looking a node up is blind. -/
theorem node (tag : Tag) : Blind (MountM.node tag : MountM κ (Node κ)) := query _

/-- Editing the tree is blind: it neither reads nor writes the mount state. -/
theorem onTree (edit : TreeM κ α) : Blind (MountM.onTree edit) := by
  refine ⟨fun {a b} h => ?_⟩
  have hmount := Scene.mount_essence h
  rw [MountM.onTree, MountM.onTree, Scene.tree_eq_of_essence h]
  -- the tree is one, so the edit does the same on both sides
  cases edit b.tree with
  | ok answer tree =>
    show EStateM.Result.ok answer (⟨tree, a.mount.essence, []⟩ : Scene κ) = .ok answer ⟨tree, _, []⟩
    rw [hmount]
  | error err tree =>
    show EStateM.Result.error err (⟨tree, a.mount.essence, []⟩ : Scene κ) = .error err ⟨tree, _, []⟩
    rw [hmount]

/-- A change of the mount state is blind if it keeps states of one essence at one essence. -/
theorem onMount {change : MountState κ → MountState κ}
    (hchange : ∀ {a b : MountState κ}, a.essence = b.essence →
      (change a).essence = (change b).essence) : Blind (MountM.onMount change) := by
  refine ⟨fun {a b} h => ?_⟩
  show EStateM.Result.ok () (⟨a.tree, (change a.mount).essence, []⟩ : Scene κ) =
    EStateM.Result.ok () ⟨b.tree, (change b.mount).essence, []⟩
  rw [Scene.tree_eq_of_essence h, hchange (Scene.mount_essence h)]

/-- Enqueueing an operation is blind. -/
theorem enqueue (operation : Operation κ) : Blind (MountM.enqueue operation) :=
  onMount fun h => MountState.essence_enqueue h operation

/-- Writing to the memory of a view is blind. -/
theorem remember (tag : Tag) (sent : SentState κ) : Blind (MountM.onMount (·.remember tag sent)) :=
  onMount fun h => MountState.essence_remember h tag sent

/-- Logging is blind, as the log is not part of the essence. -/
theorem say (level : Log.Level) (message : String) :
    Blind (MountM.say level message : MountM κ Unit) :=
  ⟨fun h => congrArg (EStateM.Result.ok ()) h⟩

/-- Discarding an answer is blind. -/
theorem discard {x : MountM κ α} (hx : Blind x) : Blind (Functor.discard x) :=
  hx.bind fun _ => pure _

/-- Cleaning up after a failure is blind if action and clean-up are. -/
theorem onFailure {action : MountM κ α} {cleanUp : MountM κ Unit} (haction : Blind action)
    (hclean : Blind cleanUp) : Blind (MountM.onFailure action cleanUp) :=
  haction.tryCatch fun err => hclean.bind fun _ => throw err

/-- A loop of blind steps is blind, by induction on the list. -/
theorem forM {f : α → MountM κ PUnit} (hf : ∀ x, Blind (f x)) : ∀ xs : List α, Blind (xs.forM f)
  | [] => pure _
  | x :: rest => (hf x).bind fun _ => forM hf rest

end Blind

/-! ## The mount core -/

namespace Mount

open MountM

/-- Scheduling a drop is blind, whether or not it prunes. -/
theorem blind_scheduleDrop (tag : Tag) (isRoot : Bool) :
    Blind (scheduleDrop tag isRoot : MountM κ Unit) := by
  refine ⟨fun {a b} h => ?_⟩
  obtain ⟨tree, mount, log⟩ := a
  obtain ⟨tree', mount', log'⟩ := b
  obtain ⟨said, hok⟩ := scheduleDrop_ok tree mount log tag isRoot
  obtain ⟨said', hok'⟩ := scheduleDrop_ok tree' mount' log' tag isRoot
  obtain rfl : tree = tree' := Scene.tree_eq_of_essence h
  rw [hok, hok']
  show EStateM.Result.ok () (⟨tree, (mount.scheduled tag isRoot).essence, []⟩ : Scene κ) = _
  rw [MountState.essence_scheduled (Scene.mount_essence h)]
  rfl

/-! The remaining actions neither prune nor read the queue: each is put together from blind parts in
the shape of its definition, and what it reads of the scene is read from the essence. -/

theorem blind_destroySubtree (tag : Tag) : Blind (destroySubtree tag : MountM κ (List Tag)) := by
  refine .bind (.query _) fun members => .bind (.forM (fun member => ?_) members) fun _ => .onTree _
  refine .bind (.node member) fun found => ?_
  split
  -- whether the node is a root is read from the tree
  · refine .get (fun h => ?_) fun _ => blind_scheduleDrop ..
    rw [Scene.tree_eq_of_essence h]
  · exact .pure _

/-- Destroying a root is blind: roots are read from the tree. -/
theorem blind_destroyRoot (root : Tag) : Blind (destroyRoot root : MountM κ (List Tag)) := by
  refine .get (fun h => ?_) fun scene => ?_
  · rw [Scene.tree_eq_of_essence h]
  · split
    · exact blind_destroySubtree root
    · exact .throw _

theorem blind_trackRoot (root : Tag) : Blind (trackRoot root : MountM κ Unit) := by
  refine .get (fun h => ?_) fun scene => ?_
  · rw [Scene.tree_eq_of_essence h]
  · split
    · exact .bind (.node root) fun _ => .remember ..
    · exact .throw _

theorem blind_materialize (tag : Tag) : Blind (materialize tag : MountM κ Unit) := by
  refine .bind (.node tag) fun node => ?_
  split
  · exact .pure _
  · exact .bind (.onTree _) fun _ => .bind (.enqueue _) fun _ => .remember ..

theorem blind_sendChildren (tag : Tag) : Blind (sendChildren tag : MountM κ Unit) := by
  refine .bind (.query _) fun children => .onMount fun {a b} h => ?_
  rw [MountState.sent_eq_of_essence h]
  dsimp only
  split
  · exact MountState.essence_remember h ..
  · exact MountState.essence_enqueue (MountState.essence_remember h ..) _

theorem blind_sendProps (tag : Tag) (delta : Props) :
    Blind (sendProps tag delta : MountM κ Bool) := by
  refine .bind (.node tag) fun node => ?_
  split
  · exact .throw _
  split
  · exact .pure _
  refine .get (fun h => ?_) fun scene => ?_
  -- what has changed is decided by comparing with the memory, which is part of the essence
  · rw [MountState.sent_eq_of_essence (Scene.mount_essence h)]
  dsimp only
  split
  · exact .bind (.remember ..) fun _ => .pure _
  · exact .bind (.remember ..) fun _ => .bind (.enqueue _) fun _ => .pure _

variable [Coordinate κ]

/-- Sending a frame is blind. Whether it differs is decided from the memory, and the frames to
report are part of the essence. -/
theorem blind_sendFrame (tag parent : Tag) (frame : Frame κ) :
    Blind (sendFrame tag parent frame) := by
  refine .onMount fun {a b} h => ?_
  rw [MountState.sent_eq_of_essence h]
  dsimp only
  split
  -- the frame is the one last sent
  · exact h
  -- the frame is sent, and recorded among the frame changes on both sides
  · have hsent := MountState.essence_enqueue (MountState.essence_remember h tag
      { b.sent tag with frame := some frame }) (.setFrame tag parent frame)
    obtain ⟨hqueue, hstates, hframes, hrest⟩ := MountState.essence_eq_iff.mp hsent
    exact MountState.essence_eq_iff.mpr ⟨hqueue, hstates, by rw [hframes], hrest⟩

/-- Reconciling a subtree is blind, by recursion on the budget as it is defined. -/
theorem blind_reconcile : ∀ (steps : Nat) (tag : Tag) (dx dy : κ) (above : Option Tag),
    Blind (reconcile steps tag dx dy above)
  | 0, _, _, _, _ => .throw _
  | steps + 1, tag, dx, dy, above => by
    refine .bind (.node tag) fun node => ?_
    split
    -- a node that mounts
    · refine .bind (blind_materialize tag) fun _ => ?_
      have hbelow : Blind (do
          node.children.forM fun child => reconcile steps child 0 0 (some tag)
          sendChildren tag : MountM κ Unit) :=
        .bind (.forM (fun child => blind_reconcile steps child 0 0 (some tag)) _) fun _ =>
          blind_sendChildren tag
      cases above with
      | none => exact hbelow
      | some parent => exact .bind (blind_sendFrame ..) fun _ => hbelow
    -- a node that does not mount
    · exact .forM (fun child => blind_reconcile steps child _ _ above) _

theorem blind_reconcileSubtree (tag : Tag) (dx dy : κ) (above : Option Tag) :
    Blind (reconcileSubtree tag dx dy above) := by
  refine .get (fun h => ?_) fun scene => blind_reconcile ..
  rw [Scene.tree_eq_of_essence h]

theorem blind_reconcileBelow (tag parent : Tag) :
    Blind (reconcileBelow tag parent : MountM κ Unit) :=
  .bind (.query _) fun _ => .bind (blind_reconcileSubtree ..) fun _ => blind_sendChildren parent

theorem blind_refreshView (tag : Tag) : Blind (refreshView tag : MountM κ Unit) := by
  refine .get (fun h => ?_) fun scene => ?_
  · rw [Scene.tree_eq_of_essence h]
  split
  · refine .bind (.query _) fun above => ?_
    cases above with
    | none => exact blind_sendChildren tag
    | some parent =>
      exact .bind (.query _) fun _ => .bind (.node tag) fun _ => .bind (blind_sendFrame ..) fun _ =>
        blind_sendChildren tag
  · exact blind_sendChildren tag

/-- Escalating is blind, by recursion on the budget. The clean-up after a failure above undoes the
promotion by an edit of the tree. -/
theorem blind_escalateWithin : ∀ (steps : Nat) (tag : Tag),
    Blind (escalateWithin steps tag : MountM κ Bool)
  | 0, _ => .throw _
  | steps + 1, tag => by
    refine .bind (.node tag) fun node => ?_
    split
    -- a virtual node
    · exact .throw _
    split
    -- a node with a view
    · exact .bind (blind_refreshView tag) fun _ => .pure _
    refine .bind (.query _) fun above => ?_
    cases above with
    | none => exact .throw _
    | some parent =>
      -- the last act, common to both branches on whether the node was promoted
      have hlast : Blind (do reconcileBelow tag parent; return true : MountM κ Bool) :=
        .bind (blind_reconcileBelow tag parent) fun _ => .pure true
      refine .bind (.onTree _) fun promoted =>
        .bind (.onFailure (blind_escalateWithin steps parent) ?_) fun _ => ?_
      -- the clean-up
      · split
        · exact .onTree _
        · exact .pure _
      -- the message about the promotion
      · split
        · exact .bind (.say ..) fun _ => hlast
        · exact hlast

theorem blind_escalate (tag : Tag) : Blind (escalate tag : MountM κ Bool) := by
  refine .get (fun h => ?_) fun scene => blind_escalateWithin ..
  rw [Scene.tree_eq_of_essence h]

theorem blind_refreshSubtree (tag : Tag) : Blind (refreshSubtree tag : MountM κ Unit) := by
  refine .get (fun h => ?_) fun scene => ?_
  · rw [Scene.tree_eq_of_essence h]
  split
  · exact blind_reconcileSubtree ..
  refine .bind (.query _) fun above => ?_
  cases above with
  | none => exact .throw _
  | some parent =>
    refine .bind (.node parent) fun _ => ?_
    split
    · exact .bind (.discard (blind_escalate parent)) fun _ => blind_reconcileBelow ..
    · exact blind_reconcileBelow ..

/-- A pass is blind: its roots are read from the tree. -/
theorem blind_refreshRoots : Blind (refreshRoots : MountM κ Unit) := by
  refine .get (fun h => ?_) fun scene => .forM blind_refreshSubtree _
  rw [Scene.tree_eq_of_essence h]

theorem blind_relativeFrame (tag : Tag) :
    Blind (relativeFrame tag : MountM κ (RelativeFrame κ)) :=
  .bind (.node tag) fun _ => .bind (.query _) fun _ => .bind (blind_escalate _) fun _ =>
    .bind (.node _) fun _ => .pure _

theorem blind_touchView (tag : Tag) : Blind (touchView tag : MountM κ Tag) :=
  .bind (.query _) fun target => .bind (blind_escalate target) fun _ => .pure target

end Mount

/-! ## Children

The passes over child lists look at the tree and at the buffers of the plan, and reach the queue by
destroying subtrees and by sending child lists alone. -/

namespace Children

open MountM

theorem blind_checkDescending (previous : Option Nat) (index : Nat) :
    Blind (checkDescending previous index : MountM κ Unit) := by
  unfold checkDescending
  split
  · split
    · exact .throw _
    · exact .pure _
  · exact .pure _

theorem blind_checkAscending (previous : Option Nat) (index : Nat) :
    Blind (checkAscending previous index : MountM κ Unit) := by
  unfold checkAscending
  split
  · split
    · exact .throw _
    · exact .pure _
  · exact .pure _

/-- Detaching is blind, by induction on the steps. -/
theorem blind_detachAll (parent : Tag) : ∀ (previous : Option Nat) (moves : MovePlan)
    (steps : List DetachStep), Blind (detachAll parent previous moves steps : MountM κ MovePlan)
  | _, _, [] => .pure _
  | previous, _, .move index _ :: rest =>
    .bind (blind_checkDescending previous index) fun _ => .bind (.onTree _) fun _ =>
      blind_detachAll parent _ _ rest
  | previous, _, .remove index :: rest =>
    .bind (blind_checkDescending previous index) fun _ => .bind (.onTree _) fun child =>
      .bind (Mount.blind_destroySubtree child) fun _ => blind_detachAll parent _ _ rest
  | _, _, .collision _ :: _ => .throw _

/-- Attaching is blind, by induction on the steps. -/
theorem blind_attachAll (parent : Tag) : ∀ (previous : Option Nat) (moves : MovePlan)
    (steps : List AttachStep), Blind (attachAll parent previous moves steps : MountM κ Unit)
  | _, _, [] => .pure _
  | previous, _, .add index _ :: rest =>
    .bind (blind_checkAscending previous index) fun _ => .bind (.onTree _) fun _ =>
      blind_attachAll parent _ _ rest
  | previous, moves, .move index rank :: rest => by
    unfold attachAll
    split
    · exact .throw _
    · exact .bind (blind_checkAscending previous index) fun _ => .bind (.onTree _) fun _ =>
        blind_attachAll parent _ _ rest
  | _, _, .collision _ :: _ => .throw _

theorem blind_attachFrom (parent : Tag) : ∀ (index : Nat) (children : List Tag),
    Blind (attachFrom parent index children : MountM κ Unit)
  | _, [] => .pure _
  | index, _ :: rest => .bind (.onTree _) fun _ => blind_attachFrom parent (index + 1) rest

theorem blind_poisonTree : Blind (poisonTree : MountM κ Unit) := by
  refine ⟨fun {a b} h => ?_⟩
  show EStateM.Result.ok () (⟨a.tree.poison, a.mount.essence, []⟩ : Scene κ) =
    .ok () ⟨b.tree.poison, b.mount.essence, []⟩
  rw [Scene.tree_eq_of_essence h, Scene.mount_essence h]

/-- A batch is blind, with its failure path: poisoning edits the tree alone. -/
theorem blind_applyBatch (parent : Tag) (batch : Batch) :
    Blind (applyBatch parent batch : MountM κ Unit) := by
  refine .bind (.query _) fun _ => .bind (.say ..) fun _ => .tryCatch
    (.bind (.query _) fun plan => ?_) fun _ => .bind (.say ..) fun _ => .throw _
  exact .onFailure (.bind (blind_detachAll ..) fun _ => blind_attachAll ..) blind_poisonTree

theorem blind_prepend (parent : Tag) (children : List Tag) :
    Blind (prepend parent children : MountM κ Unit) :=
  .bind (.query _) fun _ => .bind (.node parent) fun _ => .bind (.query _) fun _ =>
    .onFailure (blind_attachFrom ..) blind_poisonTree

end Children

/-! ## Commands

Commands add checks of their arguments, which see no mount state at all. -/

section Commands

open MountM Bridge

variable [Coordinate κ]

theorem Bridge.blind_create (managers : Managers) (tag : Tag) (viewClass : String) (root : Tag)
    (props : Props) : Blind (create managers tag viewClass root props : MountM κ Unit) := by
  refine .get (fun h => ?_) fun scene => ?_
  · rw [Scene.tree_eq_of_essence h]
  split
  · exact .throw _
  refine .bind (.query _) fun manager => .bind (.onTree _) fun _ => ?_
  split
  · exact .discard (Mount.blind_sendProps ..)
  · exact .pure _

omit [Coordinate κ] in
theorem Bridge.blind_update (tag : Tag) (viewClass : String) (props : Props) :
    Blind (update tag viewClass props : MountM κ Unit) := by
  refine .bind (.node tag) fun node => ?_
  have hmerge : Blind (do
      onTree (Tree.mergeProps tag props)
      if node.mounts then discard (Mount.sendProps tag props) : MountM κ Unit) := by
    refine .bind (.onTree _) fun _ => ?_
    split
    · exact .discard (Mount.blind_sendProps ..)
    · exact .pure _
  dsimp only
  split
  · exact .bind (.say ..) fun _ => hmerge
  · exact hmerge

theorem Bridge.blind_ensureMounted (tag : Tag) : Blind (ensureMounted tag : MountM κ Bool) :=
  .bind (.node tag) fun _ => .bind (Mount.blind_escalate tag) fun _ => .pure _

theorem Bridge.blind_enqueueMounted (tag : Tag) (operation : Operation κ) :
    Blind (enqueueMounted tag operation) :=
  .bind (blind_ensureMounted tag) fun _ => .enqueue operation

theorem Bridge.blind_measure (tag : Tag) (callback : Callback) :
    Blind (measure tag callback : MountM κ Unit) := by
  refine .bind (.node tag) fun node => ?_
  split
  · exact .bind (Mount.blind_escalate tag) fun _ => .enqueue _
  · exact .bind (Mount.blind_relativeFrame tag) fun _ => .enqueue _

theorem Bridge.blind_sendCommand (tag : Tag) (command : Nat) (args : List PropValue) :
    Blind (sendCommand tag command args : MountM κ Unit) := by
  refine .bind (blind_ensureMounted tag) fun created => ?_
  dsimp only
  split
  · exact .bind (Mount.blind_refreshSubtree tag) fun _ => .enqueue _
  · exact .enqueue _

/-- Every command depends on the essence of the scene alone. -/
theorem Command.blind_run (managers : Managers) (command : Command κ) :
    Blind (command.run managers) := by
  cases command with
  | addRoot tag width height =>
    exact .bind (.onTree _) fun _ => .bind (Mount.blind_trackRoot tag) fun _ => .say ..
  | removeRoot tag => exact .bind (Mount.blind_destroyRoot tag) fun _ => .say ..
  | create tag viewClass root props => exact Bridge.blind_create ..
  | update tag viewClass props => exact Bridge.blind_update ..
  | editChildren parent batch => exact Children.blind_applyBatch ..
  | prependChildren parent children => exact Children.blind_prepend ..
  | setFrame tag frame => exact .onTree _
  | measure tag callback => exact Bridge.blind_measure ..
  | measureInWindow tag callback => exact Bridge.blind_enqueueMounted ..
  | findSubview tag x y callback => exact Bridge.blind_enqueueMounted ..
  | sendCommand tag command args => exact Bridge.blind_sendCommand ..
  | popupMenu tag items callback => exact Bridge.blind_enqueueMounted ..
  | accessibilityEvent tag event => exact Bridge.blind_enqueueMounted ..
  | setResponder tag blockNative =>
    exact .bind (Mount.blind_touchView tag) fun _ => .enqueue _
  | clearResponder => exact .enqueue _

end Commands

end ShadowMount
