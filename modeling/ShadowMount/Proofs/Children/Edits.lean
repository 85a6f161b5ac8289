import ShadowMount.Proofs.Children.Filling

/-!
# Edits of a child list

The two passes put together. A valid batch is carried out without a failure and ends in the tree
that `Rearranged` describes; any other batch is rejected before the tree is touched. So a batch
never leaves a poisoned tree behind.

* **`applyBatch_of_valid`**, **`applyBatch_of_invalid`** — the two outcomes of a batch.
* **`prepend_cases`** — the two outcomes of putting children in front.
-/

namespace ShadowMount

/-- Attaching a child again where it was detached. -/
theorem Node.attachedTo_detached {κ : Type} {node : Node κ} {parent : Tag} {forces : Bool}
    (hparent : node.parent = some parent)
    (hforced : forces = true → node.kind ≠ .virtual → node.mounts = true) :
    ({ node with parent := none } : Node κ).attachedTo parent forces = node := by
  have hsame : { node with parent := some parent } = node := by
    rw [← hparent]
  show (if forces then ({ node with parent := some parent } : Node κ).promote
    else { node with parent := some parent }) = node
  rw [hsame]
  cases hforces : forces with
  | false => rfl
  | true =>
    rw [if_pos rfl]
    -- a parent that forces its children to mount has forced this one already, unless it is virtual
    by_cases hkind : node.kind = .virtual
    · rw [promote, isPromotable, isVirtual, hkind]
      rfl
    · exact promote_of_mounts (hforced hforces hkind)

namespace Tree

variable {κ : Type} {tree mid after : Tree κ} {parent : Tag}

/-- What an edit of the children of `parent` makes of a tree: `list` is the new child list, the
nodes `added` are attached, the children `removed` are gone with their subtrees, and everything
else is as before. -/
structure Rearranged (tree : Tree κ) (parent : Tag) (list added removed : List Tag)
    (after : Tree κ) : Prop where
  /-- The subtrees of removed children are not registered any more. -/
  gone : ∀ {x r}, r ∈ removed → tree.InSubtree r x → after.get? x = none
  /-- The parent has the new list, and the added children are attached to it. -/
  at_parent : ∃ above, tree.get? parent = some above ∧
    after.get? parent = some { above with children := list } ∧
    ∀ {x}, x ∈ added →
      after.get? x = (tree.get? x).map (Node.attachedTo parent above.forcesChildren)
  /-- Every other node is as before, moved children included. -/
  kept : ∀ {x}, x ≠ parent → x ∉ added → (∀ r ∈ removed, ¬ tree.InSubtree r x) →
    after.get? x = tree.get? x
  roots : after.roots = tree.roots
  poisoned : after.poisoned = tree.poisoned

/-- A node without a parent lies in no subtree of a node that has one. -/
theorem not_inSubtree_of_parentless {r x p : Tag} (hr : tree.parentOf? r = some p)
    (hx : tree.parentOf? x = none) : ¬ tree.InSubtree r x := by
  rintro (rfl | hanc)
  · rw [hr] at hx
    cases hx
  · obtain ⟨q, hq, -⟩ := hanc.parent_inSubtree
    rw [hx] at hq
    cases hq

namespace Emptied

variable {list loose removed added : List Tag}

/-- The detached children, and the nodes that could be attached before, can be attached. -/
theorem attachable (h : tree.Emptied parent list loose removed mid) (hwf : tree.WellFormed)
    (hchild : ∀ c ∈ loose ++ removed, tree.parentOf? c = some parent)
    {c : Tag} (hc : c ∈ loose ∨ tree.Attachable parent c) : mid.Attachable parent c := by
  -- no link is new, so what lies above the parent did so before
  have hsub : mid.InSubtree c parent → tree.InSubtree c parent :=
    fun h' => h'.imp_right fun hanc => hanc.mono h.parentOf?_some
  rcases hc with hc | hc
  · -- a loosened child lost its parent in the first pass
    have hparent := hchild c (List.mem_append_left _ hc)
    obtain ⟨node, hnode, -⟩ := get?_of_parentOf? hparent
    have hget : mid.get? c = some { node with parent := none } := by
      rw [h.at_loose hc, hnode, Option.map_some]
    refine ⟨contains_of_get? hget, parentOf?_of_get? hget, ?_, fun h' => ?_⟩
    · intro hroot
      rw [h.roots] at hroot
      rw [hwf.root_parentless hroot] at hparent
      cases hparent
    · exact not_inSubtree_parent hwf hparent (hsub h')
  · -- a node without a parent is no child, so the first pass passed it by
    have hget : mid.get? c = tree.get? c := by
      refine h.kept hc.ne (fun hmem => ?_) fun r hr => ?_
      · have hparent := hchild c (List.mem_append_left _ hmem)
        rw [hc.parentless] at hparent
        cases hparent
      · exact not_inSubtree_of_parentless (hchild r (List.mem_append_right _ hr)) hc.parentless
    refine ⟨?_, ?_, ?_, fun h' => hc.not_above (hsub h')⟩
    · rw [Tree.contains, hget]
      exact hc.contained
    · rw [parentOf?, hget]
      exact hc.parentless
    · rw [h.roots]
      exact hc.not_root

/-- Emptying and then filling, with the detached children among those put back. -/
theorem rearranged {above : Node κ} {list' tags : List Tag}
    (h : tree.Emptied parent list loose removed mid)
    (hfilled : mid.Filled parent above list' tags after)
    (habove : mid.get? parent = some above) (hwf : tree.WellFormed) (hflags : tree.FlagsSound)
    (hchild : ∀ c ∈ loose ++ removed, tree.parentOf? c = some parent)
    (hattachable : ∀ c ∈ added, tree.Attachable parent c) (hdistinct : ∀ c ∈ loose, c ∉ removed)
    (htags : ∀ x, x ∈ tags ↔ x ∈ loose ∨ x ∈ added) :
    tree.Rearranged parent list' added removed after := by
  obtain ⟨node, hnode, hmid⟩ := h.at_parent
  rw [habove] at hmid
  cases hmid
  -- what lies below a removed child has a parent, so it is not added, and a sibling, so it is not
  -- moved
  have hnotadded : ∀ {x r}, r ∈ removed → tree.InSubtree r x → x ∉ added := by
    intro x r hr hx hmem
    exact not_inSubtree_of_parentless (hchild r (List.mem_append_right _ hr))
      (hattachable x hmem).parentless hx
  have hnotloose : ∀ {x r}, r ∈ removed → tree.InSubtree r x → x ∉ loose := by
    intro x r hr hx hmem
    exact hwf.siblings_disjoint (hchild r (List.mem_append_right _ hr))
      (hchild x (List.mem_append_left _ hmem)) (fun heq => hdistinct x hmem (heq ▸ hr)) hx (.refl x)
  refine ⟨?_, ⟨node, hnode, hfilled.at_parent, ?_⟩, ?_, hfilled.roots.trans h.roots,
    hfilled.poisoned.trans h.poisoned⟩
  -- gone after the first pass, and not put back by the second
  · intro x r hr hx
    have hne : x ≠ parent := by
      rintro rfl
      exact not_inSubtree_parent hwf (hchild r (List.mem_append_right _ hr)) hx
    have hnot : x ∉ tags := fun hmem =>
      ((htags x).mp hmem).elim (hnotloose hr hx) (hnotadded hr hx)
    rw [hfilled.kept hne hnot, h.gone hr hx]
  -- attached in the second pass, from the record it had before the batch
  · intro x hx
    have hattach := hattachable x hx
    have hloose : x ∉ loose := by
      intro hmem
      have hparent := hchild x (List.mem_append_left _ hmem)
      rw [hattach.parentless] at hparent
      cases hparent
    have hkept : ∀ r ∈ removed, ¬ tree.InSubtree r x := fun r hr =>
      not_inSubtree_of_parentless (hchild r (List.mem_append_right _ hr)) hattach.parentless
    rw [hfilled.at_added ((htags x).mpr (.inr hx)), h.kept hattach.ne hloose hkept]
  · intro x hne hnot hkept
    by_cases hloose : x ∈ loose
    · -- a moved child comes back with the flags it had
      obtain ⟨old, hold, hparent⟩ := get?_of_parentOf? (hchild x (List.mem_append_left _ hloose))
      rw [hfilled.at_added ((htags x).mpr (.inl hloose)), h.at_loose hloose, hold, Option.map_some,
        Option.map_some]
      exact congrArg some (Node.attachedTo_detached hparent fun hforces hkind =>
        hflags.forced_mounts hold hparent hnode hforces hkind)
    -- passed by in both passes
    · rw [hfilled.kept hne (fun hmem => ((htags x).mp hmem).elim hloose hnot),
        h.kept hne hloose hkept]

end Emptied

end Tree

/-! ## The children that a valid batch names

The sources of the moves and the removed positions name children of the parent, each of them at most
once. So the two passes take apart a list without repeats, and what they take out can be told from
what stays by membership alone. -/

namespace Batch

variable {κ : Type} {batch : Batch} {tree : Tree κ} {parent : Tag}

/-- The children taken from the given positions. -/
def childrenAt (children : List Tag) (positions : List Nat) : List Tag :=
  positions.map (children.getD · 0)

/-- The children detached are those at the sources of moves. -/
theorem Valid.loosened_perm (h : batch.Valid tree parent) (children : List Tag) :
    (batch.editPlan.detachSchedule.filterMap (DetachStep.loosened? children)).Perm
      (childrenAt children batch.moveFrom) := by
  have hperm := h.detachSchedule_spec.1.filterMap (DetachStep.loosened? children)
  rw [List.filterMap_append, List.filterMap_map, List.filterMap_map] at hperm
  -- each move detaches what its source holds
  have hmoves : batch.movePlan.sources.zipIdx.filterMap
      (DetachStep.loosened? children ∘ fun m => .move m.1 m.2) =
        childrenAt children batch.movePlan.sources := by
    have hsome : (DetachStep.loosened? children ∘ fun m : Nat × Nat => .move m.1 m.2) =
        some ∘ fun m => children.getD m.1 0 := rfl
    rw [hsome, List.filterMap_eq_map, childrenAt]
    conv_rhs => rw [← List.zipIdx_map_fst 0 batch.movePlan.sources, List.map_map]
    rfl
  -- removals detach nothing
  have hremovals : batch.removeFrom.filterMap (DetachStep.loosened? children ∘ .remove) = [] :=
    List.filterMap_eq_nil_iff.mpr fun _ _ => rfl
  rw [hmoves, hremovals, List.append_nil] at hperm
  exact hperm.trans ((batch.sources_perm h.moves_match).map _)

/-- The children that a batch removes, from the highest position down. -/
def removedChildren (batch : Batch) (children : List Tag) : List Tag :=
  childrenAt children (sortOn id batch.removeFrom).reverse

/-- The order of removals is that of positions; as a collection they are the children named. -/
theorem removedChildren_perm (batch : Batch) (children : List Tag) :
    (batch.removedChildren children).Perm (childrenAt children batch.removeFrom) :=
  ((List.reverse_perm _).trans (sortOn_perm id batch.removeFrom)).map _

/-- The positions emptied for good are those to be removed, from the highest down. -/
theorem Valid.removedPositions_eq (h : batch.Valid tree parent) :
    batch.editPlan.detachSchedule.filterMap DetachStep.removedPosition? =
      (sortOn id batch.removeFrom).reverse := by
  obtain ⟨hschedule, hdescending⟩ := h.detachSchedule_spec
  have hperm := hschedule.filterMap DetachStep.removedPosition?
  rw [List.filterMap_append, List.filterMap_map, List.filterMap_map] at hperm
  -- moves empty no position for good
  have hmoves : batch.movePlan.sources.zipIdx.filterMap
      (DetachStep.removedPosition? ∘ fun m => .move m.1 m.2) = [] :=
    List.filterMap_eq_nil_iff.mpr fun _ _ => rfl
  have hremovals : batch.removeFrom.filterMap (DetachStep.removedPosition? ∘ .remove) =
      batch.removeFrom := List.filterMap_some
  rw [hmoves, hremovals, List.nil_append] at hperm
  -- the positions of the schedule descend, so do those of its removals
  have hsorted : (batch.editPlan.detachSchedule.filterMap
      DetachStep.removedPosition?).Pairwise fun a b => b < a := by
    refine List.Pairwise.filterMap _ (fun a b hlt i hi j hj => ?_) hdescending
    cases a <;> cases hi
    cases b <;> cases hj
    exact hlt
  have heq := @eq_sortOn _ id _ _ ((List.reverse_perm _).trans hperm)
    (List.pairwise_reverse.mpr hsorted)
  rw [← heq, List.reverse_reverse]

/-- The schedule destroys the removed children in this order. -/
theorem Valid.removed_eq (h : batch.Valid tree parent) (children : List Tag) :
    batch.editPlan.detachSchedule.filterMap (DetachStep.removed? children) =
      batch.removedChildren children := by
  have hmap : DetachStep.removed? children =
      fun step => step.removedPosition?.map (children.getD · 0) := by
    funext step
    cases step <;> rfl
  rw [hmap, ← List.map_filterMap, h.removedPositions_eq]
  rfl

/-- A position that is named holds a child. -/
theorem Valid.getElem?_children (h : batch.Valid tree parent) {i : Nat}
    (hi : i ∈ batch.moveFrom ++ batch.removeFrom) :
    (tree.childrenOf parent)[i]? = some ((tree.childrenOf parent).getD i 0) := by
  rw [List.getD_eq_getElem?_getD, List.getElem?_eq_getElem (h.sources_lt i hi), Option.getD_some]

/-- What a batch takes out are distinct children of the parent. -/
theorem Valid.named_children (h : batch.Valid tree parent) (hwf : tree.WellFormed) :
    (∀ c ∈ childrenAt (tree.childrenOf parent) (batch.moveFrom ++ batch.removeFrom),
      tree.parentOf? c = some parent) ∧
    (childrenAt (tree.childrenOf parent) (batch.moveFrom ++ batch.removeFrom)).Nodup := by
  constructor
  · intro c hc
    obtain ⟨i, hi, rfl⟩ := List.mem_map.mp hc
    exact hwf.link.mp (List.mem_of_getElem? (h.getElem?_children hi))
  -- positions of a list without repetition hold distinct children
  · refine List.Nodup.map_on (fun i hi j hj heq => ?_) h.sources_nodup
    refine (List.getElem?_inj (h.sources_lt i hi) (hwf.nodup parent)).mp ?_
    rw [h.getElem?_children hi, h.getElem?_children hj, heq]

/-- The children inserted are those moved and those added. -/
theorem Valid.entryTags_perm (h : batch.Valid tree parent) (children : List Tag) :
    ((batch.entries children).map Prod.snd).Perm
      (childrenAt children batch.moveFrom ++ batch.addTags) := by
  have hperm := (h.entries_perm children).map Prod.snd
  rw [List.map_append, List.map_map, List.map_snd_zip (Nat.le_of_eq h.adds_match)] at hperm
  have hmoved : (batch.moveTo.zip batch.moveFrom).map (Prod.snd ∘ fun move =>
      (move.1, children.getD move.2 0)) = childrenAt children batch.moveFrom := by
    rw [childrenAt]
    conv_rhs => rw [← List.map_snd_zip (Nat.le_of_eq h.moves_match), List.map_map]
    rfl
  rwa [hmoved] at hperm

/-- No child is inserted twice. -/
theorem Valid.entryTags_nodup (h : batch.Valid tree parent) (hwf : tree.WellFormed) :
    ((batch.entries (tree.childrenOf parent)).map Prod.snd).Nodup := by
  obtain ⟨hchild, hnodup⟩ := h.named_children hwf
  rw [childrenAt, List.map_append] at hchild hnodup
  rw [(h.entryTags_perm _).nodup_iff, List.nodup_append]
  -- a moved child has a parent and an added one has none
  refine ⟨(List.nodup_append.mp hnodup).1, h.added_nodup, fun a ha b hb heq => ?_⟩
  have hparent := hchild a (List.mem_append_left _ ha)
  rw [heq, (h.attachable b hb).parentless] at hparent
  cases hparent

end Batch

/-! ## Outcomes

A batch without a plan is rejected before anything is done. One with a plan is valid, and then
neither pass can fail: the first meets the conditions of `detachAll_ok`, the second those of
`attachEach_ok`, on the tree that the first has left. -/

namespace Children

open MountM

variable {κ : Type} {tree : Tree κ} {parent : Tag} {batch : Batch}

/-- An outcome with another log. -/
def withLog {α : Type} (log : List Log.Line) :
    EStateM.Result UiError (Scene κ) α → EStateM.Result UiError (Scene κ) α
  | .ok answer done => .ok answer { done with log }
  | .error err failed => .error err { failed with log }

/-- A batch without a plan is refused, with lines in the log. -/
theorem applyBatch_of_planless {parent : Tag} {batch : Batch} {scene : Scene κ} {err : UiError}
    (hcheck : scene.tree.checkConsistent = .ok ())
    (hplan : batch.plan scene.tree parent = .error err) :
    ∃ log, applyBatch parent batch scene = .error err { scene with log } := by
  unfold applyBatch
  rw [bind_of_ok (query_of_ok hcheck), bind_of_ok (say_apply ..),
    tryCatch_of_error (bind_of_error (query_of_error hplan)), bind_of_ok (say_apply ..)]
  exact ⟨_, rfl⟩

/-- A batch with a plan has the outcome of its passes, with lines in the log. -/
theorem applyBatch_of_plan {parent : Tag} {batch : Batch} {scene : Scene κ} {plan : EditPlan}
    (hcheck : scene.tree.checkConsistent = .ok ())
    (hplan : batch.plan scene.tree parent = .ok plan) : ∃ log log',
      applyBatch parent batch scene = withLog log' (carryOut parent plan { scene with log }) := by
  unfold applyBatch
  rw [bind_of_ok (query_of_ok hcheck), bind_of_ok (say_apply ..)]
  -- nothing depends on what the log held before
  generalize scene.log ++ _ = log
  refine ⟨log, ?_⟩
  have hpasses : (do carryOut parent (← query (batch.plan · parent)) : MountM κ Unit)
      { scene with log } = carryOut parent plan { scene with log } :=
    bind_of_ok (query_of_ok hplan)
  -- the outcome of the passes is passed on, with one more line if it is an error
  cases hrun : carryOut parent plan { scene with log } with
  | ok answer done => exact ⟨done.log, tryCatch_of_ok (hpasses.trans hrun)⟩
  | error err failed =>
    rw [tryCatch_of_error (hpasses.trans hrun), bind_of_ok (say_apply ..)]
    exact ⟨_, rfl⟩

/-- A batch that is not valid is rejected before anything but the log is touched. -/
theorem applyBatch_of_invalid (mount : MountState κ) (log : List Log.Line) (hwf : tree.WellFormed)
    (hpoisoned : tree.poisoned = false) (hvalid : ¬ batch.Valid tree parent) :
    ∃ err log', applyBatch parent batch ⟨tree, mount, log⟩ = .error err ⟨tree, mount, log'⟩ := by
  -- a tree that is not poisoned passes the first check
  have hcheck : tree.checkConsistent = .ok () := by
    rw [Tree.checkConsistent, if_neg (by rw [hpoisoned]; exact Bool.false_ne_true)]
  cases hplan : batch.plan tree parent with
  | ok plan => exact absurd (batch.plan_eq_ok_iff hwf |>.mp hplan).1 hvalid
  | error err =>
    exact ⟨err, @applyBatch_of_planless _ parent batch ⟨tree, mount, log⟩ err hcheck hplan⟩

/-- The first pass of a valid batch can be carried out. -/
theorem emptiable_of_valid (hwf : tree.WellFormed) (hflags : tree.FlagsSound)
    (hvalid : batch.Valid tree parent) {above : Node κ} (habove : tree.get? parent = some above) :
    Emptiable tree parent above (tree.childrenOf parent) batch.editPlan.detachSchedule := by
  -- the schedule descends, its positions lie in the list, and no two of them are one
  refine ⟨hwf, hflags, habove, hvalid.detachSchedule_spec.2, fun step hstep => ?_, fun i hi => ?_⟩
  · have hlt := hvalid.detachIndex_lt _ (List.mem_map_of_mem hstep)
    rw [Tree.childrenOf_of_get? habove] at hlt ⊢
    rw [List.getD_eq_getElem?_getD, List.getElem?_eq_getElem hlt, Option.getD_some]
  · rw [hvalid.detachSchedule_spec.1.mem_iff, List.mem_append, List.mem_map, List.mem_map] at hi
    rcases hi with ⟨_, _, h⟩ | ⟨_, _, h⟩ <;> cases h

/-- The second pass of a valid batch attaches its entries, if the first one has parked the moved
children. -/
theorem attachAll_of_valid (hvalid : batch.Valid tree parent) (children : List Tag)
    (scene : Scene κ) :
    attachAll parent none (batch.movePlan.parkAll children batch.editPlan.detachSchedule)
      batch.editPlan.attachSchedule scene =
        onTree (Tree.attachEach parent (batch.entries children)) scene := by
  obtain ⟨hperm, hasc⟩ := hvalid.attachSchedule_spec
  have htarget : ∀ {i rank}, .move i rank ∈ batch.editPlan.attachSchedule →
      batch.movePlan.targets[rank]? = some i := by
    intro i rank hmem
    rw [hperm.mem_iff, List.mem_append, List.mem_map, List.mem_map] at hmem
    rcases hmem with ⟨_, _, h⟩ | ⟨m, hm, h⟩
    · cases h
    · obtain ⟨rfl, rfl⟩ := AttachStep.move.inj h
      exact List.mem_zipIdx_iff_getElem?.mp hm
  refine attachAll_eq (fun _ _ => rfl) (fun _ _ => rfl) none _ scene hasc nofun (fun i hi => ?_) ?_ ?_
  -- no collision in the schedule
  · rw [hperm.mem_iff, List.mem_append, List.mem_map, List.mem_map] at hi
    rcases hi with ⟨_, _, h⟩ | ⟨_, _, h⟩ <;> cases h
  · refine hasc.imp_of_mem fun {a b} ha hb hlt i j rank hai hbj => ?_
    -- a rank belongs to one target only
    subst hai hbj
    have htargets := (htarget ha).symm.trans (htarget hb)
    exact absurd (Option.some.inj htargets) (Nat.ne_of_lt hlt)
  -- what waits for a target is the child its move has parked
  · intro i rank hmem
    have hlt := (List.getElem?_eq_some_iff.mp (htarget hmem)).1
    have hlength : batch.movePlan.targets.length = batch.movesByTarget.length := List.length_map ..
    exact hvalid.waiting?_parkAll children (hlength ▸ hlt)

/-- The two passes of a valid batch. -/
theorem carryOut_of_valid (mount : MountState κ) (log : List Log.Line) (hwf : tree.WellFormed)
    (hflags : tree.FlagsSound) (hvalid : batch.Valid tree parent) :
    ∃ after log', carryOut parent batch.editPlan ⟨tree, mount, log⟩ =
        .ok () ⟨after, mount.scheduledAll tree.isRoot
          ((tree.swept (batch.removedChildren (tree.childrenOf parent))).filter tree.createdAt),
          log'⟩ ∧
      after.WellFormed ∧ after.FlagsSound ∧
      tree.Rearranged parent (batch.rearranged (tree.childrenOf parent)) batch.addTags
        (Batch.childrenAt (tree.childrenOf parent) batch.removeFrom) after := by
  obtain ⟨above, habove⟩ := Tree.contains_iff.mp hvalid.parent_contained
  obtain ⟨hchild, hnodup⟩ := hvalid.named_children hwf
  rw [Batch.childrenAt, List.map_append] at hchild hnodup
  have hloose := hvalid.loosened_perm (tree.childrenOf parent)
  have hremoved : (batch.editPlan.detachSchedule.filterMap
      (DetachStep.removed? (tree.childrenOf parent))).Perm
        (Batch.childrenAt (tree.childrenOf parent) batch.removeFrom) := by
    rw [hvalid.removed_eq]
    -- the removed children as a collection, in the order of the batch
    exact batch.removedChildren_perm _
  have hchild' : ∀ c ∈ batch.editPlan.detachSchedule.filterMap
      (DetachStep.loosened? (tree.childrenOf parent)) ++ batch.editPlan.detachSchedule.filterMap
        (DetachStep.removed? (tree.childrenOf parent)), tree.parentOf? c = some parent :=
    fun c hc => hchild c ((hloose.append hremoved).mem_iff.mp hc)
  -- the first pass
  obtain ⟨mid, log', hdetach, hwfMid, hflagsMid, hemptied⟩ :=
    detachAll_ok none batch.movePlan mount log (emptiable_of_valid hwf hflags hvalid habove) nofun
  rw [← Tree.childrenOf_of_get? habove] at hemptied
  obtain ⟨above', habove', hfound⟩ := hemptied.at_parent
  rw [habove] at habove'
  cases habove'
  -- the second pass puts back the moved children and adds the new ones, all of them loose by now
  have htags := hvalid.entryTags_perm (tree.childrenOf parent)
  have hattachable : ∀ c ∈ (batch.entries (tree.childrenOf parent)).map Prod.snd,
      mid.Attachable parent c := by
    intro c hc
    refine hemptied.attachable hwf hchild' ?_
    rcases List.mem_append.mp (htags.mem_iff.mp hc) with hc | hc
    · exact .inl (hloose.mem_iff.mpr hc)
    · exact .inr (hvalid.attachable c hc)
  obtain ⟨after, hattach, hwf', hflags', hfilled⟩ := Tree.attachEach_ok hwfMid hflagsMid hfound
    hvalid.entries_fit (hvalid.entryTags_nodup hwf) hattachable
  -- what the schedules name, in their order, is what the batch names
  have hrearranged := hemptied.rearranged hfilled hfound hwf hflags hchild' hvalid.attachable
    (fun c hc hc' => (List.nodup_append.mp hnodup).2.2 c (hloose.mem_iff.mp hc) c
      (hremoved.mem_iff.mp hc') rfl)
    (fun x => by rw [htags.mem_iff, List.mem_append, hloose.mem_iff])
  refine ⟨after, log', ?_, hwf', hflags', ?_⟩
  -- both passes succeed, so nothing is cleaned up
  · refine onFailure_of_ok ?_
    rw [hvalid.removed_eq] at hdetach
    show (detachAll parent none batch.movePlan _ >>= fun moves => attachAll parent none moves _) _ = _
    rw [bind_of_ok hdetach, attachAll_of_valid hvalid]
    exact onTree_of_ok hattach
  · refine ⟨fun {x r} hr => hrearranged.gone (hremoved.mem_iff.mpr hr), hrearranged.at_parent,
      fun {x} hne hnot hkept => ?_, hrearranged.roots, hrearranged.poisoned⟩
    exact hrearranged.kept hne hnot fun r hr => hkept r (hremoved.mem_iff.mp hr)

/-- A valid batch is carried out: the children are rearranged as its meaning for lists says, and the
views of the removed subtrees are dropped, from the highest position down. -/
theorem applyBatch_of_valid (mount : MountState κ) (log : List Log.Line) (hwf : tree.WellFormed)
    (hflags : tree.FlagsSound) (hpoisoned : tree.poisoned = false)
    (hvalid : batch.Valid tree parent) :
    ∃ after log', applyBatch parent batch ⟨tree, mount, log⟩ =
        .ok () ⟨after, mount.scheduledAll tree.isRoot
          ((tree.swept (batch.removedChildren (tree.childrenOf parent))).filter tree.createdAt),
          log'⟩ ∧
      after.WellFormed ∧ after.FlagsSound ∧
      tree.Rearranged parent (batch.rearranged (tree.childrenOf parent)) batch.addTags
        (Batch.childrenAt (tree.childrenOf parent) batch.removeFrom) after := by
  have hcheck : tree.checkConsistent = .ok () := by
    rw [Tree.checkConsistent, if_neg (by rw [hpoisoned]; exact Bool.false_ne_true)]
  have hplan := (batch.plan_eq_ok_iff hwf).mpr ⟨hvalid, rfl⟩
  obtain ⟨log₁, log₂, hpasses⟩ :=
    @applyBatch_of_plan _ parent batch ⟨tree, mount, log⟩ batch.editPlan hcheck hplan
  obtain ⟨after, log', hrun, hrest⟩ := carryOut_of_valid mount log₁ hwf hflags hvalid
  refine ⟨after, log₂, ?_, hrest⟩
  rw [hpasses, hrun]
  rfl

/-! ## Putting children in front

The loop of `prepend` has no plan. It checks all children first and then attaches them one after the
other, as the second pass of a batch does that moves nothing. -/

/-- Putting children in front fails and changes nothing, or attaches them all. -/
theorem prepend_cases {scene : Scene κ} (hwf : scene.tree.WellFormed)
    (hflags : scene.tree.FlagsSound) (children : List Tag) :
    (∃ err, prepend parent children scene = .error err scene) ∨
    ∃ after list, prepend parent children scene = .ok () { scene with tree := after } ∧
      after.WellFormed ∧ after.FlagsSound ∧ scene.tree.Rearranged parent list children [] after ∧
      ∀ c ∈ children, scene.tree.Attachable parent c := by
  unfold prepend
  cases hcheck : scene.tree.checkConsistent with
  -- the three checks, of which the first to fail decides
  | error err => exact .inl ⟨err, by rw [bind_of_error (query_of_error hcheck)]⟩
  | ok _ =>
    rw [bind_of_ok (query_of_ok hcheck)]
    cases habove : scene.tree.get? parent with
    | none => exact .inl ⟨_, by rw [bind_of_error (node_of_missing habove)]⟩
    | some above =>
      rw [bind_of_ok (node_of_get? habove)]
      have hparent := Tree.contains_of_get? habove
      cases hnew : scene.tree.checkNewChildren parent [] children with
      | error err => exact .inl ⟨err, by rw [bind_of_error (query_of_error hnew)]⟩
      | ok _ =>
        obtain ⟨hall, hnodup, -⟩ := (Tree.checkNewChildren_eq_ok_iff hwf hparent).mp hnew
        have htags : ((children.zipIdx 0).map Prod.swap).map Prod.snd = children := by
          rw [List.map_map]
          exact List.zipIdx_map_fst 0 children
        -- every child goes in where the ones before it end
        have hfits : ∀ {cs : List Tag} {k length : Nat}, k ≤ length →
            Fits length (((cs.zipIdx k).map Prod.swap).map Prod.fst) := by
          intro cs
          induction cs with
          | nil => exact fun _ => trivial
          | cons c cs ih => exact fun hle => ⟨hle, ih (Nat.succ_le_succ hle)⟩
        obtain ⟨after, hattach, hwf', hflags', hfilled⟩ := Tree.attachEach_ok hwf hflags habove
          (hfits (Nat.zero_le _)) (by rw [htags]; exact hnodup) (by rw [htags]; exact hall)
        -- the new list need not be named: the children went in at the positions they were given
        rw [htags] at hfilled
        refine .inr ⟨after, _, ?_, hwf', hflags', ⟨nofun, ⟨above, habove, hfilled.at_parent,
          hfilled.at_added⟩, fun hne hnot _ => hfilled.kept hne hnot, hfilled.roots,
          hfilled.poisoned⟩, hall⟩
        rw [bind_of_ok (query_of_ok hnew)]
        -- every attachment succeeds, so the tree is not poisoned
        refine onFailure_of_ok ?_
        rw [attachFrom_eq]
        exact onTree_of_ok hattach

end Children

end ShadowMount
