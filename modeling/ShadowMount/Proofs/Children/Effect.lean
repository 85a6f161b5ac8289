import ShadowMount.Proofs.Children.Acceptance
import ShadowMount.Proofs.Native.Replay

/-!
# What a batch changes and what it leaves alone

An accepted batch detaches, parks, destroys and attaches one node after the other. What comes out
is told here of the whole scene at once: which tags are gone, what became of the parent and of the
added children, that every other node is found as it was, and which views wait for their drop.

* **`Children.BatchEffect`** — the scene before and after an accepted batch.
* **`Children.applyBatch_effect`** — every accepted batch has this effect.
-/

namespace ShadowMount

/-- Attachment changes the parent of a node and, where children are forced to mount, the flag of one
that can have a view. -/
theorem Node.attachedTo_eq {κ : Type} (parent : Tag) (forces : Bool) (node : Node κ) :
    node.attachedTo parent forces = { node with
      parent := some parent
      mounts := node.mounts || forces && node.kind != .virtual } := by
  -- three cases: the parent does not force, the node mounts already, or the node can be promoted
  cases forces with
  | false => simp [attachedTo]
  | true =>
    cases hmounts : node.mounts with
    | true => simp [attachedTo, promote, isPromotable, hmounts]
    | false =>
      by_cases hkind : node.kind = .virtual
      · simp [attachedTo, promote, isPromotable, isVirtual, hmounts, hkind]
      · simp [attachedTo, promote, isPromotable, isVirtual, hmounts, hkind]

namespace Children

variable {κ : Type} {tree : Tree κ} {parent : Tag} {batch : Batch}

/-- What an accepted batch makes of a scene. -/
structure BatchEffect (scene : Scene κ) (parent : Tag) (batch : Batch) (removed dropped : List Tag)
    (done : Scene κ) : Prop where
  /-- The removed children are those at the positions to empty, from the highest down. -/
  removed_at : (sortOn id batch.removeFrom).reverse.map ((scene.tree.childrenOf parent)[·]?) =
    removed.map some
  /-- The walk over a removed subtree has an answer, so the lists below are not made up. -/
  walks : ∀ r ∈ removed, scene.tree.postOrder r = .ok (scene.tree.subtree r)
  /-- The dropped views are those of the removed subtrees, each in post-order. -/
  dropped_eq : dropped = (removed.flatMap scene.tree.subtree).filter scene.tree.createdAt
  /-- The removed subtrees are gone, and every other node is registered as before. -/
  registered : ∀ x, done.tree.contains x = true ↔
    scene.tree.contains x = true ∧ ∀ r ∈ removed, x ∉ scene.tree.subtree r
  /-- Apart from the parent, the added children and what was removed, every node is as before. -/
  kept : ∀ x, x ≠ parent → x ∉ batch.addTags → (∀ r ∈ removed, x ∉ scene.tree.subtree r) →
    done.tree.get? x = scene.tree.get? x
  /-- The parent has another child list; an added child has a parent, and mounts if that forces it
  to. -/
  at_parent : ∃ above children, scene.tree.get? parent = some above ∧
    done.tree.get? parent = some { above with children } ∧
    ∀ c ∈ batch.addTags, ∃ node, scene.tree.get? c = some node ∧
      done.tree.get? c = some { node with
        parent := some parent
        mounts := node.mounts || above.forcesChildren && node.kind != .virtual }
  roots : done.tree.roots = scene.tree.roots
  poisoned : done.tree.poisoned = scene.tree.poisoned
  /-- The drops are appended to those pending, none of them that of a root. -/
  drops : done.mount.drops = scene.mount.drops ++ dropped.map (⟨·, false⟩)
  /-- The memory of dropped views is erased, and no other memory is touched. -/
  sent : ∀ x, done.mount.sentStates[x]? =
    if x ∈ dropped then none else scene.mount.sentStates[x]?
  /-- A dropped view has no frame to report any more. -/
  frameChanges : done.mount.frameChanges = scene.mount.frameChanges.filter (·.1 ∉ dropped)
  /-- Operations are taken out of the queue by pruning alone. -/
  queue : scene.mount.config.pruneDrops = false → done.mount.queue = scene.mount.queue
  config : done.mount.config = scene.mount.config
  passOpen : done.mount.passOpen = scene.mount.passOpen

/-- The nodes that are gone, in terms of subtrees as lists. -/
theorem mem_subtree_removed (hwf : tree.WellFormed) {removed : List Tag}
    (hchild : ∀ r ∈ removed, tree.parentOf? r = some parent) (x : Tag) :
    (∀ r ∈ removed, x ∉ tree.subtree r) ↔ ∀ r ∈ removed, ¬ tree.InSubtree r x := by
  refine forall₂_congr fun r hr => not_congr ?_
  obtain ⟨node, hget, -⟩ := Tree.get?_of_parentOf? (hchild r hr)
  exact Tree.mem_subtree hwf (Tree.contains_of_get? hget)

/-- No root lies below a child of another node. -/
theorem isRoot_swept (hwf : tree.WellFormed) {removed : List Tag}
    (hchild : ∀ r ∈ removed, tree.parentOf? r = some parent) {x : Tag}
    (hx : x ∈ removed.flatMap tree.subtree) : tree.isRoot x = false := by
  cases hroot : tree.isRoot x with
  | false => rfl
  | true =>
    -- a root has no parent, and what lies below a child has one
    have hparentless := hwf.root_parentless (Tree.isRoot_iff.mp hroot)
    obtain ⟨r, hr, hmem⟩ := List.mem_flatMap.mp hx
    refine absurd hmem ((mem_subtree_removed hwf hchild x).mpr (fun r hr => ?_) r hr)
    exact Tree.not_inSubtree_of_parentless (hchild r hr) hparentless

/-- The tags that are registered after a batch. -/
theorem contains_rearranged {list removed : List Tag} {after : Tree κ}
    (h : tree.Rearranged parent list batch.addTags removed after)
    (hvalid : batch.Valid tree parent) (x : Tag) :
    after.contains x = true ↔
      tree.contains x = true ∧ ∀ r ∈ removed, ¬ tree.InSubtree r x := by
  obtain ⟨above, habove, hafter, hadded⟩ := h.at_parent
  -- either the node was passed by or it was removed
  by_cases hgone : ∀ r ∈ removed, ¬ tree.InSubtree r x
  · refine Iff.trans ?_ (and_iff_left hgone).symm
    by_cases hparent : x = parent
    · subst hparent
      simp [Tree.contains_of_get? habove, Tree.contains_of_get? hafter]
    by_cases hnew : x ∈ batch.addTags
    · have hcontained := (hvalid.attachable x hnew).contained
      obtain ⟨node, hget⟩ := Tree.contains_iff.mp hcontained
      have hfound := hadded hnew
      rw [hget, Option.map_some] at hfound
      simp [hcontained, Tree.contains_of_get? hfound]
    · rw [Tree.contains_iff, Tree.contains_iff, h.kept hparent hnew hgone]
  · refine iff_of_false (fun hcontained => hgone fun r hr hsub => ?_) fun h => hgone h.2
    obtain ⟨node, hget⟩ := Tree.contains_iff.mp hcontained
    rw [h.gone hr hsub] at hget
    cases hget

/-- The frame of an accepted batch: the removed subtrees are gone and their views wait for their
drop, the parent has another child list, the added children hang below it, and nothing else is
different. -/
theorem applyBatch_effect [Coordinate κ] (h : tree.Reachable) {mount : MountState κ}
    {log : List Log.Line} {done : Scene κ}
    (hok : applyBatch parent batch ⟨tree, mount, log⟩ = .ok () done) :
    ∃ removed dropped, BatchEffect ⟨tree, mount, log⟩ parent batch removed dropped done := by
  have hsound := h.sound
  have hwf := hsound.wellFormed
  obtain ⟨hvalid, -⟩ := applyBatch_eq_ok hsound hok
  obtain ⟨after, log', hdone, -, -, hrearranged⟩ := applyBatch_of_valid mount log hwf hsound.flags
    hsound.consistent hvalid
  obtain rfl := (EStateM.Result.ok.inj (hdone.symm.trans hok)).2
  -- the removed children are children of the parent, in either order
  obtain ⟨hnamed, -⟩ := hvalid.named_children hwf
  have hperm := batch.removedChildren_perm (tree.childrenOf parent)
  have hchildAt : ∀ r ∈ Batch.childrenAt (tree.childrenOf parent) batch.removeFrom,
      tree.parentOf? r = some parent := by
    intro r hr
    refine hnamed r ?_
    rw [Batch.childrenAt, List.map_append]
    exact List.mem_append_right _ hr
  have hchild : ∀ r ∈ batch.removedChildren (tree.childrenOf parent),
      tree.parentOf? r = some parent := fun r hr => hchildAt r (hperm.mem_iff.mp hr)
  -- subtrees as lists and subtrees as a relation, removed children in either order
  have hapart : ∀ x, (∀ r ∈ batch.removedChildren (tree.childrenOf parent), x ∉ tree.subtree r) ↔
      ∀ r ∈ Batch.childrenAt (tree.childrenOf parent) batch.removeFrom, ¬ tree.InSubtree r x := by
    intro x
    rw [mem_subtree_removed hwf hchild]
    exact forall_congr' fun r => imp_congr_left hperm.mem_iff
  obtain ⟨above, habove, hafter, hadded⟩ := hrearranged.at_parent
  refine ⟨batch.removedChildren (tree.childrenOf parent), _, ?_, ?_, rfl, ?_, ?_, ?_,
    hrearranged.roots, hrearranged.poisoned, ?_, ?_, ?_, ?_, ?_, ?_⟩
  -- what was removed, and in which order
  · rw [Batch.removedChildren, Batch.childrenAt, List.map_map]
    refine List.map_congr_left fun i hi => hvalid.getElem?_children (List.mem_append_right _ ?_)
    exact (sortOn_perm id _).mem_iff.mp (List.mem_reverse.mp hi)
  -- each walk has an answer, as removed children are registered
  · intro r hr
    obtain ⟨node, hget, -⟩ := Tree.get?_of_parentOf? (hchild r hr)
    obtain ⟨members, hmembers, -⟩ := Tree.postOrder_spec hwf (Tree.contains_of_get? hget)
    rw [hmembers, Tree.subtree_of_postOrder hmembers]
  · intro x
    rw [hapart]
    exact contains_rearranged hrearranged hvalid x
  · intro x hparent hnew hgone
    exact hrearranged.kept hparent hnew ((hapart x).mp hgone)
  · refine ⟨above, _, habove, hafter, fun c hc => ?_⟩
    obtain ⟨node, hget⟩ := Tree.contains_iff.mp (hvalid.attachable c hc).contained
    refine ⟨node, hget, ?_⟩
    rw [hadded hc, hget, Option.map_some, Node.attachedTo_eq]
  -- none of the dropped views is that of a root
  · rw [MountState.drops_scheduledAll]
    refine congrArg _ (List.map_congr_left fun x hx => ?_)
    rw [isRoot_swept hwf hchild (List.mem_of_mem_filter hx)]
  -- the rest of the mount state, as scheduling the drops one by one leaves it
  · exact MountState.sentStates_scheduledAll _ mount
  · exact MountState.frameChanges_scheduledAll _ mount
  · intro hprune
    rw [MountState.queue_scheduledAll, hprune]
    exact List.filter_eq_self.mpr fun operation _ => operation.survives_none
  · exact MountState.config_scheduledAll _ mount
  · exact MountState.passOpen_scheduledAll _ _ mount

end Children

namespace Sample

/-- A root with the children 2, 3 and 4, where 3 has a view and so has its child 6, and the detached
node 5. -/
def grove : Scene Float32 :=
  Scene.afterCalls {} [.registerRoot 1 "Root" 0 0, plain 2, plain 3, plain 4, plain 5, plain 6,
    .prepend 1 [2, 3, 4], .attach 3 6 0, .escalate 3, .escalate 6]

theorem grove_reachable : grove.tree.Reachable := Tree.Reachable.afterCalls _ .empty

end Sample

/-- The middle child goes with its child, whose drop comes first. -/
theorem Children.applyBatch_effect_grove : ∃ done removed,
    applyBatch 1 Sample.reshuffle Sample.grove = .ok () done ∧
      BatchEffect Sample.grove 1 Sample.reshuffle removed [6, 3] done := by
  have hworks : (match applyBatch 1 Sample.reshuffle Sample.grove with
      | .ok .. => true
      | .error .. => false) = true := by decide +kernel
  cases hrun : applyBatch 1 Sample.reshuffle Sample.grove with
  | error err failed =>
    rw [hrun] at hworks
    cases hworks
  | ok answer done =>
    obtain ⟨removed, dropped, heffect⟩ := applyBatch_effect Sample.grove_reachable hrun
    have hremoved : removed.map some = [some 3] := heffect.removed_at.symm.trans (by decide +kernel)
    obtain rfl : removed = [3] := by simpa using hremoved
    obtain rfl : dropped = [6, 3] := heffect.dropped_eq.trans (by decide +kernel)
    exact ⟨done, [3], rfl, heffect⟩

end ShadowMount
