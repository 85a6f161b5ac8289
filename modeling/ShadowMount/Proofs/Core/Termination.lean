import ShadowMount.Proofs.Core.Recursions
import ShadowMount.Proofs.Core.Subtrees

/-!
# Walks end

Every loop and every recursion of the core follows links of the tree. On a reachable tree each of
them ends by itself, within a bound that is read off the tree, so no call ever fails for want of
steps.

* **`CoreCall.ends`** — no call runs out of steps on a sound tree, by one lemma for each call.
* **`Tree.Reachable.walks_end`** — the walks up, the loops over a stack, the recursions and the
  calls, for every reachable tree and every tag.
-/

namespace ShadowMount

/-! ## Calls

One lemma for each call. What a call is made of either follows no links at all, or follows them with
more steps than there are nodes; `Ends` puts the parts together. -/

namespace Tree

variable {κ : Type} {tree : Tree κ}

/-! Queries and edits of the tree. What can run out of steps in them is the lineage of a parent and
the post-order of a subtree, and neither does on a well-formed tree; everything else that fails,
fails for another reason. -/

theorem not_spent_node (tag : Tag) : ¬ Spent (tree.node tag) := by
  cases hget : tree.get? tag with
  | none =>
    rw [node_of_get?_none hget]
    exact not_spent_error (by simp)
  | some node =>
    rw [node_of_get? hget]
    exact not_spent_ok node

theorem WellFormed.not_spent_checkAttachable (hwf : tree.WellFormed) (parent child : Tag) :
    ¬ Spent (tree.checkAttachable parent child) := by
  have hlineage : ¬ Spent (tree.lineage parent) :=
    ((hwf.lineage_ends parent).mono (Nat.succ_le_succ (depth_le_size hwf parent))).not_spent
  unfold checkAttachable
  refine not_spent_bind (not_spent_node child) fun node _ => ?_
  split
  · exact not_spent_error (by simp)
  · split
    · exact not_spent_error (by simp)
    · refine not_spent_bind hlineage fun l _ => ?_
      split
      · exact not_spent_error (by simp)
      · exact not_spent_ok ()

theorem WellFormed.not_spent_checkNewChildren (hwf : tree.WellFormed) (parent : Tag) :
    ∀ seen children, ¬ Spent (tree.checkNewChildren parent seen children)
  | _, [] => not_spent_ok ()
  | seen, child :: rest => by
    rw [checkNewChildren]
    refine not_spent_bind (hwf.not_spent_checkAttachable parent child) fun _ _ => ?_
    split
    · exact not_spent_error (by simp)
    · exact hwf.not_spent_checkNewChildren parent (child :: seen) rest

theorem not_spent_checkPositions (length : Nat) :
    ∀ seen positions, ¬ Spent (checkPositions length seen positions)
  | _, [] => not_spent_ok ()
  | seen, index :: rest => by
    rw [checkPositions]
    split
    · exact not_spent_error (by simp)
    · split
      · exact not_spent_error (by simp)
      · exact not_spent_checkPositions length (index :: seen) rest

theorem WellFormed.not_spent_plan (hwf : tree.WellFormed) (batch : Batch) (parent : Tag) :
    ¬ Spent (batch.plan tree parent) := by
  unfold Batch.plan
  refine not_spent_bind (not_spent_node parent) fun above _ => ?_
  refine not_spent_bind ?_ fun moves _ => ?_
  · cases MovePlan.ofArrays batch.moveFrom batch.moveTo with
    | error violation => exact not_spent_error (by simp)
    | ok moves => exact not_spent_ok moves
  refine not_spent_bind (not_spent_checkPositions _ _ _) fun _ _ => ?_
  split
  · exact not_spent_error (by simp)
  refine not_spent_bind (not_spent_checkPositions _ _ _) fun _ _ => ?_
  refine not_spent_bind (hwf.not_spent_checkNewChildren _ _ _) fun _ _ => ?_
  exact not_spent_ok _

theorem ends_update (tag : Tag) (change : Node κ → Node κ) :
    Ends (TreeM.update tag change) tree := by
  cases hget : tree.get? tag with
  | none => exact .of_error (update_of_missing hget) (by simp)
  | some node => exact .of_ok (update_of_get? hget)

theorem WellFormed.ends_attach (hwf : tree.WellFormed) (parent child : Tag) (index : Nat) :
    Ends (attach parent child index) tree := by
  unfold attach
  refine Ends.read_bind rfl (not_spent_node parent) fun above _ => ?_
  by_cases hindex : above.children.length < index
  · rw [if_pos hindex]
    exact .of_error rfl (by simp)
  · rw [if_neg hindex]
    refine Ends.read_bind rfl (hwf.not_spent_checkAttachable parent child) fun _ _ => ?_
    exact (ends_update _ _).bind fun _ _ _ => ends_update _ _

theorem ends_detachAt (parent : Tag) (index : Nat) : Ends (detachAt parent index) tree := by
  unfold detachAt
  refine Ends.read_bind rfl (not_spent_node parent) fun above _ => ?_
  split
  · exact .of_error rfl (by simp)
  · exact (ends_update _ _).bind fun _ _ _ => (ends_update _ _).bind fun _ _ _ => .of_ok rfl

theorem WellFormed.ends_removeSubtree (hwf : tree.WellFormed) (tag : Tag) :
    Ends (removeSubtree tag) tree := by
  cases hget : tree.get? tag with
  | none => exact .of_error (removeSubtree_of_missing hget) (by simp)
  | some node =>
    have ht := contains_of_get? hget
    exact .of_ok (removeSubtree_of_contains hwf ht (postOrder_eq_subtree hwf ht))

end Tree

namespace Children

open MountM

variable {κ : Type} {scene : Scene κ}

theorem ends_applyBatch (hsound : scene.tree.Sound) (parent : Tag) (batch : Batch) :
    Ends (applyBatch parent batch) scene := by
  obtain ⟨tree, mount, log⟩ := scene
  have hwf := hsound.wellFormed
  -- a batch with a plan is carried out to its end, and one without fails as its checks did
  cases hplan : batch.plan tree parent with
  | ok plan =>
    have hvalid := (batch.plan_eq_ok_iff hwf).mp hplan
    obtain ⟨after, log', hok, -⟩ :=
      applyBatch_of_valid mount log hwf hsound.flags hsound.consistent hvalid.1
    exact .of_ok hok
  | error err =>
    have hcheck : tree.checkConsistent = .ok () := by
      rw [Tree.checkConsistent, hsound.consistent]
      rfl
    obtain ⟨log', herr⟩ :=
      @applyBatch_of_planless _ parent batch ⟨tree, mount, log⟩ err hcheck hplan
    refine .of_error herr ?_
    -- the checks ask for the lineage of the parent, which does not run out of steps
    rintro tag rfl
    exact hwf.not_spent_plan batch parent ⟨tag, hplan⟩

/-- Attaching children one after the other does not run out of steps: each attachment keeps the
shape of the tree for the next. -/
theorem ends_attachFrom (parent : Tag) : ∀ (children : List Tag) (index : Nat) {scene : Scene κ},
    scene.tree.WellFormed → Ends (attachFrom parent index children) scene
  | [], _, _, _ => .of_ok rfl
  | child :: rest, index, scene, hwf => by
    rw [attachFrom]
    refine (hwf.ends_attach parent child index).onTree.bind fun _ done hok => ?_
    refine ends_attachFrom parent rest (index + 1) ?_
    -- what was attached leaves a well-formed tree for the rest
    rcases Tree.attach_cases hwf parent child index with
      ⟨err, herr⟩ | ⟨above, node, habove, hnode, hindex, hattachable, hlinked⟩
    · rw [onTree_of_error herr] at hok
      cases hok
    · rw [onTree_of_ok hlinked] at hok
      cases hok
      exact hwf.linked habove hnode hindex hattachable

/-- Neither does putting children in front. -/
theorem ends_prepend (hwf : scene.tree.WellFormed) (parent : Tag) (children : List Tag) :
    Ends (prepend parent children) scene := by
  have hconsistent : ¬ Spent scene.tree.checkConsistent := by
    rw [Tree.checkConsistent]
    split
    · exact not_spent_error (by simp)
    · exact not_spent_ok ()
  unfold prepend
  refine Ends.read_bind rfl hconsistent fun _ _ => ?_
  refine Ends.read_bind rfl (Tree.not_spent_node parent) fun _ _ => ?_
  refine Ends.read_bind rfl (hwf.not_spent_checkNewChildren parent [] children) fun _ _ => ?_
  exact (ends_attachFrom parent children 0 hwf).onFailure fun failed => ⟨_, rfl⟩

end Children

namespace Mount

open MountM

variable {κ : Type} {scene : Scene κ}

/-- Tracking a root only reads its node. -/
theorem ends_trackRoot (tag : Tag) : Ends (trackRoot tag) scene := by
  unfold trackRoot
  rw [Ends, get_bind]
  split
  · exact Ends.read_bind rfl (Tree.not_spent_node tag) fun _ _ => .of_ok rfl
  · exact not_ranOut_error (by simp) scene

/-- Sending properties only reads a node. -/
theorem ends_sendProps (tag : Tag) (delta : Props) : Ends (sendProps tag delta) scene := by
  cases hget : scene.tree.get? tag with
  | none => exact .of_error (sendProps_of_missing delta hget) (by simp)
  | some found =>
    cases hmounts : found.mounts with
    | false => exact .of_error (sendProps_of_unmounting delta hget hmounts) (by simp)
    | true =>
      cases hcreated : found.created with
      | false => exact .of_ok (sendProps_of_uncreated delta hget hmounts hcreated)
      | true =>
        obtain ⟨_, hok⟩ := sendProps_of_created delta hget hmounts hcreated
        exact .of_ok hok

/-- Destroying a subtree asks for its post-order once, and then looks at single nodes. -/
theorem ends_destroySubtree (hwf : scene.tree.WellFormed) (tag : Tag) :
    Ends (destroySubtree tag) scene := by
  obtain ⟨tree, mount, log⟩ := scene
  cases hget : tree.get? tag with
  | none => exact .of_error (destroySubtree_of_missing hget) (by simp)
  | some node =>
    obtain ⟨members, log', -, hok⟩ :=
      destroySubtree_ok mount log hwf (Tree.contains_of_get? hget)
    exact .of_ok hok

/-- Destroying a root is destroying its subtree. -/
theorem ends_destroyRoot (hwf : scene.tree.WellFormed) (root : Tag) :
    Ends (destroyRoot root) scene := by
  cases hroot : scene.tree.isRoot root with
  | true => exact (ends_destroySubtree hwf root).congr (destroyRoot_of_root hroot)
  | false => exact .of_error (destroyRoot_of_other hroot) (by simp)

variable [Coordinate κ]

/-- Refreshing a subtree does not run out of steps, also where it has to escalate first. -/
theorem ends_refreshSubtree (hwf : scene.tree.WellFormed) (hflags : scene.tree.FlagsSound)
    (tag : Tag) : Ends (refreshSubtree tag) scene := by
  by_cases hroot : tag ∈ scene.tree.roots
  · obtain ⟨done, hok, -⟩ := refreshSubtree_root hwf hflags hroot
    exact .of_ok hok
  by_cases hparent : ∃ p, scene.tree.NativeParent tag p
  · obtain ⟨p, hp⟩ := hparent
    cases hview : scene.tree.createdAt p with
    | true =>
      obtain ⟨done, hok, -⟩ := refreshSubtree_of_view hwf hp hview
      exact .of_ok hok
    | false =>
      -- the parent has no view yet: it escalates first, and the links stay for what follows
      refine Ends.congr (refreshSubtree_of_uncreated hwf hp hview) ?_
      refine (ends_escalate hwf hflags p).discard.bind fun _ done hok => ?_
      rcases escalate_mounting hwf hflags hp.2 with ⟨err, herr⟩ | ⟨mid, hmid, hrun, hup⟩
      · rw [discard_of_error herr] at hok
        cases hok
      · rw [discard_of_ok hmid] at hok
        cases hok
        have hgrown := Run.grown hrun
        obtain ⟨done, hbelow, -⟩ := reconcileBelow_ok (hgrown.sameLinks.wellFormed hwf)
          (hgrown.nativeParent hp) hup.view
        exact .of_ok hbelow
  -- neither a root nor below a mounting node: it fails for that reason
  · obtain ⟨err, herr, hcases⟩ := refreshSubtree_of_loose hwf hroot fun p hp => hparent ⟨p, hp⟩
    refine .of_error herr fun x => ?_
    rcases hcases with rfl | rfl <;> simp

/-- Computing a relative frame asks for walks up, and may escalate. -/
theorem ends_relativeFrame (hwf : scene.tree.WellFormed) (hflags : scene.tree.FlagsSound)
    (tag : Tag) : Ends (relativeFrame tag) scene := by
  have hposition := ((hwf.climbs_end tag).position.mono
    (Nat.le_succ_of_le (Tree.depth_le_size hwf tag))).not_spent
  unfold relativeFrame
  refine Ends.read_bind rfl (Tree.not_spent_node tag) fun target htarget => ?_
  -- the bound is for the lookup and the walk from the parent together
  replace htarget : scene.tree.node tag = .ok target := htarget
  rw [htarget, ok_bind] at hposition
  refine Ends.read_bind rfl hposition fun found _ => ?_
  refine (ends_escalate hwf hflags found.1).bind fun _ _ _ => ?_
  exact Ends.read_bind rfl (Tree.not_spent_node found.1) fun _ _ => .of_ok rfl

/-- A touch asks for walks up, and may escalate twice. -/
theorem ends_touchView (hwf : scene.tree.WellFormed) (hflags : scene.tree.FlagsSound)
    (tag : Tag) : Ends (touchView tag) scene := by
  have hclimbs := hwf.climbs_end tag
  have hbound : ∀ x, scene.tree.depth x + 1 ≤ scene.tree.budget :=
    fun x => Nat.succ_le_succ (Tree.depth_le_size hwf x)
  have htarget : ¬ Spent (scene.tree.touchTarget tag) := by
    refine not_spent_bind (hclimbs.visible.mono (hbound tag)).not_spent fun visible hvisible => ?_
    exact ((hclimbs.mounting hvisible).2.2.mono (hbound visible)).not_spent
  unfold touchView
  refine Ends.read_bind rfl htarget fun target _ => ?_
  exact (ends_escalate hwf hflags target).bind fun _ _ _ => .of_ok rfl

end Mount

/-- No call runs out of steps on a sound tree. -/
theorem CoreCall.ends {κ : Type} [Coordinate κ] {scene : Scene κ} (call : CoreCall κ)
    (hsound : scene.tree.Sound) : Ends call.run scene := by
  have hwf := hsound.wellFormed
  have hflags := hsound.flags
  -- by the kind of the call: edits of the tree, child edits, and what works on views
  cases call with
  | register node fresh =>
    refine Ends.onTree ?_
    cases hfree : scene.tree.contains node.tag with
    | true => exact .of_error (Tree.register_of_taken hfree) (by simp)
    | false => exact .of_ok (Tree.register_of_free hfree)
  | registerRoot tag viewClass width height =>
    refine Ends.onTree ?_
    cases hfree : scene.tree.contains tag with
    | true => exact .of_error (Tree.registerRoot_of_taken hfree) (by simp)
    | false => exact .of_ok (Tree.registerRoot_of_free hfree)
  | setFrame tag frame => exact (Tree.ends_update tag _).onTree
  | mergeProps tag delta => exact (Tree.ends_update tag _).onTree
  | promote tag =>
    refine Ends.discard (Ends.onTree ?_)
    cases hget : scene.tree.get? tag with
    | none => exact .of_error (Tree.promote_of_missing hget) (by simp)
    | some node => exact .of_ok (Tree.promote_of_get? hget)
  | attach parent child index => exact (hwf.ends_attach parent child index).onTree
  | detachAt parent index => exact (Tree.ends_detachAt parent index).onTree.discard
  | removeSubtree tag => exact (hwf.ends_removeSubtree tag).onTree.discard
  | applyBatch parent batch => exact Children.ends_applyBatch hsound parent batch
  | prepend parent children => exact Children.ends_prepend hwf parent children
  | trackRoot root => exact Mount.ends_trackRoot root
  | escalate tag => exact (Mount.ends_escalate hwf hflags tag).discard
  | refreshSubtree tag => exact Mount.ends_refreshSubtree hwf hflags tag
  | refreshRoots =>
    obtain ⟨done, hok, -⟩ := Mount.refreshRoots_ok hwf hflags
    exact .of_ok hok
  | sendProps tag delta => exact (Mount.ends_sendProps tag delta).discard
  | destroySubtree tag => exact (Mount.ends_destroySubtree hwf tag).discard
  | destroyRoot root => exact (Mount.ends_destroyRoot hwf root).discard
  | relativeFrame tag => exact (Mount.ends_relativeFrame hwf hflags tag).discard
  | touchView tag => exact (Mount.ends_touchView hwf hflags tag).discard

/-! ## Reachable trees

All bounds in one place, for the walks as recursions, as loops over a stack and inside of calls. -/

/-- On a reachable tree every walk ends, from every tag. The walks up take no more steps than the
node is deep, which is no more than there are nodes. The loops over a stack push no node of the
subtree twice, the post-order none three times. The recursions over a subtree visit no node twice,
and an escalation calls itself no more often than the node is deep. So no call runs out of steps. -/
theorem Tree.Reachable.walks_end {κ : Type} [Coordinate κ] {tree : Tree κ} (h : tree.Reachable) :
    (∀ tag, tree.ClimbsEnd tag ∧ tree.SweepsEnd tag ∧ Mount.RecursionsEnd tree tag) ∧
    ∀ (call : CoreCall κ) (mount : MountState κ) (log : List Log.Line),
      ¬ RanOut (call.run ⟨tree, mount, log⟩) := by
  have hsound := h.sound
  refine ⟨fun tag => ⟨?_, ?_, ?_⟩, fun call mount log => ?_⟩
  · exact hsound.wellFormed.climbs_end tag
  · exact hsound.wellFormed.sweeps_end tag
  · exact hsound.recursions_end tag
  · exact @CoreCall.ends _ _ ⟨tree, mount, log⟩ call hsound

/-- Node 5 has three ancestors. The loop that finds the views below the root pushes each of its five
descendants once. -/
theorem Tree.Reachable.walks_end_flattened :
    Sample.flattened.tree.lineageFrom 4 5 = .ok [5, 4, 2, 1] ∧
    EndsWithin Spent (Sample.flattened.tree.lineageFrom · 5) 4 ∧
    Sample.flattened.tree.mountedSweep 6 1 = .ok ([3, 5], [2, 6, 3, 4, 5]) ∧
    (∀ x ∈ [2, 6, 3, 4, 5], Sample.flattened.tree.Ancestor 1 x) ∧
    EndsWithin RanOut (Mount.escalateWithin · 5 Sample.flattened) 4 ∧
    ¬ RanOut (CoreCall.run (.destroySubtree 2) Sample.flattened) := by
  obtain ⟨hwalks, hcalls⟩ := Tree.Reachable.walks_end Sample.flattened_reachable
  obtain ⟨hclimbs, -, hrecursions⟩ := hwalks 5
  obtain ⟨-, hsweeps, -⟩ := hwalks 1
  have hdepth : Sample.flattened.tree.depth 5 + 1 = 4 := by decide +kernel
  have hsize : Sample.flattened.tree.size = 6 := by decide +kernel
  have hlineage := hclimbs.lineage
  have hescalate := hrecursions.escalate Sample.flattened.mount Sample.flattened.log
  rw [hdepth] at hlineage hescalate
  have hsweep : Sample.flattened.tree.mountedSweep 6 1 = .ok ([3, 5], [2, 6, 3, 4, 5]) := by
    decide +kernel
  obtain ⟨-, hbelow⟩ := hsweeps.mounted_once (hsize ▸ hsweep)
  exact ⟨by decide +kernel, hlineage, hsweep, hbelow, hescalate,
    hcalls _ Sample.flattened.mount Sample.flattened.log⟩

end ShadowMount
