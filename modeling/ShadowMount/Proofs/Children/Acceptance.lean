import ShadowMount.Proofs.Core.Reachable

/-!
# Acceptance of batches

The two laws of child edits on reachable trees. Which batches are accepted depends on the batch and
the tree alone, never on the mount state, and acceptance is decided before anything is touched.

* **`applyBatch_refines_onList`** — an accepted batch does to the child list of the parent what
  `Batch.onList` says, and `onList` has an answer.
* **`applyBatch_ok_iff_valid`** — a batch is accepted exactly when it is valid and is otherwise
  rejected without a change; no reachable tree is poisoned.
-/

namespace ShadowMount

open MountM

/-- Calls one after the other, each with a mount state of its own, lead to a reachable tree. -/
theorem Tree.Reachable.calls {κ : Type} [Coordinate κ] (mount : MountState κ)
    (log : List Log.Line) : ∀ (calls : List (CoreCall κ)) {tree : Tree κ}, tree.Reachable →
      (calls.foldl (fun tree call => (leaves call.run ⟨tree, mount, log⟩).tree) tree).Reachable
  | [], _, h => h
  | first :: rest, _, h => Tree.Reachable.calls mount log rest (.call h first mount log)

/-- The scene that calls leave, one after the other. -/
def Scene.afterCalls {κ : Type} [Coordinate κ] (scene : Scene κ) (calls : List (CoreCall κ)) :
    Scene κ :=
  calls.foldl (fun scene call => leaves call.run scene) scene

/-- Calls that share a mount state lead to a reachable tree, too. -/
theorem Tree.Reachable.afterCalls {κ : Type} [Coordinate κ] : ∀ (calls : List (CoreCall κ))
    {scene : Scene κ}, scene.tree.Reachable → (scene.afterCalls calls).tree.Reachable
  | [], _, h => h
  | first :: rest, scene, h =>
    @Tree.Reachable.afterCalls _ _ rest (leaves first.run scene)
      (.call h first scene.mount scene.log)

namespace Sample

/-- A detached plain node. -/
def plain (tag : Tag) : CoreCall Float32 :=
  .register (.fresh tag 1 "View" .layoutOnly) ⟨rfl, rfl, nofun, nofun, nofun⟩

/-- A root with the children 2, 3 and 4, and the detached node 5. -/
def family : Tree Float32 :=
  [.registerRoot 1 "Root" 0 0, plain 2, plain 3, plain 4, plain 5, .prepend 1 [2, 3, 4]].foldl
    (fun tree call => (leaves call.run ⟨tree, {}, []⟩).tree) .empty

theorem family_reachable : family.Reachable := Tree.Reachable.calls {} [] _ .empty

/-- Moves the last child to the front, puts node 5 behind it, and removes the middle child. -/
def reshuffle : Batch :=
  { moveFrom := [2], moveTo := [0], addTags := [5], addAt := [1], removeFrom := [1] }

end Sample

namespace Children

variable {κ : Type} [Coordinate κ] {tree : Tree κ} {parent : Tag} {batch : Batch}

omit [Coordinate κ] in
/-- What an accepted batch has done. -/
theorem applyBatch_eq_ok {mount : MountState κ} {log : List Log.Line} {done : Scene κ}
    (hsound : tree.Sound) (hok : applyBatch parent batch ⟨tree, mount, log⟩ = .ok () done) :
    batch.Valid tree parent ∧
      tree.Rearranged parent (batch.rearranged (tree.childrenOf parent)) batch.addTags
        (Batch.childrenAt (tree.childrenOf parent) batch.removeFrom) done.tree := by
  -- a valid batch ends in the tree described, and there is no other way to end without an error
  by_cases hvalid : batch.Valid tree parent
  · obtain ⟨after, log', hdone, -, -, hrearranged⟩ := applyBatch_of_valid mount log
      hsound.wellFormed hsound.flags hsound.consistent hvalid
    rw [hdone] at hok
    cases hok
    exact ⟨hvalid, hrearranged⟩
  · obtain ⟨err, log', herr⟩ := applyBatch_of_invalid mount log hsound.wellFormed
      hsound.consistent hvalid
    rw [herr] at hok
    cases hok

/-- The batch of the example is accepted. -/
theorem reshuffle_accepted :
    ∃ done, applyBatch 1 Sample.reshuffle ⟨Sample.family, {}, []⟩ = .ok () done := by
  have hok : (match applyBatch 1 Sample.reshuffle ⟨Sample.family, {}, []⟩ with
      | .ok .. => true
      | .error .. => false) = true := by decide +kernel
  cases hrun : applyBatch 1 Sample.reshuffle ⟨Sample.family, {}, []⟩ with
  | ok answer done => exact ⟨done, rfl⟩
  | error err failed =>
    rw [hrun] at hok
    cases hok

/-- An accepted batch refines its meaning for lists: `onList` answers on the old child list, and
its answer is the new one. -/
theorem applyBatch_refines_onList (h : tree.Reachable) {mount : MountState κ}
    {log : List Log.Line} {done : Scene κ}
    (hok : applyBatch parent batch ⟨tree, mount, log⟩ = .ok () done) :
    ∃ before after, tree.children parent = .ok before ∧ batch.onList before = some after ∧
      done.tree.children parent = .ok after := by
  obtain ⟨hvalid, hrearranged⟩ := applyBatch_eq_ok h.sound hok
  -- the tree is known, so the child list before and after can be read off
  refine ⟨tree.childrenOf parent, batch.rearranged (tree.childrenOf parent),
    Tree.children_eq hvalid.parent_contained, hvalid.onList_eq, ?_⟩
  obtain ⟨above, -, hafter, -⟩ := hrearranged.at_parent
  rw [Tree.children_eq (Tree.contains_of_get? hafter), Tree.childrenOf_of_get? hafter]

theorem applyBatch_refines_onList_reshuffle :
    ∃ done, applyBatch 1 Sample.reshuffle ⟨Sample.family, {}, []⟩ = .ok () done ∧
      ∃ before after, Sample.family.children 1 = .ok before ∧
        Sample.reshuffle.onList before = some after ∧ done.tree.children 1 = .ok after := by
  obtain ⟨done, hok⟩ := reshuffle_accepted
  exact ⟨done, hok, applyBatch_refines_onList Sample.family_reachable hok⟩

/-- A batch is accepted exactly when it is valid. Any other batch is rejected, and the tree and the
mount state stay as they are. No reachable tree is poisoned. -/
theorem applyBatch_ok_iff_valid (h : tree.Reachable) (mount : MountState κ) (log : List Log.Line)
    (parent : Tag) (batch : Batch) :
    ((∃ done, applyBatch parent batch ⟨tree, mount, log⟩ = .ok () done) ↔
      batch.Valid tree parent) ∧
    (¬ batch.Valid tree parent →
      ∃ err log', applyBatch parent batch ⟨tree, mount, log⟩ = .error err ⟨tree, mount, log'⟩) ∧
    tree.poisoned = false := by
  have hsound := h.sound
  -- accepted, hence valid; valid, hence accepted; otherwise rejected
  refine ⟨⟨?_, fun hvalid => ?_⟩, fun hvalid => ?_, hsound.consistent⟩
  · rintro ⟨done, hok⟩
    exact (applyBatch_eq_ok hsound hok).1
  · obtain ⟨after, log', hdone, -⟩ := applyBatch_of_valid mount log hsound.wellFormed
      hsound.flags hsound.consistent hvalid
    exact ⟨_, hdone⟩
  · exact applyBatch_of_invalid mount log hsound.wellFormed hsound.consistent hvalid

theorem applyBatch_ok_iff_valid_reshuffle :
    Sample.family.Reachable ∧ Sample.reshuffle.Valid Sample.family 1 :=
  ⟨Sample.family_reachable,
    (applyBatch_ok_iff_valid Sample.family_reachable {} [] 1 Sample.reshuffle).1.mp
      reshuffle_accepted⟩

end Children

end ShadowMount
