import Mathlib.Data.List.Nodup
import Mathlib.Data.List.Zip
import ShadowMount.Children.Edit
import ShadowMount.Proofs.Tree.Relink

/-!
# Checked batches and their schedules

A batch passes its checks exactly when it is `Valid`, and the plan it becomes is then one explicit
`editPlan`. The two schedules of that plan are merges; what is needed of a merge is that it
permutes its two streams and that its positions go one way.

* **`plan_eq_ok_iff`** — the checks accept exactly the valid batches.
* **`detachSchedule_spec`**, **`attachSchedule_spec`** — what the schedules of a valid batch hold.
* **`Fits`** — positions at which a growing list can be filled; ascending positions below the
  final length do (`fits_of_ascending`).
* **`onList_eq`** — the meaning of a valid batch for a list, without any failure in it.
-/

namespace ShadowMount

/-! ## Sorting -/

section Sorting

variable {α : Type} {key : α → Nat} {xs ys : List α}

/-- Where no two elements share a key, sorting leaves no ties. -/
theorem ascending_sortOn (hnodup : (xs.map key).Nodup) :
    (sortOn key xs).Pairwise fun a b => key a < key b := by
  have hkeys : ((sortOn key xs).map key).Nodup := ((sortOn_perm key xs).map key).nodup_iff.mpr hnodup
  have hne : (sortOn key xs).Pairwise fun a b => key a ≠ key b := List.pairwise_map.mp hkeys
  exact ((pairwise_sortOn key xs).and hne).imp fun h => Nat.lt_of_le_of_ne h.1 h.2

/-- A permutation with ascending keys is the sorted list. -/
theorem eq_sortOn (hperm : xs.Perm ys) (hasc : xs.Pairwise fun a b => key a < key b) :
    xs = sortOn key ys := by
  have hkeys : (xs.map key).Nodup := List.pairwise_map.mpr (hasc.imp Nat.ne_of_lt)
  have hsorted := hperm.trans (sortOn_perm key ys).symm
  refine List.Perm.eq_of_pairwise ?_ (hasc.imp Nat.le_of_lt) (pairwise_sortOn key ys) hsorted
  -- two elements of the list with one key are one element, so no order of ties is left to choose
  intro a b ha hb hab hba
  exact List.inj_on_of_nodup_map hkeys ha (hsorted.mem_iff.mpr hb) (Nat.le_antisymm hab hba)

/-- Sorting neither adds nor loses. -/
theorem length_sortOn : (sortOn key xs).length = xs.length := (sortOn_perm key xs).length_eq

end Sorting

/-! ## Checks

Each check walks along its list with what it has seen so far, and stops at the first mistake. It
accepts exactly if the list has the property that it is for, which is said here without the walk. -/

/-- One step of a check that no element of a list repeats or was seen before. -/
theorem fresh_cons_iff {α : Type} {P : α → Prop} {a : α} {seen rest : List α} (ha : P a)
    (hnot : a ∉ seen) :
    ((∀ b ∈ rest, P b) ∧ rest.Nodup ∧ ∀ b ∈ rest, b ∉ a :: seen) ↔
      (∀ b ∈ a :: rest, P b) ∧ (a :: rest).Nodup ∧ ∀ b ∈ a :: rest, b ∉ seen := by
  simp only [List.mem_cons, List.nodup_cons, not_or, forall_eq_or_imp]
  constructor
  · rintro ⟨hall, hnodup, hfresh⟩
    exact ⟨⟨ha, hall⟩, ⟨fun h => (hfresh a h).1 rfl, hnodup⟩, hnot, fun b hb => (hfresh b hb).2⟩
  · rintro ⟨⟨-, hall⟩, ⟨hhead, hnodup⟩, -, hfresh⟩
    exact ⟨hall, hnodup, fun b hb => ⟨fun heq => hhead (heq ▸ hb), hfresh b hb⟩⟩

/-- The check on positions. The positions seen so far are those before this one in the same array or
in the arrays checked before. -/
theorem checkPositions_eq_ok_iff {length : Nat} : ∀ {seen positions : List Nat},
    checkPositions length seen positions = .ok () ↔
      (∀ i ∈ positions, i < length) ∧ positions.Nodup ∧ ∀ i ∈ positions, i ∉ seen
  | seen, [] => by simp [checkPositions]; rfl
  | seen, index :: rest => by
    rw [checkPositions]
    by_cases hrange : length ≤ index
    -- out of range
    · rw [if_pos hrange]
      refine ⟨nofun, fun ⟨h, _⟩ => ?_⟩
      have := h index (List.mem_cons_self ..)
      omega
    · rw [if_neg hrange]
      -- named before
      by_cases hseen : seen.contains index = true
      · rw [if_pos hseen]
        refine ⟨nofun, fun ⟨_, _, h⟩ => ?_⟩
        exact absurd (List.contains_iff_mem.mp hseen) (h index (List.mem_cons_self ..))
      · rw [if_neg hseen, checkPositions_eq_ok_iff]
        have hnot : index ∉ seen := fun h => hseen (List.contains_iff_mem.mpr h)
        exact fresh_cons_iff (by omega) hnot

/-- The check on new children, one by one as they come. -/
theorem Tree.checkNewChildren_eq_ok_iff {κ : Type} {tree : Tree κ} (hwf : tree.WellFormed)
    {parent : Tag} (hparent : tree.contains parent = true) : ∀ {seen children : List Tag},
    tree.checkNewChildren parent seen children = .ok () ↔
      (∀ c ∈ children, tree.Attachable parent c) ∧ children.Nodup ∧ ∀ c ∈ children, c ∉ seen
  | seen, [] => by simp [checkNewChildren]; rfl
  | seen, child :: rest => by
    rw [checkNewChildren]
    cases hcheck : tree.checkAttachable parent child with
    -- the child may not be attached, whatever comes after it
    | error err =>
      refine ⟨nofun, fun ⟨h, _⟩ => ?_⟩
      have hok := (checkAttachable_eq_ok_iff hwf hparent).mpr (h child (List.mem_cons_self ..))
      rw [hcheck] at hok
      cases hok
    | ok _ =>
      have hattachable := (checkAttachable_eq_ok_iff hwf hparent).mp hcheck
      rw [ok_bind]
      -- the child may be attached, but is named twice
      by_cases hseen : seen.contains child = true
      · rw [if_pos hseen]
        refine ⟨nofun, fun ⟨_, _, h⟩ => ?_⟩
        exact absurd (List.contains_iff_mem.mp hseen) (h child (List.mem_cons_self ..))
      · rw [if_neg hseen, checkNewChildren_eq_ok_iff hwf hparent]
        have hnot : child ∉ seen := fun h => hseen (List.contains_iff_mem.mpr h)
        exact fresh_cons_iff hattachable hnot

/-- A sorted list repeats an element exactly if two neighbours are equal. -/
theorem MovePlan.firstRepeat?_eq_none_iff : ∀ {xs : List Nat}, xs.Pairwise (· ≤ ·) →
    (firstRepeat? xs = none ↔ xs.Nodup)
  | [], _ => by simp [firstRepeat?]
  | [a], _ => by simp [firstRepeat?]
  | a :: b :: rest, h => by
    obtain ⟨ha, hrest⟩ := List.pairwise_cons.mp h
    obtain ⟨hb, -⟩ := List.pairwise_cons.mp hrest
    rw [firstRepeat?]
    by_cases hab : a = b
    · rw [if_pos hab]
      simp [hab]
    · rw [if_neg hab, firstRepeat?_eq_none_iff hrest, List.nodup_cons (l := b :: rest)]
      refine (and_iff_right fun hmem => ?_).symm
      -- `a` is below `b`, hence below everything after it
      have hlt := ha b (List.mem_cons_self ..)
      rcases List.mem_cons.mp hmem with heq | hmem
      · exact hab heq
      · have := hb a hmem
        omega

/-! ## Valid batches

What the checks accept, in terms of the batch and the tree; and what the plan of an accepted batch
is, as a sorted permutation of what the batch says. -/

namespace Batch

/-- A batch that makes sense for the children of `parent`: parallel arrays have one length, no
position is named twice or lies outside the list it refers to, and the new children are distinct
nodes that may be attached. -/
structure Valid {κ : Type} (batch : Batch) (tree : Tree κ) (parent : Tag) : Prop where
  parent_contained : tree.contains parent = true
  moves_match : batch.moveFrom.length = batch.moveTo.length
  adds_match : batch.addTags.length = batch.addAt.length
  sources_nodup : (batch.moveFrom ++ batch.removeFrom).Nodup
  sources_lt : ∀ i ∈ batch.moveFrom ++ batch.removeFrom, i < (tree.childrenOf parent).length
  targets_nodup : (batch.moveTo ++ batch.addAt).Nodup
  targets_lt : ∀ i ∈ batch.moveTo ++ batch.addAt,
    i < (tree.childrenOf parent).length - batch.removeFrom.length + batch.addAt.length
  added_nodup : batch.addTags.Nodup
  attachable : ∀ c ∈ batch.addTags, tree.Attachable parent c

/-- The moves as pairs of source and target, by source. -/
def moves (batch : Batch) : List (Nat × Nat) :=
  sortOn Prod.fst (batch.moveFrom.zip batch.moveTo)

/-- The moves, each with its place among the sources, by target. -/
def movesByTarget (batch : Batch) : List ((Nat × Nat) × Nat) :=
  sortOn (fun (move, _) => move.2) batch.moves.zipIdx

/-- The move plan of a batch that passes its checks. -/
def movePlan (batch : Batch) : MovePlan where
  sources := batch.moves.map Prod.fst
  ranks := (List.range batch.moves.length).map (batch.movesByTarget.map Prod.snd).idxOf
  targets := batch.movesByTarget.map fun (move, _) => move.2
  parked := List.replicate batch.moves.length none

/-- The plan of a batch that passes its checks. -/
def editPlan (batch : Batch) : EditPlan where
  moves := batch.movePlan
  removals := sortOn id batch.removeFrom
  additions := sortOn Prod.fst (batch.addAt.zip batch.addTags)

variable {batch : Batch}

/-- The moves are those of the two arrays. -/
theorem moves_perm : batch.moves.Perm (batch.moveFrom.zip batch.moveTo) := sortOn_perm ..

/-- The sources of the moves are the given ones. -/
theorem sources_perm (hlen : batch.moveFrom.length = batch.moveTo.length) :
    (batch.moves.map Prod.fst).Perm batch.moveFrom := by
  have hperm := batch.moves_perm.map Prod.fst
  rwa [List.map_fst_zip (Nat.le_of_eq hlen)] at hperm

/-- By target, the moves are those of the arrays. -/
theorem movesByTarget_perm : (batch.movesByTarget.map Prod.fst).Perm
    (batch.moveFrom.zip batch.moveTo) := by
  have hperm := (sortOn_perm (fun (move, _) => move.2) batch.moves.zipIdx).map Prod.fst
  rw [List.zipIdx_map_fst] at hperm
  exact hperm.trans batch.moves_perm

/-- The targets of the moves are the given ones. -/
theorem targets_perm (hlen : batch.moveFrom.length = batch.moveTo.length) :
    batch.movePlan.targets.Perm batch.moveTo := by
  have hperm := batch.movesByTarget_perm.map Prod.snd
  rw [List.map_snd_zip (Nat.le_of_eq hlen.symm), List.map_map] at hperm
  exact hperm

/-- With arrays of one length, a repeated target is all that can go wrong with the moves. -/
theorem ofArrays_of_length (hlen : batch.moveFrom.length = batch.moveTo.length) :
    MovePlan.ofArrays batch.moveFrom batch.moveTo =
      match MovePlan.firstRepeat? batch.movePlan.targets with
      | some index => .error (.indexCollision index)
      | none => .ok batch.movePlan := by
  unfold MovePlan.ofArrays
  rw [if_neg (by omega)]
  rfl

/-- The moves are accepted exactly if the arrays have one length and no target repeats, and they
make one plan. -/
theorem ofArrays_eq_ok_iff {plan : MovePlan} :
    MovePlan.ofArrays batch.moveFrom batch.moveTo = .ok plan ↔
      batch.moveFrom.length = batch.moveTo.length ∧ batch.moveTo.Nodup ∧ plan = batch.movePlan := by
  by_cases hlen : batch.moveFrom.length = batch.moveTo.length
  · have hsorted : batch.movePlan.targets.Pairwise (· ≤ ·) :=
      List.pairwise_map.mpr (pairwise_sortOn (·.1.2) batch.moves.zipIdx)
    -- sorted targets repeat exactly if the given ones do
    have hrepeat := MovePlan.firstRepeat?_eq_none_iff hsorted
    rw [(batch.targets_perm hlen).nodup_iff] at hrepeat
    rw [ofArrays_of_length hlen]
    cases hfirst : MovePlan.firstRepeat? batch.movePlan.targets with
    | none =>
      refine ⟨fun h => ⟨hlen, hrepeat.mp hfirst, (Except.ok.inj h).symm⟩, ?_⟩
      rintro ⟨-, -, rfl⟩
      rfl
    | some index =>
      refine ⟨(by intro herr; cases herr), fun h => ?_⟩
      rw [hrepeat.mpr h.2.1] at hfirst
      cases hfirst
  -- arrays of different lengths
  · unfold MovePlan.ofArrays
    rw [if_pos hlen]
    exact ⟨(by intro herr; cases herr), fun h => absurd h.1 hlen⟩

/-- The new children are those of the array. -/
theorem additions_tags_perm (hlen : batch.addTags.length = batch.addAt.length) :
    (batch.editPlan.additions.map Prod.snd).Perm batch.addTags := by
  have hperm := (sortOn_perm Prod.fst (batch.addAt.zip batch.addTags)).map Prod.snd
  rwa [List.map_snd_zip (Nat.le_of_eq hlen)] at hperm

/-- There are as many additions as positions for them. -/
theorem length_additions (hlen : batch.addTags.length = batch.addAt.length) :
    batch.editPlan.additions.length = batch.addAt.length := by
  show (sortOn Prod.fst (batch.addAt.zip batch.addTags)).length = _
  rw [length_sortOn, List.length_zip]
  omega

/-- The removals are those of the array. -/
theorem removals_perm : batch.editPlan.removals.Perm batch.removeFrom := sortOn_perm id _

section Checks

variable {κ : Type} {tree : Tree κ} {parent : Tag}

/-- The positions that are checked are those the batch names. -/
theorem emptied_perm : (batch.moveFrom ++ batch.editPlan.removals).Perm
    (batch.moveFrom ++ batch.removeFrom) :=
  batch.removals_perm.append_left _

/-- A batch that passes the checks is valid, and the plan is the one it describes. -/
theorem valid_of_plan (hwf : tree.WellFormed) {plan : EditPlan}
    (h : batch.plan tree parent = .ok plan) :
    batch.Valid tree parent ∧ plan = batch.editPlan := by
  unfold Batch.plan at h
  -- each check is passed, as the plan comes after all of them
  obtain ⟨node, hnode, h⟩ := query_bind_eq_ok_iff.mp h
  obtain ⟨moves, hmoves, h⟩ := query_bind_eq_ok_iff.mp h
  obtain ⟨_, hfrom, h⟩ := query_bind_eq_ok_iff.mp h
  have hget : tree.get? parent = some node := by
    cases hget : tree.get? parent with
    | none => rw [Tree.node_of_get?_none hget] at hnode; cases hnode
    | some found => rw [Tree.node_of_get? hget] at hnode; cases hnode; rfl
  have hparent := Tree.contains_of_get? hget
  have harrays : MovePlan.ofArrays batch.moveFrom batch.moveTo = .ok moves := by
    cases hof : MovePlan.ofArrays batch.moveFrom batch.moveTo with
    | error err => rw [hof] at hmoves; cases hmoves
    | ok plan => rw [hof] at hmoves; cases hmoves; rfl
  -- the checks ran on the sorted arrays, the batch speaks of the given ones
  obtain ⟨hlen, -, rfl⟩ := batch.ofArrays_eq_ok_iff.mp harrays
  by_cases hadds : batch.addTags.length = batch.addAt.length
  · rw [if_neg (by omega)] at h
    obtain ⟨_, hto, h⟩ := query_bind_eq_ok_iff.mp h
    obtain ⟨_, hnew, h⟩ := query_bind_eq_ok_iff.mp h
    obtain ⟨hfrom_lt, hfrom_nodup, -⟩ := checkPositions_eq_ok_iff.mp hfrom
    obtain ⟨hto_lt, hto_nodup, -⟩ := checkPositions_eq_ok_iff.mp hto
    obtain ⟨hattachable, hnew_nodup, -⟩ := (tree.checkNewChildren_eq_ok_iff hwf hparent).mp hnew
    rw [← Tree.childrenOf_of_get? hget] at hfrom_lt hto_lt
    have htags := batch.additions_tags_perm hadds
    -- each check says its part of validity, about a permutation of what validity is about
    refine ⟨⟨hparent, hlen, hadds, batch.emptied_perm.nodup_iff.mp hfrom_nodup, ?_, hto_nodup, ?_,
      htags.nodup_iff.mp hnew_nodup, ?_⟩, (Except.ok.inj h).symm⟩
    · intro i hi
      exact hfrom_lt i (batch.emptied_perm.mem_iff.mpr hi)
    · intro i hi
      have hlt := hto_lt i hi
      rw [length_sortOn] at hlt
      rw [← batch.length_additions hadds]
      exact hlt
    · intro c hc
      exact hattachable c (htags.mem_iff.mpr hc)
  -- the last check on lengths is the one that fails
  · rw [if_pos hadds] at h
    cases h

/-- A valid batch passes every check. -/
theorem plan_of_valid (hwf : tree.WellFormed) (hvalid : batch.Valid tree parent) :
    batch.plan tree parent = .ok batch.editPlan := by
  obtain ⟨node, hget⟩ := Tree.contains_iff.mp hvalid.parent_contained
  have hchildren := Tree.childrenOf_of_get? hget
  have hadds := hvalid.adds_match
  have harrays := batch.ofArrays_eq_ok_iff.mpr
    ⟨hvalid.moves_match, (List.nodup_append.mp hvalid.targets_nodup).1, rfl⟩
  -- no check but that of the targets looks past its own arrays
  have hfrom : checkPositions node.children.length []
      (batch.moveFrom ++ batch.editPlan.removals) = .ok () := by
    refine checkPositions_eq_ok_iff.mpr ⟨fun i hi => ?_, ?_, fun _ _ => List.not_mem_nil⟩
    · rw [← hchildren]
      exact hvalid.sources_lt i (batch.emptied_perm.mem_iff.mp hi)
    · exact batch.emptied_perm.nodup_iff.mpr hvalid.sources_nodup
  have hto : checkPositions
      (node.children.length - batch.editPlan.removals.length + batch.editPlan.additions.length)
      [] (batch.moveTo ++ batch.addAt) = .ok () := by
    refine checkPositions_eq_ok_iff.mpr
      ⟨fun i hi => ?_, hvalid.targets_nodup, fun _ _ => List.not_mem_nil⟩
    rw [← hchildren, batch.length_additions hadds, batch.removals_perm.length_eq]
    exact hvalid.targets_lt i hi
  have hnew : tree.checkNewChildren parent [] (batch.editPlan.additions.map Prod.snd) = .ok () := by
    have htags := batch.additions_tags_perm hadds
    refine (tree.checkNewChildren_eq_ok_iff hwf hvalid.parent_contained).mpr
      ⟨fun c hc => ?_, htags.nodup_iff.mpr hvalid.added_nodup, fun _ _ => List.not_mem_nil⟩
    exact hvalid.attachable c (htags.mem_iff.mp hc)
  -- run the checks in their order
  unfold Batch.plan
  rw [Tree.node_of_get? hget, ok_bind, harrays]
  show (checkPositions _ _ (batch.moveFrom ++ batch.editPlan.removals) >>= _) = _
  rw [hfrom, ok_bind, if_neg (by omega)]
  show (checkPositions (node.children.length - batch.editPlan.removals.length +
    batch.editPlan.additions.length) [] _ >>= _) = _
  rw [hto, ok_bind]
  show (tree.checkNewChildren parent [] (batch.editPlan.additions.map Prod.snd) >>= _) = _
  rw [hnew]
  rfl

/-- The checks accept exactly the valid batches. -/
theorem plan_eq_ok_iff (hwf : tree.WellFormed) {plan : EditPlan} :
    batch.plan tree parent = .ok plan ↔ batch.Valid tree parent ∧ plan = batch.editPlan := by
  constructor
  · exact batch.valid_of_plan hwf
  · rintro ⟨hvalid, rfl⟩
    exact batch.plan_of_valid hwf hvalid

end Checks

end Batch

/-! ## Merges

Two sorted streams of positions are merged into one schedule. All that is needed of a merge is that
it permutes the two streams and is sorted in its turn; which step goes first when positions are
equal does not matter, as valid positions are distinct. -/

/-- The position of a step. -/
def DetachStep.index : DetachStep → Nat
  | move index _ | remove index | collision index => index

/-- The position of a step. -/
def AttachStep.index : AttachStep → Nat
  | add index _ | move index _ | collision index => index

/-- A merge without collisions takes every move and every removal once. -/
theorem detachSteps_perm (moves : List (Nat × Nat)) (removals : List Nat)
    (hdisjoint : ∀ m ∈ moves, m.1 ∉ removals) : (detachSteps moves removals).Perm
      (moves.map (fun m => .move m.1 m.2) ++ removals.map .remove) := by
  fun_induction detachSteps moves removals with
  | case1 => exact .refl _
  | case2 index entry moves ih => exact (ih fun _ _ => List.not_mem_nil).cons _
  | case3 index removals ih => exact (ih fun _ h => nomatch h).cons _
  | case4 source entry moves removal removals hlt ih =>
    refine (ih fun m hm => ?_).cons _
    exact hdisjoint m (List.mem_cons_of_mem _ hm)
  | case5 source entry moves removal removals _ hlt ih =>
    have hrest := ih fun m hm hmem => hdisjoint m hm (List.mem_cons_of_mem _ hmem)
    exact (hrest.cons _).trans List.perm_middle.symm
  | case6 source entry moves removal removals hnlt hnlt' =>
    have heq : source = removal := by omega
    exact absurd (heq ▸ List.mem_cons_self ..) (hdisjoint _ (List.mem_cons_self ..))

/-- The merge of two descending streams descends. -/
theorem detachSteps_descending (moves : List (Nat × Nat)) (removals : List Nat)
    (hdisjoint : ∀ m ∈ moves, m.1 ∉ removals) (hmoves : moves.Pairwise fun a b => b.1 < a.1)
    (hremovals : removals.Pairwise fun a b => b < a) :
    (detachSteps moves removals).Pairwise fun a b => b.index < a.index := by
  -- what follows the first step is bounded by the heads of the streams, as it permutes them
  have hbound : ∀ {bound : Nat} {moves : List (Nat × Nat)} {removals : List Nat},
      (∀ m ∈ moves, m.1 ∉ removals) → (∀ m ∈ moves, m.1 < bound) → (∀ r ∈ removals, r < bound) →
      ∀ step ∈ detachSteps moves removals, step.index < bound := by
    intro bound moves removals hdisjoint hm hr step hstep
    have hsteps := (detachSteps_perm moves removals hdisjoint).mem_iff.mp hstep
    rcases List.mem_append.mp hsteps with h | h
    · obtain ⟨m, hmem, rfl⟩ := List.mem_map.mp h
      exact hm m hmem
    · obtain ⟨r, hmem, rfl⟩ := List.mem_map.mp h
      exact hr r hmem
  fun_induction detachSteps moves removals with
  | case1 => exact .nil
  | case2 index entry moves ih =>
    obtain ⟨hhead, htail⟩ := List.pairwise_cons.mp hmoves
    have hdisjoint' : ∀ m ∈ moves, m.1 ∉ ([] : List Nat) := fun _ _ => List.not_mem_nil
    exact List.pairwise_cons.mpr ⟨hbound hdisjoint' hhead nofun, ih hdisjoint' htail .nil⟩
  | case3 index removals ih =>
    obtain ⟨hhead, htail⟩ := List.pairwise_cons.mp hremovals
    exact List.pairwise_cons.mpr ⟨hbound nofun nofun hhead, ih nofun .nil htail⟩
  | case4 source entry moves removal removals hlt ih =>
    obtain ⟨hhead, htail⟩ := List.pairwise_cons.mp hmoves
    have hdisjoint' : ∀ m ∈ moves, m.1 ∉ removal :: removals :=
      fun m hm => hdisjoint m (List.mem_cons_of_mem _ hm)
    refine List.pairwise_cons.mpr
      ⟨hbound hdisjoint' hhead fun r hr => ?_, ih hdisjoint' htail hremovals⟩
    rcases List.mem_cons.mp hr with rfl | hr
    · exact hlt
    · exact Nat.lt_trans ((List.pairwise_cons.mp hremovals).1 r hr) hlt
  | case5 source entry moves removal removals _ hlt ih =>
    obtain ⟨hhead, htail⟩ := List.pairwise_cons.mp hremovals
    have hdisjoint' : ∀ m ∈ (source, entry) :: moves, m.1 ∉ removals :=
      fun m hm hmem => hdisjoint m hm (List.mem_cons_of_mem _ hmem)
    refine List.pairwise_cons.mpr
      ⟨hbound hdisjoint' (fun m hm => ?_) hhead, ih hdisjoint' hmoves htail⟩
    rcases List.mem_cons.mp hm with rfl | hm
    · exact hlt
    · exact Nat.lt_trans ((List.pairwise_cons.mp hmoves).1 m hm) hlt
  | case6 => exact List.pairwise_singleton ..

/-- The same for the second pass: every addition and every move once. -/
theorem attachSteps_perm (additions : List (Nat × Tag)) (moves : List (Nat × Nat))
    (hdisjoint : ∀ a ∈ additions, ∀ m ∈ moves, a.1 ≠ m.1) : (attachSteps additions moves).Perm
      (additions.map (fun a => .add a.1 a.2) ++ moves.map (fun m => .move m.1 m.2)) := by
  -- as for the first pass, a tie would be a position named by both streams
  fun_induction attachSteps additions moves with
  | case1 => exact .refl _
  | case2 index child additions ih => exact (ih fun _ _ _ h => nomatch h).cons _
  | case3 index rank moves ih => exact (ih fun _ h => nomatch h).cons _
  | case4 index child additions target rank moves hlt ih =>
    exact (ih fun a ha => hdisjoint a (List.mem_cons_of_mem _ ha)).cons _
  | case5 index child additions target rank moves _ hlt ih =>
    have hrest := ih fun a ha m hm => hdisjoint a ha m (List.mem_cons_of_mem _ hm)
    exact (hrest.cons _).trans List.perm_middle.symm
  | case6 index child additions target rank moves hnlt hnlt' =>
    have hne := hdisjoint _ (List.mem_cons_self ..) _ (List.mem_cons_self ..)
    exact absurd (by omega) hne

/-- The merge of two ascending streams ascends. -/
theorem attachSteps_ascending (additions : List (Nat × Tag)) (moves : List (Nat × Nat))
    (hdisjoint : ∀ a ∈ additions, ∀ m ∈ moves, a.1 ≠ m.1)
    (hadditions : additions.Pairwise fun a b => a.1 < b.1)
    (hmoves : moves.Pairwise fun a b => a.1 < b.1) :
    (attachSteps additions moves).Pairwise fun a b => a.index < b.index := by
  -- a step first in both lists precedes the whole merge of their tails
  have hbound : ∀ {bound : Nat} {additions : List (Nat × Tag)} {moves : List (Nat × Nat)},
      (∀ a ∈ additions, ∀ m ∈ moves, a.1 ≠ m.1) → (∀ a ∈ additions, bound < a.1) →
      (∀ m ∈ moves, bound < m.1) → ∀ step ∈ attachSteps additions moves, bound < step.index := by
    intro bound additions moves hdisjoint ha hm step hstep
    have hsteps := (attachSteps_perm additions moves hdisjoint).mem_iff.mp hstep
    rcases List.mem_append.mp hsteps with h | h
    · obtain ⟨a, hmem, rfl⟩ := List.mem_map.mp h
      exact ha a hmem
    · obtain ⟨m, hmem, rfl⟩ := List.mem_map.mp h
      exact hm m hmem
  fun_induction attachSteps additions moves with
  | case1 => exact .nil
  | case2 index child additions ih =>
    obtain ⟨hhead, htail⟩ := List.pairwise_cons.mp hadditions
    have hdisjoint' : ∀ a ∈ additions, ∀ m ∈ ([] : List (Nat × Nat)), a.1 ≠ m.1 := nofun
    exact List.pairwise_cons.mpr ⟨hbound hdisjoint' hhead nofun, ih hdisjoint' htail .nil⟩
  | case3 index rank moves ih =>
    obtain ⟨hhead, htail⟩ := List.pairwise_cons.mp hmoves
    exact List.pairwise_cons.mpr ⟨hbound nofun nofun hhead, ih nofun .nil htail⟩
  | case4 index child additions target rank moves hlt ih =>
    obtain ⟨hhead, htail⟩ := List.pairwise_cons.mp hadditions
    have hdisjoint' : ∀ a ∈ additions, ∀ m ∈ (target, rank) :: moves, a.1 ≠ m.1 :=
      fun a ha => hdisjoint a (List.mem_cons_of_mem _ ha)
    -- an addition comes first: it precedes the other additions, and the moves as their head does
    refine List.pairwise_cons.mpr
      ⟨hbound hdisjoint' hhead fun m hm => ?_, ih hdisjoint' htail hmoves⟩
    rcases List.mem_cons.mp hm with rfl | hm
    · exact hlt
    · exact Nat.lt_trans hlt ((List.pairwise_cons.mp hmoves).1 m hm)
  | case5 index child additions target rank moves _ hlt ih =>
    obtain ⟨hhead, htail⟩ := List.pairwise_cons.mp hmoves
    have hdisjoint' : ∀ a ∈ (index, child) :: additions, ∀ m ∈ moves, a.1 ≠ m.1 :=
      fun a ha m hm => hdisjoint a ha m (List.mem_cons_of_mem _ hm)
    -- a move comes first
    refine List.pairwise_cons.mpr
      ⟨hbound hdisjoint' (fun a ha => ?_) hhead, ih hdisjoint' hadditions htail⟩
    rcases List.mem_cons.mp ha with rfl | ha
    · exact hlt
    · exact Nat.lt_trans hlt ((List.pairwise_cons.mp hadditions).1 a ha)
  | case6 => exact List.pairwise_singleton ..

/-! ## Lists that shrink and grow

Taking elements out from the highest position down is a `foldlM` that cannot fail on positions in
the list. Putting elements in from the lowest position up cannot fail on positions below the final
length, and `Fits` is the condition that a single insertion hands on to the next. -/

/-- Descending positions of a list can be emptied one after the other. -/
theorem foldlM_removeAt? : ∀ {positions : List Nat} {list : List Tag},
    positions.Pairwise (fun a b => b < a) → (∀ i ∈ positions, i < list.length) →
      positions.foldlM Batch.removeAt? list = some (positions.foldl List.eraseIdx list) ∧
        (positions.foldl List.eraseIdx list).length + positions.length = list.length
  | [], list, _, _ => ⟨rfl, rfl⟩
  | index :: rest, list, hdesc, hlt => by
    obtain ⟨hhead, htail⟩ := List.pairwise_cons.mp hdesc
    have hindex := hlt index (List.mem_cons_self ..)
    have hlength := List.length_eraseIdx_of_lt hindex
    have hrest : ∀ i ∈ rest, i < (list.eraseIdx index).length := by
      -- the positions after the first lie below it, where the list is as it was
      intro i hi
      have := hhead i hi
      omega
    obtain ⟨hfold, hlen⟩ := foldlM_removeAt? htail hrest
    refine ⟨?_, ?_⟩
    · rw [List.foldlM_cons, Batch.removeAt?, if_pos hindex]
      exact hfold
    · rw [List.foldl_cons, List.length_cons]
      omega

/-- Positions at which a list of `length` elements can be filled one after the other. -/
def Fits (length : Nat) : List Nat → Prop
  | [] => True
  | index :: rest => index ≤ length ∧ Fits (length + 1) rest

/-- An ascending list below a bound has room for what follows its head. -/
theorem head_add_length_lt {bound : Nat} : ∀ {index : Nat} {rest : List Nat},
    (index :: rest).Pairwise (· < ·) → (∀ i ∈ index :: rest, i < bound) →
      index + rest.length < bound
  | index, [], _, hlt => hlt index (List.mem_cons_self ..)
  | index, next :: rest, hasc, hlt => by
    obtain ⟨hhead, htail⟩ := List.pairwise_cons.mp hasc
    have hnext := head_add_length_lt htail fun i hi => hlt i (List.mem_cons_of_mem _ hi)
    have := hhead next (List.mem_cons_self ..)
    rw [List.length_cons]
    omega

/-- Ascending positions below the final length fit: the positions that follow one leave no room
for it to lie beyond the end of the list. -/
theorem fits_of_ascending : ∀ {length : Nat} {positions : List Nat},
    positions.Pairwise (· < ·) → (∀ i ∈ positions, i < length + positions.length) →
      Fits length positions
  | _, [], _, _ => trivial
  | length, index :: rest, hasc, hlt => by
    have hhead := head_add_length_lt hasc hlt
    rw [List.length_cons] at hhead hlt
    refine ⟨by omega, fits_of_ascending (List.pairwise_cons.mp hasc).2 fun i hi => ?_⟩
    have := hlt i (List.mem_cons_of_mem _ hi)
    omega

/-- Where they fit, insertions at positions are plain insertions. -/
theorem foldlM_insertAt? : ∀ {entries : List (Nat × Tag)} {list : List Tag},
    Fits list.length (entries.map Prod.fst) →
      entries.foldlM Batch.insertAt? list =
        some (entries.foldl (fun list entry => list.insertIdx entry.1 entry.2) list)
  | [], _, _ => rfl
  | entry :: rest, list, ⟨hhead, hrest⟩ => by
    rw [List.foldlM_cons, Batch.insertAt?, if_pos hhead]
    refine foldlM_insertAt? ?_
    rwa [List.length_insertIdx_of_le_length hhead]

/-! ## The schedules of a valid batch

The two schedules of an accepted batch, as lists of steps with positions in order. From here on the
passes over the tree need not know how the plan was sorted and merged. -/

namespace Batch

variable {κ : Type} {batch : Batch} {tree : Tree κ} {parent : Tag}

/-- No source repeats, so the moves by source have strictly ascending sources. -/
theorem moves_ascending (hlen : batch.moveFrom.length = batch.moveTo.length)
    (hfrom : batch.moveFrom.Nodup) : batch.moves.Pairwise fun a b => a.1 < b.1 := by
  apply ascending_sortOn
  rwa [List.map_fst_zip (Nat.le_of_eq hlen)]

/-- No target repeats, so the moves by target have strictly ascending targets. -/
theorem movesByTarget_ascending (hlen : batch.moveFrom.length = batch.moveTo.length)
    (hto : batch.moveTo.Nodup) : batch.movesByTarget.Pairwise fun a b => a.1.2 < b.1.2 := by
  apply ascending_sortOn
  -- the moves by source are the given moves in another order, and their targets the given targets
  have hperm := batch.moves_perm.map Prod.snd
  rw [List.map_snd_zip (Nat.le_of_eq hlen.symm)] at hperm
  have hmap : batch.moves.zipIdx.map (fun (move, _) => move.2) = batch.moves.map Prod.snd := by
    rw [← List.zipIdx_map_fst 0 batch.moves, List.map_map, List.zipIdx_map_fst]
    rfl
  rwa [hmap, hperm.nodup_iff]

/-- The same of a valid batch. -/
theorem Valid.moves_ascending (h : batch.Valid tree parent) :
    batch.moves.Pairwise fun a b => a.1 < b.1 :=
  batch.moves_ascending h.moves_match (List.nodup_append.mp h.sources_nodup).1

/-- The same of a valid batch. -/
theorem Valid.movesByTarget_ascending (h : batch.Valid tree parent) :
    batch.movesByTarget.Pairwise fun a b => a.1.2 < b.1.2 :=
  batch.movesByTarget_ascending h.moves_match (List.nodup_append.mp h.targets_nodup).1

/-- The first schedule of a valid batch: each move and each removal once, from the highest position
down. -/
theorem Valid.detachSchedule_spec (h : batch.Valid tree parent) :
    batch.editPlan.detachSchedule.Perm
        (batch.movePlan.sources.zipIdx.map (fun m => .move m.1 m.2) ++ batch.removeFrom.map .remove) ∧
      batch.editPlan.detachSchedule.Pairwise fun a b => b.index < a.index := by
  -- both streams ascend and have no position in common, as no source is named twice
  have hremovals : batch.editPlan.removals.Pairwise (· < ·) := by
    have hnodup := (List.nodup_append.mp h.sources_nodup).2.1
    exact @ascending_sortOn _ id _ (by rwa [List.map_id])
  have hsources : batch.movePlan.sources.zipIdx.Pairwise fun a b => a.1 < b.1 := by
    rw [← List.pairwise_map, List.zipIdx_map_fst]
    exact List.pairwise_map.mpr h.moves_ascending
  have hdisjoint : ∀ m ∈ batch.movePlan.sources.zipIdx.reverse,
      m.1 ∉ batch.editPlan.removals.reverse := by
    intro m hm hmem
    have hsource := List.fst_mem_of_mem_zipIdx (List.mem_reverse.mp hm)
    have hremove := batch.removals_perm.mem_iff.mp (List.mem_reverse.mp hmem)
    exact (List.nodup_append.mp h.sources_nodup).2.2 m.1
      ((batch.sources_perm h.moves_match).mem_iff.mp hsource) m.1 hremove rfl
  -- the schedule is the merge of the two streams, each from its end
  refine ⟨(detachSteps_perm _ _ hdisjoint).trans (.append ?_ ?_), ?_⟩
  · exact (List.reverse_perm _).map _
  · exact ((List.reverse_perm _).trans batch.removals_perm).map _
  · exact detachSteps_descending _ _ hdisjoint (List.pairwise_reverse.mpr hsources)
      (List.pairwise_reverse.mpr hremovals)

/-- The second schedule of a valid batch: each addition and each move once, from the lowest position
up. -/
theorem Valid.attachSchedule_spec (h : batch.Valid tree parent) :
    batch.editPlan.attachSchedule.Perm
        ((batch.addAt.zip batch.addTags).map (fun a => .add a.1 a.2) ++
          batch.movePlan.targets.zipIdx.map fun m => .move m.1 m.2) ∧
      batch.editPlan.attachSchedule.Pairwise fun a b => a.index < b.index := by
  -- again both streams ascend and have no position in common, as no target is named twice
  have hadditions : batch.editPlan.additions.Pairwise fun a b => a.1 < b.1 := by
    apply ascending_sortOn
    rw [List.map_fst_zip (Nat.le_of_eq h.adds_match.symm)]
    exact (List.nodup_append.mp h.targets_nodup).2.1
  have htargets : batch.movePlan.targets.zipIdx.Pairwise fun a b => a.1 < b.1 := by
    rw [← List.pairwise_map, List.zipIdx_map_fst]
    exact List.pairwise_map.mpr h.movesByTarget_ascending
  have hdisjoint : ∀ a ∈ batch.editPlan.additions, ∀ m ∈ batch.movePlan.targets.zipIdx,
      a.1 ≠ m.1 := by
    intro a ha m hm heq
    have hadd := List.of_mem_zip ((sortOn_perm Prod.fst (batch.addAt.zip batch.addTags)).mem_iff.mp ha)
    have htarget := List.fst_mem_of_mem_zipIdx hm
    exact (List.nodup_append.mp h.targets_nodup).2.2 m.1
      ((batch.targets_perm h.moves_match).mem_iff.mp htarget) a.1 hadd.1 heq.symm
  refine ⟨(attachSteps_perm _ _ hdisjoint).trans (.append_right _ ?_), ?_⟩
  · exact (sortOn_perm Prod.fst (batch.addAt.zip batch.addTags)).map _
  · exact attachSteps_ascending _ _ hdisjoint hadditions htargets

/-- The positions emptied are the named ones, from the highest down. -/
theorem Valid.detachPositions_eq (h : batch.Valid tree parent) :
    batch.editPlan.detachSchedule.map DetachStep.index =
      (sortOn id (batch.moveFrom ++ batch.removeFrom)).reverse := by
  obtain ⟨hperm, hdesc⟩ := h.detachSchedule_spec
  -- a list without ties is sorted if it ascends and has the right elements
  rw [← List.reverse_eq_iff]
  refine eq_sortOn ?_ (List.pairwise_reverse.mpr (List.pairwise_map.mpr hdesc))
  have hindices := hperm.map DetachStep.index
  rw [List.map_append, List.map_map, List.map_map] at hindices
  have hmoves : batch.movePlan.sources.zipIdx.map (DetachStep.index ∘ fun m => .move m.1 m.2) =
      batch.movePlan.sources := List.zipIdx_map_fst 0 _
  have hremovals : batch.removeFrom.map (DetachStep.index ∘ .remove) = batch.removeFrom :=
    List.map_id _
  rw [hmoves, hremovals] at hindices
  have hsources := (batch.sources_perm h.moves_match).append_right batch.removeFrom
  exact (List.reverse_perm _).trans (hindices.trans hsources)

/-- The source of the move with the `rank`-th target. -/
def sourceAt (batch : Batch) (rank : Nat) : Nat :=
  (batch.movesByTarget.map fun (move, _) => move.1).getD rank 0

/-- The child that a step inserts, with its position, where `children` is the list before the
batch. -/
def resolve (batch : Batch) (children : List Tag) : AttachStep → Nat × Tag
  | .add index child => (index, child)
  | .move index rank => (index, children.getD (batch.sourceAt rank) 0)
  | .collision index => (index, 0)

/-- The insertions of a batch, from the lowest position up. -/
def entries (batch : Batch) (children : List Tag) : List (Nat × Tag) :=
  batch.editPlan.attachSchedule.map (batch.resolve children)

/-- The insertions are the moved and the added children. -/
theorem Valid.entries_perm (h : batch.Valid tree parent) (children : List Tag) :
    (batch.entries children).Perm
      ((batch.moveTo.zip batch.moveFrom).map (fun (target, source) =>
          (target, children.getD source 0)) ++ batch.addAt.zip batch.addTags) := by
  have hperm := h.attachSchedule_spec.1.map (batch.resolve children)
  rw [List.map_append, List.map_map, List.map_map] at hperm
  -- an addition inserts what it names
  have hadds : (batch.addAt.zip batch.addTags).map
      (batch.resolve children ∘ fun a => .add a.1 a.2) = batch.addAt.zip batch.addTags :=
    List.map_id _
  -- the rank of a target leads to the move it belongs to
  have hmoves : batch.movePlan.targets.zipIdx.map
      (batch.resolve children ∘ fun m => .move m.1 m.2) =
        (batch.movesByTarget.map Prod.fst).map fun (source, target) =>
          (target, children.getD source 0) := by
    show (batch.movesByTarget.map fun (move, _) => move.2).zipIdx.map _ = _
    rw [List.zipIdx_map, List.map_map, List.map_map]
    -- both sides go over the moves by target, one of them with their ranks
    conv_rhs => rw [← List.zipIdx_map_fst 0 batch.movesByTarget, List.map_map]
    refine List.map_congr_left fun x hx => ?_
    have hget := List.mem_zipIdx_iff_getElem?.mp hx
    have hsource : batch.sourceAt x.2 = x.1.1.1 := by
      rw [sourceAt, List.getD_eq_getElem?_getD, List.getElem?_map, hget]
      rfl
    show (_, children.getD (batch.sourceAt x.2) 0) = (_, children.getD x.1.1.1 0)
    rw [hsource]
    rfl
  rw [hadds, hmoves] at hperm
  have hswap : (batch.moveFrom.zip batch.moveTo).map (fun (source, target) =>
      (target, children.getD source 0)) = (batch.moveTo.zip batch.moveFrom).map
        fun (target, source) => (target, children.getD source 0) := by
    rw [← List.zip_swap, List.map_map]
    rfl
  refine (hperm.trans List.perm_append_comm).trans (.append_right _ ?_)
  rw [← hswap]
  exact batch.movesByTarget_perm.map _

/-- The insertions come from the lowest position up, as the schedule does. -/
theorem Valid.entries_ascending (h : batch.Valid tree parent) (children : List Tag) :
    (batch.entries children).Pairwise fun a b => a.1 < b.1 := by
  refine List.pairwise_map.mpr (h.attachSchedule_spec.2.imp fun {a b} hlt => ?_)
  -- resolving a step keeps its position
  have hindex : ∀ step, (batch.resolve children step).1 = step.index := by
    intro step
    cases step <;> rfl
  rw [hindex, hindex]
  exact hlt

/-! ## The list after a batch

What the two schedules do to a list of tags, without a tree. The answer is total: the indices of a
valid batch lie in the list. -/

/-- The children left when the moved and removed positions are emptied. -/
def remaining (batch : Batch) (children : List Tag) : List Tag :=
  (batch.editPlan.detachSchedule.map DetachStep.index).foldl List.eraseIdx children

/-- The children after the batch. -/
def rearranged (batch : Batch) (children : List Tag) : List Tag :=
  (batch.entries children).foldl (fun list entry => list.insertIdx entry.1 entry.2)
    (batch.remaining children)

/-- Every position emptied lies in the list. -/
theorem Valid.detachIndex_lt (h : batch.Valid tree parent) :
    ∀ i ∈ batch.editPlan.detachSchedule.map DetachStep.index,
      i < (tree.childrenOf parent).length := by
  intro i hi
  rw [h.detachPositions_eq, List.mem_reverse] at hi
  exact h.sources_lt i ((sortOn_perm id _).mem_iff.mp hi)

/-- Emptying takes out as many children as there are moves and removals. -/
theorem Valid.remaining_length (h : batch.Valid tree parent) :
    (batch.remaining (tree.childrenOf parent)).length +
      (batch.moveFrom.length + batch.removeFrom.length) = (tree.childrenOf parent).length := by
  have hlen := (foldlM_removeAt? (List.pairwise_map.mpr h.detachSchedule_spec.2) h.detachIndex_lt).2
  rw [h.detachPositions_eq, List.length_reverse, length_sortOn, List.length_append,
    ← h.detachPositions_eq] at hlen
  exact hlen

/-- The insertions of a valid batch fit: its targets lie below the final length. -/
theorem Valid.entries_fit (h : batch.Valid tree parent) :
    Fits (batch.remaining (tree.childrenOf parent)).length
      ((batch.entries (tree.childrenOf parent)).map Prod.fst) := by
  -- the positions are the targets and the places of additions, as many as will be inserted
  refine fits_of_ascending (List.pairwise_map.mpr (h.entries_ascending _)) fun i hi => ?_
  have hperm := (h.entries_perm (tree.childrenOf parent)).map Prod.fst
  rw [List.map_append, List.map_map, List.map_fst_zip (Nat.le_of_eq h.adds_match.symm)] at hperm
  have htargets : (batch.moveTo.zip batch.moveFrom).map (Prod.fst ∘ fun (target, source) =>
      (target, (tree.childrenOf parent).getD source 0)) = batch.moveTo :=
    List.map_fst_zip (Nat.le_of_eq h.moves_match.symm)
  rw [htargets] at hperm
  have hlt := h.targets_lt i (hperm.mem_iff.mp hi)
  -- what is left and what is inserted add up to the final length
  have hcount := h.remaining_length
  have hmoves := h.moves_match
  rw [hperm.length_eq, List.length_append]
  omega

/-- The moved children, when every source lies in the list. -/
theorem movedEntries?_eq {children : List Tag} (hlt : ∀ i ∈ batch.moveFrom, i < children.length) :
    batch.movedEntries? children = some ((batch.moveTo.zip batch.moveFrom).map
      fun (target, source) => (target, children.getD source 0)) := by
  have hmap : ∀ {pairs : List (Nat × Nat)}, (∀ pair ∈ pairs, pair.2 < children.length) →
      pairs.mapM (fun (target, source) => (target, ·) <$> children[source]?) =
        some (pairs.map fun (target, source) => (target, children.getD source 0)) := by
    -- one lookup after the other, none of which fails
    intro pairs hpairs
    induction pairs with
    | nil => rfl
    | cons pair rest ih =>
      obtain ⟨target, source⟩ := pair
      have hsource : source < children.length := hpairs _ (List.mem_cons_self ..)
      have hget : children[source]? = some (children.getD source 0) := by
        rw [List.getD_eq_getElem?_getD, List.getElem?_eq_getElem hsource, Option.getD_some]
      rw [List.mapM_cons, ih fun pair hpair => hpairs pair (List.mem_cons_of_mem _ hpair)]
      show (((target, ·) <$> children[source]?) >>= _) = _
      rw [hget]
      rfl
  exact hmap fun pair hpair => hlt pair.2 (List.of_mem_zip hpair).2

/-- What a valid batch means for the list of children. -/
theorem Valid.onList_eq (h : batch.Valid tree parent) :
    batch.onList (tree.childrenOf parent) = some (batch.rearranged (tree.childrenOf parent)) := by
  -- first the positions are emptied, in the order of the schedule
  have hremove := (foldlM_removeAt? (List.pairwise_map.mpr h.detachSchedule_spec.2)
    h.detachIndex_lt).1
  rw [h.detachPositions_eq] at hremove
  have hmoved := batch.movedEntries?_eq fun i hi => h.sources_lt i (List.mem_append_left _ hi)
  unfold Batch.onList
  show (List.foldlM removeAt? _ (sortOn id (batch.moveFrom ++ batch.removeFrom)).reverse >>= _) = _
  rw [hremove, hmoved, ← h.detachPositions_eq]
  -- then they are filled, in the order of the schedule
  show List.foldlM insertAt? (batch.remaining _) (sortOn Prod.fst _) = _
  rw [← eq_sortOn (h.entries_perm _) (h.entries_ascending _)]
  exact foldlM_insertAt? h.entries_fit

end Batch

end ShadowMount
