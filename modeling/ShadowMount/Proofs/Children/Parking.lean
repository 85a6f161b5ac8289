import ShadowMount.Proofs.Children.Schedule

/-!
# Parked children

Emptying positions parks each moved child at the rank of its target. The rank of an entry is its
place among the entries by target, so two entries never share a rank, and what waits at a rank
when all positions are empty is the child of the move that belongs to it.

* **`Valid.waiting?_parkAll`** — at the `rank`-th target waits the child from `sourceAt rank`.
-/

namespace ShadowMount

namespace MovePlan

variable {plan : MovePlan}

/-- Parking does not change ranks. -/
@[simp] theorem ranks_park (entry : Nat) (child : Tag) :
    (plan.park entry child).ranks = plan.ranks := by
  unfold park
  split <;> rfl

/-- Parking does not change the number of places. -/
@[simp] theorem length_parked_park (entry : Nat) (child : Tag) :
    (plan.park entry child).parked.length = plan.parked.length := by
  unfold park
  split
  · exact List.length_set
  · rfl

/-- What was parked at a rank waits there. -/
theorem waiting?_park_of_rank {entry rank : Nat} {child : Tag}
    (hrank : plan.ranks[entry]? = some rank)
    (hlt : rank < plan.parked.length) : (plan.park entry child).waiting? rank = some child := by
  simp only [park, hrank, waiting?]
  rw [List.getElem?_set_self hlt]
  rfl

/-- Parking for another rank leaves this one alone. -/
theorem waiting?_park_of_ne {entry rank : Nat} {child : Tag}
    (hrank : plan.ranks[entry]? ≠ some rank) :
    (plan.park entry child).waiting? rank = plan.waiting? rank := by
  unfold park
  split
  · next other hother =>
    have hne : other ≠ rank := fun heq => hrank (heq ▸ hother)
    unfold waiting?
    rw [List.getElem?_set_ne hne]
  · rfl

/-- Taking from another rank leaves this one alone. -/
theorem waiting?_takeParked_of_ne {rank other : Nat} (hne : rank ≠ other) :
    (plan.takeParked rank).2.waiting? other = plan.waiting? other := by
  show (plan.parked.set rank none)[other]?.join = plan.parked[other]?.join
  rw [List.getElem?_set_ne hne]

/-- What emptying a position does to the plan, where `children` is the list before the batch. -/
def parkStep (children : List Tag) (plan : MovePlan) : DetachStep → MovePlan
  | .move index entry => plan.park entry (children.getD index 0)
  | .remove _ | .collision _ => plan

/-- The plan after a schedule. -/
def parkAll (children : List Tag) (plan : MovePlan) (steps : List DetachStep) : MovePlan :=
  steps.foldl (parkStep children) plan

/-- A rank that some step writes, and every writer of it with the same child, holds that child. -/
theorem waiting?_parkAll {children : List Tag} {rank : Nat} {child : Tag} :
    ∀ {steps : List DetachStep} {plan : MovePlan}, rank < plan.parked.length →
      (∀ index entry, .move index entry ∈ steps → plan.ranks[entry]? = some rank →
        children.getD index 0 = child) →
      (plan.waiting? rank = some child ∨
        ∃ index entry, .move index entry ∈ steps ∧ plan.ranks[entry]? = some rank) →
      (parkAll children plan steps).waiting? rank = some child
  | [], plan, _, _, hcase => by
    -- no step is left to write the rank, so it was written before
    rcases hcase with h | ⟨_, _, hmem, _⟩
    · exact h
    · cases hmem
  | .remove _ :: rest, plan, hlt, hwrites, hcase
  | .collision _ :: rest, plan, hlt, hwrites, hcase => by
    -- these steps park nothing
    refine @waiting?_parkAll children rank child rest plan hlt ?_ ?_
    · intro index entry hmem
      exact hwrites index entry (List.mem_cons_of_mem _ hmem)
    · refine hcase.imp_right fun ⟨index, entry, hmem, hrank⟩ => ⟨index, entry, ?_, hrank⟩
      rcases List.mem_cons.mp hmem with h | h
      · cases h
      · exact h
  | .move source first :: rest, plan, hlt, hwrites, hcase => by
    show (parkAll children (plan.park first (children.getD source 0)) rest).waiting? rank = _
    refine waiting?_parkAll (by rwa [length_parked_park]) ?_ ?_
    · intro index entry hmem hrank
      rw [ranks_park] at hrank
      exact hwrites index entry (List.mem_cons_of_mem _ hmem) hrank
    · rw [ranks_park]
      -- the step writes the rank, or leaves it to an earlier or a later writer
      by_cases hfirst : plan.ranks[first]? = some rank
      · left
        rw [waiting?_park_of_rank hfirst hlt, hwrites source first (List.mem_cons_self ..) hfirst]
      · rw [waiting?_park_of_ne hfirst]
        refine hcase.imp_right fun ⟨index, entry, hmem, hrank⟩ => ⟨index, entry, ?_, hrank⟩
        rcases List.mem_cons.mp hmem with h | h
        · obtain ⟨-, rfl⟩ := DetachStep.move.inj h
          exact absurd hrank hfirst
        · exact h

end MovePlan

namespace Batch

variable {κ : Type} {batch : Batch} {tree : Tree κ} {parent : Tag}

/-- Sorting by target reorders the moves. -/
theorem movesByTarget_zipIdx_perm : batch.movesByTarget.Perm batch.moves.zipIdx := sortOn_perm ..

/-- The entries by target are the places of the moves, each once. -/
theorem targetEntries_perm :
    (batch.movesByTarget.map Prod.snd).Perm (List.range batch.moves.length) := by
  have hperm := batch.movesByTarget_zipIdx_perm.map Prod.snd
  rwa [List.zipIdx_map_snd, ← List.range_eq_range'] at hperm

/-- The rank of an entry and the entry at a rank determine each other. -/
theorem ranks_eq_some_iff {entry rank : Nat} : batch.movePlan.ranks[entry]? = some rank ↔
    ∃ move, batch.movesByTarget[rank]? = some (move, entry) := by
  -- the rank of an entry is where it first stands by target, and it stands there once
  have hnodup : (batch.movesByTarget.map Prod.snd).Nodup :=
    batch.targetEntries_perm.nodup_iff.mpr List.nodup_range
  have hranks : batch.movePlan.ranks[entry]? =
      (List.range batch.moves.length)[entry]?.map (batch.movesByTarget.map Prod.snd).idxOf :=
    List.getElem?_map ..
  rw [hranks]
  constructor
  · intro h
    obtain ⟨i, hi, hrank⟩ := Option.map_eq_some_iff.mp h
    obtain ⟨hlt, rfl⟩ := List.getElem?_eq_some_iff.mp hi
    rw [List.getElem_range] at hrank
    rw [List.length_range] at hlt
    have hmem := batch.targetEntries_perm.mem_iff.mpr (List.mem_range.mpr hlt)
    have hentry := List.getElem?_idxOf hmem
    rw [hrank, List.getElem?_map] at hentry
    obtain ⟨⟨move, other⟩, hget, rfl⟩ := Option.map_eq_some_iff.mp hentry
    exact ⟨move, hget⟩
  · rintro ⟨move, hmove⟩
    have hentry : (batch.movesByTarget.map Prod.snd)[rank]? = some entry := by
      rw [List.getElem?_map, hmove]
      rfl
    obtain ⟨hlt, hget⟩ := List.getElem?_eq_some_iff.mp hentry
    have hmem := batch.targetEntries_perm.mem_iff.mp (List.mem_of_getElem? hentry)
    rw [List.getElem?_range (List.mem_range.mp hmem), Option.map_some, ← hget,
      hnodup.idxOf_getElem]

/-- No move is lost by sorting. -/
theorem length_movesByTarget : batch.movesByTarget.length = batch.moves.length := by
  rw [batch.movesByTarget_zipIdx_perm.length_eq, List.length_zipIdx]

/-- When all positions are empty, the child of each move waits at the rank of its target. -/
theorem Valid.waiting?_parkAll (h : batch.Valid tree parent) (children : List Tag) {rank : Nat}
    (hrank : rank < batch.movesByTarget.length) :
    (batch.movePlan.parkAll children batch.editPlan.detachSchedule).waiting? rank =
      some (children.getD (batch.sourceAt rank) 0) := by
  -- the move of the rank in question, and its place among the moves as given
  obtain ⟨⟨⟨source, target⟩, entry⟩, hmove⟩ : ∃ x, batch.movesByTarget[rank]? = some x :=
    ⟨_, List.getElem?_eq_getElem hrank⟩
  have hsourceAt : batch.sourceAt rank = source := by
    rw [sourceAt, List.getD_eq_getElem?_getD, List.getElem?_map, hmove]
    rfl
  -- an entry leads back to the source it stands for
  have hsource : ∀ {move other}, (move, other) ∈ batch.movesByTarget →
      batch.movePlan.sources[other]? = some move.1 := by
    intro move other hmem
    have hget := List.mk_mem_zipIdx_iff_getElem?.mp (batch.movesByTarget_zipIdx_perm.mem_iff.mp hmem)
    show (batch.moves.map Prod.fst)[other]? = _
    rw [List.getElem?_map, hget]
    rfl
  -- emptying parks for an entry exactly what stands at its source
  have hstep : ∀ {index other}, .move index other ∈ batch.editPlan.detachSchedule ↔
      batch.movePlan.sources[other]? = some index := by
    intro index other
    rw [h.detachSchedule_spec.1.mem_iff, List.mem_append, List.mem_map, List.mem_map]
    constructor
    · rintro (⟨m, hm, heq⟩ | ⟨r, -, heq⟩)
      · obtain ⟨rfl, rfl⟩ := DetachStep.move.inj heq
        exact List.mem_zipIdx_iff_getElem?.mp hm
      · cases heq
    · intro hget
      exact .inl ⟨(index, other), List.mk_mem_zipIdx_iff_getElem?.mpr hget, rfl⟩
  -- there are as many places as moves
  have hparked : rank < batch.movePlan.parked.length := by
    show rank < (List.replicate batch.moves.length (none : Option Tag)).length
    rw [List.length_replicate, ← batch.length_movesByTarget]
    exact hrank
  rw [hsourceAt]
  refine MovePlan.waiting?_parkAll hparked ?_ (.inr ?_)
  -- another step that writes the rank has the same entry, hence the same source
  · intro index other hmem hother
    obtain ⟨move, hmove'⟩ := batch.ranks_eq_some_iff.mp hother
    obtain ⟨rfl, rfl⟩ := Prod.mk.inj (Option.some.inj (hmove.symm.trans hmove'))
    have hindex := hsource (List.mem_of_getElem? hmove)
    rw [hstep.mp hmem] at hindex
    rw [Option.some.inj hindex]
  -- the step of the move itself
  · exact ⟨source, entry, hstep.mpr (hsource (List.mem_of_getElem? hmove)),
      batch.ranks_eq_some_iff.mpr ⟨_, hmove⟩⟩

end Batch

end ShadowMount
