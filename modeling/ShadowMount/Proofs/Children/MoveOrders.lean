import ShadowMount.Proofs.Children.Parking

/-!
# Moves in two orders

A move plan joins two orders of the same moves. Its buffers are used again for every batch: `setup`
fills them anew, with sorted arrays of places and a loop that writes the rank of each entry where
the entry stands. What the buffers held before makes no difference, and the result is `ofArrays`.

* **`scatter_eq`** — writing each rank at its entry inverts the order by target.
* **`setup_eq`** — filling the buffers anew gives the plan of the arrays, or leaves them as they
  were.
* **`parkEach?_spec`**, **`takeEach?_spec`** — parking and taking with every index checked: none
  lies outside its array.
* **`sorting_permutation`** — the plan sorts both arrays, and what is parked for an entry is taken,
  once, at the rank of its target.
-/

namespace ShadowMount

/-- Sorting by the key of an image sorts the images. -/
theorem map_sortOn {α β : Type} (key : β → Nat) (f : α → β) (xs : List α) :
    (sortOn (fun x => key (f x)) xs).map f = sortOn key (xs.map f) :=
  List.map_mergeSort fun _ _ _ _ => rfl

namespace MovePlan

/-! ## Filling the buffers

The ranks are written by a loop over the sorted entries, into a buffer that may hold anything and
only has to be long enough. Every place is written once, because the sorted entries are a
permutation of the places; so nothing of the old contents is left. -/

/-- A buffer that is cleared and filled anew. -/
def overwrite {α : Type} (buffer contents : List α) : List α := buffer.take 0 ++ contents

/-- Nothing of what the buffer held is left. -/
theorem overwrite_eq {α : Type} (buffer contents : List α) :
    overwrite buffer contents = contents := by
  simp [overwrite]

/-- Writes at the place of each entry where it stands in `entries`, one after the other. -/
def scatter (entries buffer : List Nat) : List Nat :=
  entries.zipIdx.foldl (fun ranks (entry, rank) => ranks.set entry rank) buffer

/-- Fills the buffers of a plan anew. Entries are places among the moves by source; `byTarget` has
them by target. -/
def setup (moveFrom moveTo : List Nat) : EStateM ContractViolation MovePlan Unit :=
  if moveFrom.length ≠ moveTo.length then
    throw (.mismatchedMoveArrays moveFrom.length moveTo.length)
  else
    let moves := sortOn Prod.fst (moveFrom.zip moveTo)
    let targetOf := fun entry => (moves.getD entry (0, 0)).2
    let byTarget := sortOn targetOf (List.range moves.length)
    match firstRepeat? (byTarget.map targetOf) with
    | some index => throw (.indexCollision index)
    | none => modify fun held => {
        sources := overwrite held.sources (moves.map Prod.fst)
        targets := overwrite held.targets (byTarget.map targetOf)
        ranks := scatter byTarget (overwrite held.ranks (List.replicate moves.length 0))
        parked := overwrite held.parked (List.replicate moves.length none) }

/-- The loop goes on from rank `first`: an entry that is still to come gets its rank, and every
other place keeps what it holds. -/
theorem getElem?_scatterFrom : ∀ {entries buffer : List Nat} (first : Nat) {x : Nat},
    entries.Nodup → x < buffer.length →
      ((entries.zipIdx first).foldl (fun ranks (entry, rank) => ranks.set entry rank) buffer)[x]? =
        if x ∈ entries then some (first + entries.idxOf x) else buffer[x]?
  | [], buffer, first, x, _, _ => by simp
  | entry :: rest, buffer, first, x, hnodup, hx => by
    obtain ⟨hentry, hrest⟩ := List.nodup_cons.mp hnodup
    rw [List.zipIdx_cons, List.foldl_cons,
      getElem?_scatterFrom (first + 1) hrest (by simpa using hx)]
    by_cases heq : entry = x
    · -- no later entry writes here again
      subst heq
      rw [if_neg hentry, if_pos (List.mem_cons_self ..), List.getElem?_set_self hx,
        List.idxOf_cons_self, Nat.add_zero]
    · rw [List.getElem?_set_ne heq, List.idxOf_cons_ne _ heq]
      have hmem : x ∈ entry :: rest ↔ x ∈ rest := by simp [Ne.symm heq]
      simp only [hmem]
      split
      · congr 1
        omega
      · rfl

/-- The loop writes inside the buffer and neither adds nor drops places. -/
theorem length_scatter (entries buffer : List Nat) :
    (scatter entries buffer).length = buffer.length := by
  have hloop : ∀ (pairs : List (Nat × Nat)) (buffer : List Nat),
      (pairs.foldl (fun ranks (entry, rank) => ranks.set entry rank) buffer).length =
        buffer.length := by
    intro pairs
    induction pairs with
    | nil => exact fun _ => rfl
    | cons pair rest ih =>
      intro buffer
      rw [List.foldl_cons, ih, List.length_set]
  exact hloop entries.zipIdx buffer

/-- Each place ends up with its rank, whatever the buffer held. -/
theorem scatter_eq {entries buffer : List Nat}
    (hperm : entries.Perm (List.range buffer.length)) :
    scatter entries buffer = (List.range buffer.length).map entries.idxOf := by
  refine List.ext_getElem? fun x => ?_
  by_cases hx : x < buffer.length
  · have hmem : x ∈ entries := hperm.mem_iff.mpr (List.mem_range.mpr hx)
    have hnodup : entries.Nodup := hperm.nodup_iff.mpr List.nodup_range
    rw [scatter, getElem?_scatterFrom 0 hnodup hx, if_pos hmem, Nat.zero_add, List.getElem?_map,
      List.getElem?_range hx, Option.map_some]
  -- outside the buffer both sides have nothing
  · rw [List.getElem?_eq_none (by rw [length_scatter]; omega),
      List.getElem?_eq_none (by simp; omega)]

end MovePlan

namespace Batch

variable (batch : Batch)

/-- The target of the move that stands at a place among the moves by source. -/
def targetOf (entry : Nat) : Nat := (batch.moves.getD entry (0, 0)).2

/-- Sorting the places by their targets is sorting the moves with their places. -/
theorem sortOn_targetOf : sortOn batch.targetOf (List.range batch.moves.length) =
    batch.movesByTarget.map Prod.snd := by
  -- a place and the move that stands there are a move with its place
  have hplaces : (List.range batch.moves.length).map (fun e => (batch.moves.getD e (0, 0), e)) =
      batch.moves.zipIdx := by
    refine List.ext_getElem? fun i => ?_
    rw [List.getElem?_map, List.getElem?_zipIdx]
    by_cases hi : i < batch.moves.length
    · simp [List.getElem?_range hi, List.getElem?_eq_getElem hi]
    · simp [Nat.not_lt.mp hi]
  have hsort := map_sortOn (fun (move : (Nat × Nat) × Nat) => move.1.2)
    (fun e => (batch.moves.getD e (0, 0), e)) (List.range batch.moves.length)
  rw [hplaces] at hsort
  show _ = (sortOn (fun (move : (Nat × Nat) × Nat) => move.1.2) batch.moves.zipIdx).map Prod.snd
  rw [← hsort, List.map_map]
  exact (List.map_id _).symm

/-- The targets in the order by target are those of the plan. -/
theorem map_targetOf : (batch.movesByTarget.map Prod.snd).map batch.targetOf =
    batch.movePlan.targets := by
  rw [List.map_map]
  refine List.map_congr_left fun entry hentry => ?_
  obtain ⟨move, place⟩ := entry
  have hmem := batch.movesByTarget_zipIdx_perm.mem_iff.mp hentry
  have hget := List.mk_mem_zipIdx_iff_getElem?.mp hmem
  show (batch.moves.getD place (0, 0)).2 = move.2
  rw [List.getD_eq_getElem?_getD, hget, Option.getD_some]

/-- Filling the buffers anew gives the plan of the arrays, or leaves the buffers as they were. -/
theorem setup_eq (held : MovePlan) : MovePlan.setup batch.moveFrom batch.moveTo held =
    match MovePlan.ofArrays batch.moveFrom batch.moveTo with
    | .ok plan => .ok () plan
    | .error violation => .error violation held := by
  unfold MovePlan.setup
  -- the length check comes first on both sides
  by_cases hlen : batch.moveFrom.length = batch.moveTo.length
  · rw [if_neg (by omega), ofArrays_of_length hlen]
    show (match MovePlan.firstRepeat? ((sortOn batch.targetOf (List.range batch.moves.length)).map
      batch.targetOf) with | some _ => _ | none => _ : EStateM _ _ _) held = _
    rw [batch.sortOn_targetOf, batch.map_targetOf]
    cases MovePlan.firstRepeat? batch.movePlan.targets with
    | some index => rfl
    | none =>
      -- both plans have the sorted arrays; the loop leaves the ranks
      have hscatter := @MovePlan.scatter_eq (batch.movesByTarget.map Prod.snd)
        (List.replicate batch.moves.length 0) (by simpa using batch.targetEntries_perm)
      rw [List.length_replicate] at hscatter
      refine congrArg (EStateM.Result.ok ()) ?_
      show MovePlan.mk _
        (MovePlan.scatter (sortOn batch.targetOf (List.range batch.moves.length)) _)
        (MovePlan.overwrite _ ((sortOn batch.targetOf (List.range batch.moves.length)).map
          batch.targetOf)) _ = _
      rw [batch.sortOn_targetOf, batch.map_targetOf]
      simp only [MovePlan.overwrite_eq]
      exact congrArg (MovePlan.mk _ · _ _) hscatter
  · rw [if_pos hlen]
    unfold MovePlan.ofArrays
    rw [if_pos hlen]
    rfl

/-- Filling the buffers anew succeeds exactly for arrays of one length without a repeated target. -/
theorem setup_eq_ok_iff {held plan : MovePlan} :
    MovePlan.setup batch.moveFrom batch.moveTo held = .ok () plan ↔
      batch.moveFrom.length = batch.moveTo.length ∧ batch.moveTo.Nodup ∧ plan = batch.movePlan := by
  rw [← ofArrays_eq_ok_iff, setup_eq]
  cases MovePlan.ofArrays batch.moveFrom batch.moveTo with
  | ok found => simp
  | error violation => simp

end Batch

/-! ## Checked indices

The plan is used with total functions, which answer something for an index outside of an array as
well. Here the same accesses are made with a check, and the checks are shown to succeed: what is
answered is what is stored. -/

namespace MovePlan

variable {plan : MovePlan}

/-- Parks a child, with the place of its entry and the rank found there checked against the
arrays. -/
def park? (plan : MovePlan) (entry : Nat) (child : Tag) : Option MovePlan :=
  match plan.ranks[entry]? with
  | some rank => if rank < plan.parked.length then some (plan.park entry child) else none
  | none => none

/-- Takes a child, with the rank checked against the array. -/
def takeParked? (plan : MovePlan) (rank : Nat) : Option (Option Tag × MovePlan) :=
  if rank < plan.parked.length then some (plan.takeParked rank) else none

/-- Parks the child of each entry, in the given order. -/
def parkEach? (child : Nat → Tag) (plan : MovePlan) (order : List Nat) : Option MovePlan :=
  order.foldlM (fun plan entry => plan.park? entry (child entry)) plan

/-- Takes at each rank, in the given order. -/
def takeEach? (plan : MovePlan) (ranks : List Nat) : Option MovePlan :=
  ranks.foldlM (fun plan rank => Prod.snd <$> plan.takeParked? rank) plan

/-- Parking is defined where the entry has a rank and the rank a place. -/
theorem park?_of_rank {entry rank : Nat} (child : Tag) (hrank : plan.ranks[entry]? = some rank)
    (hlt : rank < plan.parked.length) : plan.park? entry child = some (plan.park entry child) := by
  simp only [park?, hrank, if_pos hlt]

/-- Parking inside the arrays: the child of an entry waits at the rank that is the entry's alone. -/
theorem parkEach?_spec {child : Nat → Tag} : ∀ {order : List Nat} {plan : MovePlan},
    (∀ entry ∈ order, ∃ rank, plan.ranks[entry]? = some rank ∧ rank < plan.parked.length) →
      ∃ full, plan.parkEach? child order = some full ∧ full.parked.length = plan.parked.length ∧
        ∀ {entry rank}, plan.ranks[entry]? = some rank →
          (∀ other, plan.ranks[other]? = some rank → other = entry) →
            full.waiting? rank = if entry ∈ order then some (child entry) else plan.waiting? rank
  | [], plan, _ => ⟨plan, rfl, rfl, fun _ _ => by simp⟩
  | first :: rest, plan, hranked => by
    obtain ⟨slot, hslot, hlt⟩ := hranked first (List.mem_cons_self ..)
    have hparked := park?_of_rank (child first) hslot hlt
    -- the rest parks in the plan the first entry leaves, whose ranks and places are the same
    obtain ⟨full, hfull, hlength, hwaiting⟩ :=
      @parkEach?_spec child rest (plan.park first (child first)) (by
        intro entry hentry
        rw [ranks_park, length_parked_park]
        exact hranked entry (List.mem_cons_of_mem _ hentry))
    refine ⟨full, ?_, by rw [hlength, length_parked_park], ?_⟩
    · show (plan.park? first (child first) >>= fun next => next.parkEach? child rest) = _
      rw [hparked]
      exact hfull
    · intro entry rank hrank hunique
      rw [hwaiting (by rwa [ranks_park]) (by rwa [ranks_park])]
      by_cases heq : entry = first
      · -- the entry parked now is parked at its rank, and no later one comes there
        subst heq
        obtain rfl : slot = rank := Option.some.inj (hslot.symm.trans hrank)
        rw [waiting?_park_of_rank hslot hlt]
        simp
      · have hother : plan.ranks[first]? ≠ some rank := fun h => heq (hunique first h).symm
        rw [waiting?_park_of_ne hother]
        simp [heq]

/-- Taking inside the array: nothing is left at the ranks taken, and all else stays. -/
theorem takeEach?_spec : ∀ {taken : List Nat} {plan : MovePlan},
    (∀ rank ∈ taken, rank < plan.parked.length) →
      ∃ left, plan.takeEach? taken = some left ∧ left.parked.length = plan.parked.length ∧
        ∀ rank, left.waiting? rank = if rank ∈ taken then none else plan.waiting? rank
  | [], plan, _ => ⟨plan, rfl, rfl, fun _ => by simp⟩
  | first :: rest, plan, hranks => by
    have hlt := hranks first (List.mem_cons_self ..)
    have hlength : (plan.takeParked first).2.parked.length = plan.parked.length := List.length_set
    -- the rest takes from the plan with this rank empty
    obtain ⟨left, hleft, hlength', hwaiting⟩ :=
      @takeEach?_spec rest (plan.takeParked first).2 (by
        intro rank hrank
        rw [hlength]
        exact hranks rank (List.mem_cons_of_mem _ hrank))
    refine ⟨left, ?_, hlength'.trans hlength, fun rank => ?_⟩
    · show (Prod.snd <$> plan.takeParked? first >>= fun next => next.takeEach? rest) = _
      rw [takeParked?, if_pos hlt]
      exact hleft
    · rw [hwaiting]
      -- taken now, whatever is taken later, or left for the rest
      by_cases heq : first = rank
      · subst heq
        have hnone : (plan.takeParked first).2.waiting? first = none := by
          show (plan.parked.set first none)[first]?.join = none
          rw [List.getElem?_set_self hlt]
          rfl
        simp [hnone]
      · rw [waiting?_takeParked_of_ne heq]
        simp [Ne.symm heq]

/-- The `entry`-th source and the `rank`-th target belong to one move of the arrays. -/
def Joins (plan : MovePlan) (moveFrom moveTo : List Nat) (entry rank : Nat) : Prop :=
  ∃ source target, plan.sources[entry]? = some source ∧ plan.targets[rank]? = some target ∧
    (source, target) ∈ moveFrom.zip moveTo

end MovePlan

/-! ## The two orders

Both orders are permutations of the same moves. An entry and a rank belong together when they stand
for the same move, and this is a bijection between the entries by source and the ranks by target. -/

namespace Batch

variable {batch : Batch} {entry rank : Nat}

/-- An entry leads back to the source it stands for. -/
theorem sources_of_entry {move : Nat × Nat} (h : (move, entry) ∈ batch.movesByTarget) :
    batch.movePlan.sources[entry]? = some move.1 := by
  have hget := List.mk_mem_zipIdx_iff_getElem?.mp (batch.movesByTarget_zipIdx_perm.mem_iff.mp h)
  show (batch.moves.map Prod.fst)[entry]? = _
  rw [List.getElem?_map, hget]
  rfl

/-- The target at a rank is that of the move that stands there. -/
theorem targets_of_rank {move : Nat × Nat} (h : batch.movesByTarget[rank]? = some (move, entry)) :
    batch.movePlan.targets[rank]? = some move.2 := by
  show (batch.movesByTarget.map _)[rank]? = _
  rw [List.getElem?_map, h]
  rfl

/-- The rank of an entry is the rank of the target that its source is moved to. -/
theorem joins_iff (hlen : batch.moveFrom.length = batch.moveTo.length)
    (hfrom : batch.moveFrom.Nodup) (hto : batch.moveTo.Nodup) :
    batch.movePlan.Joins batch.moveFrom batch.moveTo entry rank ↔
      batch.movePlan.ranks[entry]? = some rank := by
  rw [ranks_eq_some_iff]
  constructor
  -- the move of the arrays is the one at the rank, as it has its target
  · rintro ⟨source, target, hsource, htarget, hmem⟩
    have hlt : rank < batch.movesByTarget.length := by
      have := (List.getElem?_eq_some_iff.mp htarget).1
      simpa [movePlan] using this
    obtain ⟨⟨move, other⟩, hmove⟩ : ∃ found, batch.movesByTarget[rank]? = some found :=
      ⟨_, List.getElem?_eq_getElem hlt⟩
    have hlisted := List.mem_of_getElem? hmove
    -- targets do not repeat, so the move at this rank is the one in question
    have hsame : move = (source, target) := by
      have htargets : ((batch.moveFrom.zip batch.moveTo).map Prod.snd).Nodup := by
        rwa [List.map_snd_zip (Nat.le_of_eq hlen.symm)]
      have hmove' : move ∈ batch.moveFrom.zip batch.moveTo :=
        batch.movesByTarget_perm.mem_iff.mp (List.mem_map_of_mem hlisted)
      refine List.inj_on_of_nodup_map htargets hmove' hmem ?_
      exact Option.some.inj ((targets_of_rank hmove).symm.trans htarget)
    -- nor do sources, so its entry is the given one
    have hentry : other = entry := by
      have hother := sources_of_entry hlisted
      rw [hsame, ← hsource] at hother
      have hinside := (List.getElem?_eq_some_iff.mp (sources_of_entry hlisted)).1
      have hnodup := (batch.sources_perm hlen).nodup_iff.mpr hfrom
      exact (List.getElem?_inj hinside hnodup).mp hother
    exact ⟨move, hentry ▸ hmove⟩
  -- the move at the rank is one of the arrays, with its entry as source
  · rintro ⟨move, hmove⟩
    have hlisted := List.mem_of_getElem? hmove
    exact ⟨move.1, move.2, sources_of_entry hlisted, targets_of_rank hmove,
      batch.movesByTarget_perm.mem_iff.mp (List.mem_map_of_mem hlisted)⟩

/-- The plan has an entry for each move. -/
theorem size_movePlan : batch.movePlan.size = batch.moves.length := by
  simp [MovePlan.size, movePlan]

/-- And a place for each entry. -/
theorem length_parked_movePlan : batch.movePlan.parked.length = batch.movePlan.size := by
  simp [MovePlan.size, movePlan]

/-- Every entry has a rank, and the rank has a place. -/
theorem exists_rank (hentry : entry < batch.movePlan.size) :
    ∃ rank, batch.movePlan.ranks[entry]? = some rank ∧ rank < batch.movePlan.parked.length := by
  rw [size_movePlan] at hentry
  have hmem := batch.targetEntries_perm.mem_iff.mpr (List.mem_range.mpr hentry)
  refine ⟨(batch.movesByTarget.map Prod.snd).idxOf entry, ?_, ?_⟩
  · show ((List.range batch.moves.length).map _)[entry]? = _
    rw [List.getElem?_map, List.getElem?_range hentry]
    rfl
  · rw [length_parked_movePlan, size_movePlan, ← length_movesByTarget]
    simpa using List.idxOf_lt_length_of_mem hmem

/-- Every rank has one entry. -/
theorem exists_entry (hrank : rank < batch.movePlan.size) :
    ∃ entry : Nat, batch.movePlan.ranks[entry]? = some rank := by
  rw [size_movePlan, ← length_movesByTarget] at hrank
  exact ⟨_, ranks_eq_some_iff.mpr ⟨_, List.getElem?_eq_getElem hrank⟩⟩

/-- No two entries share a rank. -/
theorem entry_unique {other : Nat} (h : batch.movePlan.ranks[entry]? = some rank)
    (hother : batch.movePlan.ranks[other]? = some rank) : other = entry := by
  obtain ⟨move, hmove⟩ := ranks_eq_some_iff.mp h
  obtain ⟨move', hmove'⟩ := ranks_eq_some_iff.mp hother
  rw [hmove] at hmove'
  cases hmove'
  rfl

/-- With every entry parked, each rank gives the child of its entry until it is taken. -/
theorem parked_taken {child : Nat → Tag} {order taken : List Nat}
    (horder : order.Perm (List.range batch.movePlan.size))
    (htaken : ∀ rank ∈ taken, rank < batch.movePlan.size) :
    ∃ full left, batch.movePlan.parkEach? child order = some full ∧
      full.takeEach? taken = some left ∧
      ∀ {entry rank : Nat}, batch.movePlan.ranks[entry]? = some rank →
        (left.takeParked? rank).map Prod.fst =
          some (if rank ∈ taken then none else some (child entry)) := by
  -- the order goes over the entries and nothing else
  have hinside : ∀ entry ∈ order, entry < batch.movePlan.size := by
    intro entry hentry
    exact List.mem_range.mp (horder.mem_iff.mp hentry)
  obtain ⟨full, hfull, hlength, hwaiting⟩ :=
    @MovePlan.parkEach?_spec child order batch.movePlan
      fun entry hentry => exists_rank (hinside entry hentry)
  rw [length_parked_movePlan] at hlength
  obtain ⟨left, hleft, hlength', hleave⟩ :=
    @MovePlan.takeEach?_spec taken full (by rw [hlength]; exact htaken)
  refine ⟨full, left, hfull, hleft, fun {entry rank} hrank => ?_⟩
  have hentry : entry < batch.movePlan.size := by
    have := (List.getElem?_eq_some_iff.mp hrank).1
    simpa [movePlan, MovePlan.size] using this
  -- the rank of the entry has a place, which is the one asked about
  obtain ⟨slot, hslot, hlt⟩ := exists_rank hentry
  obtain rfl : slot = rank := Option.some.inj (hslot.symm.trans hrank)
  have hmem : entry ∈ order := horder.mem_iff.mpr (List.mem_range.mpr hentry)
  rw [length_parked_movePlan] at hlt
  rw [MovePlan.takeParked?, if_pos (by omega), Option.map_some]
  show some (left.waiting? slot) = _
  rw [hleave, hwaiting hrank fun other hother => entry_unique hrank hother, if_pos hmem]

end Batch

namespace MovePlan

/-- A plan is set up, whatever its buffers held, exactly for arrays of one length without a repeated
target. Where no source is repeated either, it has both arrays in ascending order, and each target
belongs to one entry. Once a child is parked for every entry, in any order, the child of that entry
is taken at the rank of the target, and nothing when the rank is taken again. No index used lies
outside its array. -/
theorem sorting_permutation (held : MovePlan) (moveFrom moveTo : List Nat) :
    ((∃ plan, setup moveFrom moveTo held = .ok () plan) ↔
      moveFrom.length = moveTo.length ∧ moveTo.Nodup) ∧
    ∀ plan, setup moveFrom moveTo held = .ok () plan →
      ofArrays moveFrom moveTo = .ok plan ∧
      (moveFrom.Nodup →
        (plan.sources.Perm moveFrom ∧ plan.sources.Pairwise (· < ·)) ∧
        (plan.targets.Perm moveTo ∧ plan.targets.Pairwise (· < ·)) ∧
        (∀ rank < plan.size, ∃! entry, plan.Joins moveFrom moveTo entry rank) ∧
        ∀ (child : Nat → Tag) (order taken : List Nat), order.Perm (List.range plan.size) →
          (∀ rank ∈ taken, rank < plan.size) →
            ∃ full left, plan.parkEach? child order = some full ∧
              full.takeEach? taken = some left ∧
              ∀ entry rank, plan.Joins moveFrom moveTo entry rank →
                (left.takeParked? rank).map Prod.fst =
                  some (if rank ∈ taken then none else some (child entry))) := by
  -- the arrays are those of a batch that only moves
  have hsetup : ∀ {plan}, setup moveFrom moveTo held = .ok () plan ↔ _ :=
    @Batch.setup_eq_ok_iff { moveFrom, moveTo } held
  refine ⟨⟨?_, ?_⟩, fun plan hok => ?_⟩
  · rintro ⟨plan, hok⟩
    obtain ⟨hlen, hto, -⟩ := hsetup.mp hok
    exact ⟨hlen, hto⟩
  · rintro ⟨hlen, hto⟩
    exact ⟨_, hsetup.mpr ⟨hlen, hto, rfl⟩⟩
  · obtain ⟨hlen, hto, rfl⟩ := hsetup.mp hok
    have hjoins : moveFrom.Nodup → ∀ {entry rank}, _ ↔ _ := fun hfrom {entry rank} =>
      @Batch.joins_iff { moveFrom, moveTo } entry rank hlen hfrom hto
    -- the parts in turn: both arrays sorted, one entry for each target, and what is taken
    refine ⟨Batch.ofArrays_eq_ok_iff.mpr ⟨hlen, hto, rfl⟩, fun hfrom =>
      ⟨⟨Batch.sources_perm hlen, ?_⟩, ⟨Batch.targets_perm hlen, ?_⟩, fun rank hrank => ?_, ?_⟩⟩
    · exact List.pairwise_map.mpr (Batch.moves_ascending hlen hfrom)
    · exact List.pairwise_map.mpr (Batch.movesByTarget_ascending hlen hto)
    · obtain ⟨entry, hentry⟩ := Batch.exists_entry hrank
      refine ⟨entry, (hjoins hfrom).mpr hentry, fun other hother => ?_⟩
      exact Batch.entry_unique hentry ((hjoins hfrom).mp hother)
    · intro child order taken horder htaken
      obtain ⟨full, left, hfull, hleft, htake⟩ :=
        @Batch.parked_taken { moveFrom, moveTo } child order taken horder htaken
      exact ⟨full, left, hfull, hleft, fun entry rank h => htake ((hjoins hfrom).mp h)⟩

end MovePlan

namespace Sample

/-- The buffers of an earlier plan with one move, whose child was never taken. -/
def usedPlan : MovePlan := { sources := [7], ranks := [0], targets := [3], parked := [some 5] }

end Sample

/-- Three moves in a cycle: 0 to 2, 2 to 0 and 4 to 1. The children are parked from the last source
down; the one from position 2 comes first, also if the one from position 4 was taken before. -/
theorem MovePlan.sorting_permutation_cycle : ∃ plan full left,
    MovePlan.setup [4, 0, 2] [1, 2, 0] Sample.usedPlan = .ok () plan ∧
      plan.sources = [0, 2, 4] ∧ plan.targets = [0, 1, 2] ∧
      plan.parkEach? (fun entry => 10 + entry) [2, 1, 0] = some full ∧
      full.takeEach? [1] = some left ∧
      (left.takeParked? 0).map Prod.fst = some (some 11) ∧
      (left.takeParked? 1).map Prod.fst = some none := by
  obtain ⟨hok, hplan⟩ := MovePlan.sorting_permutation Sample.usedPlan [4, 0, 2] [1, 2, 0]
  obtain ⟨plan, hsetup⟩ := hok.mpr ⟨rfl, by decide⟩
  obtain ⟨harrays, hsorted⟩ := hplan plan hsetup
  have hlists : MovePlan.ofArrays [4, 0, 2] [1, 2, 0] =
      .ok ⟨[0, 2, 4], [2, 0, 1], [0, 1, 2], [none, none, none]⟩ := by
    simp [MovePlan.ofArrays, sortOn, List.mergeSort]
    rfl
  obtain rfl := Except.ok.inj (harrays.symm.trans hlists)
  obtain ⟨-, -, -, hparked⟩ := hsorted (by decide)
  obtain ⟨full, left, hfull, hleft, htake⟩ :=
    hparked (fun entry => 10 + entry) [2, 1, 0] [1] (by decide) (by decide)
  refine ⟨_, full, left, hsetup, rfl, rfl, hfull, hleft, ?_, ?_⟩
  · exact htake 1 0 ⟨2, 0, rfl, rfl, by decide⟩
  · exact htake 2 1 ⟨4, 1, rfl, rfl, by decide⟩

end ShadowMount
