import ShadowMount.Props

/-!
# Deltas of properties

A delta is merged into the properties of a node in full, but only the entries that differ from what
was last sent go to its view. The two stay aligned: the same names in the same order, with values
that are identical or equal. Equality is not reflexive, so an entry may be sent again and again, and
it is not identity, so an entry may not be sent although it is written differently.

* **`PropValue.same_self`** — a value equals itself unless it holds a NaN, at any depth.
* **`Props.Agrees`** — the alignment; `Props.Agrees.merge` is what one delta does to it.
* **`Props.merge_changes`** — the laws of merging and of taking the changes.
-/

namespace ShadowMount

/-! ## Values that differ from themselves

Equality of numbers is that of floating point: a NaN differs from itself, and the two zeros are
equal. Lists of values inherit both. -/

namespace PropValue

mutual

/-- Whether there is a NaN in a value, at any depth. -/
def hasNaN : PropValue → Bool
  | .null | .bool _ | .text _ => false
  | .number value => value.isNaN
  | .list values => anyNaN values

/-- Whether there is a NaN in one of the values. -/
def anyNaN : List PropValue → Bool
  | [] => false
  | value :: values => hasNaN value || anyNaN values

end

mutual

/-- Exactly the values that hold a NaN differ from themselves. -/
theorem same_self : (value : PropValue) → value.same value = !value.hasNaN
  | .null => rfl
  | .bool value => by rw [same, hasNaN, beq_self_eq_true, Bool.not_false]
  | .number value => by rw [same, hasNaN, Binary64.same_self]
  | .text value => by rw [same, hasNaN, beq_self_eq_true, Bool.not_false]
  | .list values => by rw [same, hasNaN, sameAll_self values]

/-- The same for lists of values, which are compared one by one. -/
theorem sameAll_self : (values : List PropValue) → sameAll values values = !anyNaN values
  | [] => rfl
  | value :: values => by rw [sameAll, anyNaN, same_self value, sameAll_self values, Bool.not_or]

end

end PropValue

namespace Props

variable {s d sent props : Props} {name : String}

/-! ## Merging -/

/-- The names stay where they are, and new ones come behind them in the order of the delta. -/
theorem keys_merge (s d : Props) : (merge s d).keys = s.keys ++ d.keys.filter (· ∉ s.keys) :=
  OrderedMap.keys_putAll s d.nodup

/-- The delta has the last word on the names that it has. -/
theorem get?_merge (s d : Props) (name : String) :
    (merge s d).get? name = (d.get? name).or (s.get? name) :=
  OrderedMap.get?_putAll s name d.nodup

/-- Merging once more what is merged already changes nothing. -/
theorem merge_eq_left (hnames : d.keys ⊆ s.keys)
    (hvalues : ∀ {name value}, d.get? name = some value → s.get? name = some value) :
    merge s d = s := by
  refine OrderedMap.ext_get? ?_ fun name => ?_
  · rw [keys_merge, List.filter_eq_nil_iff.mpr fun name hname => ?_, List.append_nil]
    simpa using hnames hname
  · rw [get?_merge]
    cases hvalue : d.get? name with
    | none => rfl
    | some value => exact (hvalues hvalue).symm

/-- To merge a delta again changes nothing. -/
theorem merge_merge (s d : Props) : merge (merge s d) d = merge s d := by
  refine merge_eq_left (fun name hname => ?_) fun {name value} hvalue => ?_
  -- every name of the delta is there after the first merge
  · rw [keys_merge, List.mem_append, List.mem_filter, decide_eq_true_iff]
    by_cases hnew : name ∈ s.keys
    · exact .inl hnew
    · exact .inr ⟨hname, hnew⟩
  · rw [get?_merge, hvalue, Option.some_or]

/-! ## Changes -/

/-- An entry of a delta is a change unless its value equals the one that is there. -/
theorem holds_eq_false_iff {value : PropValue} : s.holds name value = false ↔
    ∀ current, s.get? name = some current → current.same value = false := by
  unfold holds
  cases s.get? name with
  | none => exact ⟨nofun, fun _ => rfl⟩
  | some current =>
    refine ⟨fun h other heq => ?_, fun h => h current rfl⟩
    cases heq
    exact h

/-- The changes are the entries of the delta that are not there with an equal value. -/
theorem get?_changes (s d : Props) (name : String) :
    (changes s d).get? name = (d.get? name).filter fun value => !s.holds name value :=
  OrderedMap.get?_filter ..

/-- The names of the changes. -/
theorem mem_keys_changes : name ∈ (changes s d).keys ↔
    ∃ value, d.get? name = some value ∧ s.holds name value = false := by
  rw [OrderedMap.mem_keys_iff, get?_changes]
  refine exists_congr fun value => ?_
  rw [Option.filter_eq_some_iff, Bool.not_eq_true']

/-- After a merge exactly the entries with a NaN are changes. -/
theorem changes_merge (s d : Props) : changes (merge s d) d = d.filter (·.2.hasNaN) := by
  -- after the merge, the value of the delta is compared with itself
  refine OrderedMap.filter_congr fun entry hmem => ?_
  have hmerged : (merge s d).get? entry.1 = some entry.2 := by
    rw [get?_merge, OrderedMap.get?_eq_some_iff.mpr hmem, Option.some_or]
  simp only [holds, hmerged, PropValue.same_self, Bool.not_not]

/-! ## Alignment

What was sent and what a node holds are changed by the same deltas, the one in part and the other in
full. They need not stay identical, but they stay aligned. -/

/-- The same names in the same order, with values that are identical or equal. -/
structure Agrees (sent props : Props) : Prop where
  /-- The same names, in the same order. -/
  keys : sent.keys = props.keys
  /-- The values of a name are identical, or they are equal. -/
  values : ∀ {name x y}, sent.get? name = some x → props.get? name = some y →
    x = y ∨ x.same y = true

/-- Properties are aligned with themselves. -/
theorem Agrees.refl (props : Props) : props.Agrees props where
  keys := rfl
  values hx hy := .inl (Option.some.inj (hx.symm.trans hy))

/-- The names that are new to a map are all among the changes. -/
theorem new_keys_changes (s d : Props) :
    (changes s d).keys.filter (· ∉ s.keys) = d.keys.filter (· ∉ s.keys) := by
  have hfilter : ∀ m : Props, m.keys.filter (· ∉ s.keys) =
      (m.entries.filter fun entry => entry.1 ∉ s.keys).map Prod.fst := fun m => List.filter_map
  rw [hfilter, hfilter, changes, OrderedMap.filter, List.filter_filter]
  refine congrArg (List.map Prod.fst) (List.filter_congr fun entry _ => ?_)
  -- a name that is not there has no value to compare with, and so it is a change
  by_cases hname : entry.1 ∈ s.keys
  · simp [hname]
  · have hnone : s.get? entry.1 = none :=
      Option.not_isSome_iff_eq_none.mp (mt OrderedMap.isSome_get?_iff.mp hname)
    simp [hname, holds, hnone]

/-- A delta reaches the properties in full, and what was sent by its changes. -/
theorem Agrees.merge (h : sent.Agrees props) (delta : Props) :
    (merge sent (changes sent delta)).Agrees (merge props delta) where
  keys := by rw [keys_merge, keys_merge, new_keys_changes, h.keys]
  values {name x y} hx hy := by
    rw [get?_merge, get?_changes] at hx
    rw [get?_merge] at hy
    -- a name outside of the delta is as it was; one in it has been sent or was equal already
    cases hdelta : delta.get? name with
    | none =>
      rw [hdelta] at hx hy
      exact h.values hx hy
    | some value =>
      rw [hdelta, Option.some_or, Option.some.injEq] at hy
      subst hy
      rw [hdelta] at hx
      cases hholds : sent.holds name value with
      | false =>
        -- the entry is a change, so it replaces what was sent
        simp only [Option.filter, hholds, Bool.not_false, if_true, Option.some_or] at hx
        exact .inl (Option.some.inj hx).symm
      | true =>
        simp only [Option.filter, hholds, Bool.not_true, Bool.false_eq_true, if_false,
          Option.none_or] at hx
        rw [holds, hx] at hholds
        exact .inr hholds

/-! ## The laws -/

/-- Merging the changes that a delta makes comes to the same as merging the delta: the same names in
the same order, with values that are identical or equal. The changes are the entries of the delta, in
its order, whose value is absent or not equal. Merging keeps the names in their order, adds the new
ones in the order of the delta, and gives every name of the delta its value; to merge again changes
nothing. And then the same delta makes no change, exactly if it holds no NaN. -/
theorem merge_changes (s d : Props) :
    (merge s (changes s d)).Agrees (merge s d) ∧
    (changes s d).entries.Sublist d.entries ∧
    (∀ name, name ∈ (changes s d).keys ↔ ∃ value, d.get? name = some value ∧
      ∀ current, s.get? name = some current → current.same value = false) ∧
    (merge s d).keys = s.keys ++ d.keys.filter (· ∉ s.keys) ∧
    (∀ name, (merge s d).get? name = (d.get? name).or (s.get? name)) ∧
    merge (merge s d) d = merge s d ∧ merge s s = s ∧
    ((changes (merge s d) d).isEmpty = true ↔ ∀ value ∈ d.values, value.hasNaN = false) := by
  refine ⟨(Agrees.refl s).merge d, List.filter_sublist, fun name => ?_, keys_merge s d,
    get?_merge s d, merge_merge s d, merge_eq_left (List.Subset.refl _) id, ?_⟩
  · rw [mem_keys_changes]
    exact exists_congr fun value => and_congr_right fun _ => holds_eq_false_iff
  · rw [changes_merge, OrderedMap.isEmpty, List.isEmpty_iff, OrderedMap.filter,
      List.filter_eq_nil_iff, OrderedMap.values, List.forall_mem_map]
    simp only [Bool.not_eq_true]

/-- A NaN in a nested list is sent again, and a zero is not sent for the other zero. -/
example :
    let zero (bits : UInt64) : PropValue := .number ⟨bits⟩
    let sent : Props := .ofList [("inset", zero 0), ("ratio", .list [.number ⟨0x7FF8000000000000⟩])]
    let delta : Props := .ofList
      [("ratio", .list [.number ⟨0x7FF8000000000000⟩]), ("inset", zero 0x8000000000000000)]
    (changes sent delta).keys = ["ratio"] := by decide

end Props

end ShadowMount
