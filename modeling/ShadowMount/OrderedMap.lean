/-!
# Insertion-ordered maps

A map whose entries are kept in the order in which their keys were first put. Putting a key again
overwrites its value in place, so the key keeps its first position.

`OrderedMap.entries` is the view: every operation is described by what it does to this list, and
the field `nodup` says that no key occurs in it twice.
-/

namespace ShadowMount

/-- A finite map with its entries in the order of their first insertion. -/
structure OrderedMap (α β : Type) where
  /-- The entries, in the order in which their keys were first put. -/
  entries : List (α × β) := []
  /-- No key has two entries. -/
  nodup : (entries.map Prod.fst).Nodup := by simp
  deriving DecidableEq

namespace OrderedMap

variable {α β : Type}

/-- The map without entries. -/
def empty : OrderedMap α β := {}

instance : Inhabited (OrderedMap α β) := ⟨empty⟩

/-- The keys, in stored order. -/
def keys (m : OrderedMap α β) : List α := m.entries.map Prod.fst

/-- The values, in stored order. -/
def values (m : OrderedMap α β) : List β := m.entries.map Prod.snd

/-- The number of entries. -/
def size (m : OrderedMap α β) : Nat := m.entries.length

/-- Whether the map has no entry. -/
def isEmpty (m : OrderedMap α β) : Bool := m.entries.isEmpty

/-- Keeps the entries that satisfy `p`, in their order. -/
def filter (p : α × β → Bool) (m : OrderedMap α β) : OrderedMap α β where
  entries := m.entries.filter p
  nodup := m.nodup.sublist (List.filter_sublist.map _)

variable [DecidableEq α]

/-- The value of a key. -/
def get? (m : OrderedMap α β) (key : α) : Option β := m.entries.lookup key

/-- Whether the key has an entry. -/
def contains (m : OrderedMap α β) (key : α) : Bool := decide (key ∈ m.keys)

/-- Overwrites the value of `key` where it stands. -/
def overwrite (key : α) (value : β) (entries : List (α × β)) : List (α × β) :=
  entries.map fun entry => if entry.1 = key then (entry.1, value) else entry

theorem keys_overwrite (key : α) (value : β) (entries : List (α × β)) :
    (overwrite key value entries).map Prod.fst = entries.map Prod.fst := by
  simp only [overwrite, List.map_map]
  refine List.map_congr_left fun entry _ => ?_
  simp only [Function.comp]
  split <;> rfl

/-- Gives `key` the value `value`: in place if the key is there, else at the end. -/
def put (m : OrderedMap α β) (key : α) (value : β) : OrderedMap α β :=
  if h : key ∈ m.entries.map Prod.fst then
    { entries := overwrite key value m.entries
      nodup := by rw [keys_overwrite]; exact m.nodup }
  else
    { entries := m.entries ++ [(key, value)]
      nodup := by
        rw [List.map_append, List.nodup_append]
        refine ⟨m.nodup, by simp, ?_⟩
        intro a ha b hb hab
        simp only [List.map_cons, List.map_nil, List.mem_singleton] at hb
        exact h (hb ▸ hab ▸ ha) }

/-- Puts entries one after the other. -/
def putAll (m : OrderedMap α β) (entries : List (α × β)) : OrderedMap α β :=
  entries.foldl (fun m entry => m.put entry.1 entry.2) m

/-- The map that results from putting `entries` in order into the empty one. -/
def ofList (entries : List (α × β)) : OrderedMap α β := empty.putAll entries

/-! ## Keys and values -/

/-- Exactly the keys have values. -/
theorem isSome_get?_iff {m : OrderedMap α β} {key : α} :
    (m.get? key).isSome = true ↔ key ∈ m.keys := by
  constructor
  · intro h
    obtain ⟨value, hvalue⟩ := Option.isSome_iff_exists.mp h
    obtain ⟨before, after, heq, -⟩ := List.lookup_eq_some_iff.mp hvalue
    rw [keys, heq]
    simp
  · intro h
    obtain ⟨entry, hmem, rfl⟩ := List.mem_map.mp h
    rw [Option.isSome_iff_ne_none, get?, Ne, List.lookup_eq_none_iff]
    intro hnone
    simpa using hnone entry hmem

/-- A put keeps the keys in their order and adds a new key at the end. -/
theorem keys_put (m : OrderedMap α β) (key : α) (value : β) :
    (m.put key value).keys = if key ∈ m.keys then m.keys else m.keys ++ [key] := by
  by_cases h : key ∈ m.entries.map Prod.fst
  · simp only [put, keys, h, ↓reduceDIte, ↓reduceIte, keys_overwrite]
  · simp only [put, keys, h, ↓reduceDIte, ↓reduceIte, List.map_append, List.map_cons, List.map_nil]

theorem lookup_overwrite (key other : α) (value : β) (entries : List (α × β)) :
    (overwrite key value entries).lookup other =
      if other = key then (entries.lookup key).map fun _ => value else entries.lookup other := by
  induction entries with
  | nil => simp [overwrite]
  | cons entry rest ih =>
    obtain ⟨name, current⟩ := entry
    simp only [overwrite, List.map_cons] at ih ⊢
    by_cases hname : other = name
    · subst hname
      by_cases hkey : other = key <;> simp [hkey]
    · have hne : (other == name) = false := by simpa using hname
      by_cases hkey : name = key
      · subst hkey
        simp [List.lookup_cons, hne, hname, ih]
      · by_cases hother : other = key
        · subst hother
          simp [List.lookup_cons, hkey, hne, ih]
        · simp [List.lookup_cons, hkey, hne, hother, ih]

/-- A put gives its key the value and leaves every other key alone. -/
theorem get?_put (m : OrderedMap α β) (key other : α) (value : β) :
    (m.put key value).get? other = if other = key then some value else m.get? other := by
  by_cases h : key ∈ m.entries.map Prod.fst
  · obtain ⟨current, hcurrent⟩ := Option.isSome_iff_exists.mp (isSome_get?_iff.mpr h)
    rw [get?] at hcurrent
    simp only [put, h, ↓reduceDIte, get?, lookup_overwrite, hcurrent, Option.map_some]
  · have hnone : m.entries.lookup key = none :=
      Option.not_isSome_iff_eq_none.mp (mt isSome_get?_iff.mp h)
    simp only [put, h, ↓reduceDIte, get?, List.lookup_append]
    by_cases hother : other = key
    · subst hother
      simp [hnone]
    · have hne : (other == key) = false := by simpa using hother
      simp [hother, List.lookup_cons, hne]

/-- The entries are the pairs of a key and its value. -/
theorem get?_eq_some_iff {m : OrderedMap α β} {key : α} {value : β} :
    m.get? key = some value ↔ (key, value) ∈ m.entries := by
  rw [get?, List.lookup_eq_some_iff]
  constructor
  · rintro ⟨before, after, heq, -⟩
    rw [heq]
    simp
  · intro hmem
    obtain ⟨before, after, heq⟩ := List.append_of_mem hmem
    refine ⟨before, after, heq, fun entry hentry => ?_⟩
    have hnodup := m.nodup
    rw [heq, List.map_append, List.nodup_append] at hnodup
    simpa using (hnodup.2.2 entry.1 (List.mem_map_of_mem hentry) key (by simp)).symm

theorem mem_keys_iff {m : OrderedMap α β} {key : α} :
    key ∈ m.keys ↔ ∃ value, m.get? key = some value := by
  rw [← isSome_get?_iff, Option.isSome_iff_exists]

/-- Maps with the same keys in the same order and the same values are the same. -/
theorem ext_get? {a b : OrderedMap α β} (hkeys : a.keys = b.keys)
    (hget : ∀ key, a.get? key = b.get? key) : a = b := by
  have hpart : ∀ (m : OrderedMap α β) {part : List (α × β)}, part ⊆ m.entries →
      (part.map Prod.fst).filterMap (fun key => (m.get? key).map (key, ·)) = part := by
    intro m part hsub
    induction part with
    | nil => rfl
    | cons entry rest ih =>
      obtain ⟨hentry, hrest⟩ := List.cons_subset.mp hsub
      rw [List.map_cons, List.filterMap_cons, get?_eq_some_iff.mpr hentry, Option.map_some,
        ih hrest]
  have hentries := fun m : OrderedMap α β => hpart m (List.Subset.refl m.entries)
  have hsame : a.entries = b.entries := by
    rw [← hentries a, ← hentries b, ← keys, ← keys, hkeys, funext hget]
  cases a
  cases b
  cases hsame
  rfl

omit [DecidableEq α] in
theorem filter_congr {m : OrderedMap α β} {p q : α × β → Bool}
    (h : ∀ entry ∈ m.entries, p entry = q entry) : m.filter p = m.filter q := by
  simp only [filter, List.filter_congr h]

theorem get?_filter (m : OrderedMap α β) (p : α × β → Bool) (key : α) :
    (m.filter p).get? key = (m.get? key).filter fun value => p (key, value) := by
  refine Option.ext fun value => ?_
  rw [get?_eq_some_iff, filter, List.mem_filter, ← get?_eq_some_iff, Option.filter_eq_some_iff]

/-- New keys follow in the order in which they are put. -/
theorem keys_putAll : ∀ {entries : List (α × β)} (m : OrderedMap α β),
    (entries.map Prod.fst).Nodup →
      (m.putAll entries).keys = m.keys ++ (entries.map Prod.fst).filter (· ∉ m.keys)
  | [], m, _ => (List.append_nil _).symm
  | (key, value) :: rest, m, hnodup => by
    obtain ⟨hfirst, hrest⟩ := List.nodup_cons.mp hnodup
    show ((m.put key value).putAll rest).keys = _
    rw [keys_putAll _ hrest, keys_put, List.map_cons]
    by_cases hkey : key ∈ m.keys
    · rw [if_pos hkey, List.filter_cons_of_neg (by simpa using hkey)]
    · rw [if_neg hkey, List.filter_cons_of_pos (by simpa using hkey), List.append_assoc]
      -- the key is not put a second time
      refine congrArg (fun new => m.keys ++ key :: new) (List.filter_congr fun other hother => ?_)
      have hne : other ≠ key := fun heq => hfirst (heq ▸ hother)
      simp [hne]

/-- What is put replaces what was there. -/
theorem get?_putAll : ∀ {entries : List (α × β)} (m : OrderedMap α β) (key : α),
    (entries.map Prod.fst).Nodup →
      (m.putAll entries).get? key = (entries.lookup key).or (m.get? key)
  | [], _, _, _ => rfl
  | (other, value) :: rest, m, key, hnodup => by
    obtain ⟨hfirst, hrest⟩ := List.nodup_cons.mp hnodup
    show ((m.put other value).putAll rest).get? key = _
    rw [get?_putAll _ _ hrest, get?_put, List.lookup_cons]
    by_cases hkey : key = other
    · subst hkey
      have hnone : rest.lookup key = none := by
        refine List.lookup_eq_none_iff.mpr fun entry hmem => ?_
        have hother : entry.1 ∈ rest.map Prod.fst := List.mem_map_of_mem hmem
        have hne : key ≠ entry.1 := fun heq => hfirst (heq ▸ hother)
        simpa using hne
      simp [hnone]
    · have hne : (key == other) = false := by simpa using hkey
      rw [if_neg hkey, hne]

end OrderedMap

end ShadowMount
