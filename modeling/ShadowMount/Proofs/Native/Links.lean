import ShadowMount.Native.Hierarchy
import ShadowMount.Proofs.Ui.Effects

/-!
# Links between native views

A native view names its parent and lists its children. The operations keep the two directions in
step as long as they are addressed to views that exist; each is described here by what it does to
the three views of a hierarchy: which tags have a view, the child lists, and the parents.

* **`Linked`** — a view is listed exactly by the parent it names.
* **`execute_create`**, **`execute_setChildren`**, **`execute_harmless`**, **`drop_spec`** — what
  executing an operation does, without a violation.
-/

namespace ShadowMount.Native.Hierarchy

variable {κ : Type} {h mid after : Hierarchy κ}

/-- A view is listed exactly by the parent it names. -/
def Linked (h : Hierarchy κ) : Prop := ∀ c p, h.parentOf? c = some p ↔ c ∈ h.childrenOf p

/-- Two hierarchies with the same roots and the same complaints. -/
structure SameRecord (a b : Hierarchy κ) : Prop where
  roots : b.roots = a.roots
  violations : b.violations = a.violations
  droppedAttached : b.droppedAttached = a.droppedAttached

/-- A hierarchy has its own record. -/
theorem SameRecord.refl (a : Hierarchy κ) : SameRecord a a := ⟨rfl, rfl, rfl⟩

/-- Records agree transitively. -/
theorem SameRecord.trans (hab : SameRecord h mid) (hbc : SameRecord mid after) :
    SameRecord h after :=
  ⟨hbc.roots.trans hab.roots, hbc.violations.trans hab.violations,
    hbc.droppedAttached.trans hab.droppedAttached⟩

/-- Two hierarchies that differ at most in the classes, properties and frames of their views. -/
structure SameShape (a b : Hierarchy κ) : Prop where
  record : SameRecord a b
  hasView : ∀ t, b.hasView t = a.hasView t
  children : ∀ t, b.childrenOf t = a.childrenOf t
  parent : ∀ t, b.parentOf? t = a.parentOf? t

/-- A hierarchy has its own shape. -/
theorem SameShape.refl (a : Hierarchy κ) : SameShape a a :=
  ⟨.refl a, fun _ => rfl, fun _ => rfl, fun _ => rfl⟩

/-- Whether the links agree is a matter of shape. -/
theorem SameShape.linked (hshape : SameShape h after) (hlinked : h.Linked) : after.Linked := by
  intro c p
  rw [hshape.parent, hshape.children]
  exact hlinked c p

/-! ## Single views

How the three views of a hierarchy change when one view is written. A change of contents changes
none of them. -/

/-- Only views list children. -/
theorem hasView_of_childrenOf {c p : Tag} (hc : c ∈ h.childrenOf p) : h.hasView p = true := by
  cases hview : h.view? p with
  | none => simp [childrenOf, hview] at hc
  | some view => rw [hasView, hview, Option.isSome_some]

/-- Only views name a parent. -/
theorem hasView_of_parentOf? {c p : Tag} (hp : h.parentOf? c = some p) : h.hasView c = true := by
  cases hview : h.view? c with
  | none => simp [parentOf?, hview] at hp
  | some view => rw [hasView, hview, Option.isSome_some]

/-- An update changes the view at its tag, if there is one, and no other. -/
theorem view?_update (tag t : Tag) (change : View κ → View κ) :
    (h.update tag change).view? t = if tag = t then (h.view? t).map change else h.view? t := by
  unfold update
  cases hview : h.view? tag with
  | none =>
    show h.view? t = _
    split
    · next heq => rw [← heq, hview, Option.map_none]
    · rfl
  | some view =>
    show (h.views.insert tag (change view))[t]? = _
    rw [Std.ExtTreeMap.getElem?_insert]
    by_cases heq : tag = t
    · subst heq
      simp [hview]
    · simp [heq, view?]

/-- An update leaves the roots and the complaints alone. -/
theorem sameRecord_update (tag : Tag) (change : View κ → View κ) :
    SameRecord h (h.update tag change) := by
  unfold update
  split <;> exact ⟨rfl, rfl, rfl⟩

/-- An update neither makes nor removes a view. -/
theorem hasView_update (tag t : Tag) (change : View κ → View κ) :
    (h.update tag change).hasView t = h.hasView t := by
  rw [hasView, view?_update, hasView]
  split
  · rw [Option.isSome_map]
  · rfl

/-! Updates of one view change parents and child lists independently: a change that leaves one of
the two alone in every view leaves it alone in the hierarchy. -/

/-- A change of a view other than its child list. -/
theorem childrenOf_update (tag : Tag) (change : View κ → View κ)
    (hchange : ∀ view, (change view).children = view.children) (t : Tag) :
    (h.update tag change).childrenOf t = h.childrenOf t := by
  rw [childrenOf, view?_update, childrenOf]
  split
  · rw [Option.map_map]
    exact congrArg (fun f => ((h.view? t).map f).getD []) (funext hchange)
  · rfl

/-- A change of a view other than its parent. -/
theorem parentOf?_update (tag : Tag) (change : View κ → View κ)
    (hchange : ∀ view, (change view).parent = view.parent) (t : Tag) :
    (h.update tag change).parentOf? t = h.parentOf? t := by
  rw [parentOf?, view?_update, parentOf?]
  split
  · rw [Option.bind_map]
    exact congrArg (fun f => (h.view? t).bind f) (funext hchange)
  · rfl

/-- A view that is given a parent names it afterwards. -/
theorem parentOf?_setParent {tag : Tag} (hview : h.hasView tag = true) (parent : Option Tag)
    (t : Tag) : (h.update tag ({ · with parent })).parentOf? t =
      if tag = t then parent else h.parentOf? t := by
  obtain ⟨view, hget⟩ := Option.isSome_iff_exists.mp hview
  rw [parentOf?, view?_update]
  split
  · next heq =>
    subst heq
    rw [hget]
    rfl
  · rfl

/-- A view that is given a parent lists the children it had. -/
theorem childrenOf_setParent (tag : Tag) (parent : Option Tag) (t : Tag) :
    (h.update tag ({ · with parent })).childrenOf t = h.childrenOf t := by
  refine childrenOf_update tag _ ?_ t
  exact fun _ => rfl

/-- A view that is given another child list keeps its parent. -/
theorem parentOf?_setChildren (tag : Tag) (change : List Tag → List Tag) (t : Tag) :
    (h.update tag fun view => { view with children := change view.children }).parentOf? t =
      h.parentOf? t := by
  refine parentOf?_update tag _ ?_ t
  exact fun _ => rfl

/-- A change of one child list is found there, and a missing view goes on listing nothing. -/
theorem childrenOf_setChildren {tag : Tag} (change : List Tag → List Tag) (hnil : change [] = [])
    (t : Tag) : (h.update tag fun view => { view with children := change view.children }).childrenOf
      t = if tag = t then change (h.childrenOf t) else h.childrenOf t := by
  rw [childrenOf, view?_update]
  split
  · rw [Option.map_map, childrenOf]
    cases h.view? t with
    | none => exact hnil.symm
    | some view => rfl
  · rfl

/-! ## Detaching and adopting

A view that is adopted is first taken out of the list of another parent, if it has one, and then
names the new parent. -/

/-- A view without a parent is on no list that it would have to leave. -/
theorem detach_of_orphan {tag : Tag} (hparent : h.parentOf? tag = none) : h.detach tag = h := by
  rw [detach, hparent]

/-- A view with a parent forgets it, and then leaves its list. -/
theorem detach_of_parent {tag p : Tag} (hparent : h.parentOf? tag = some p) : h.detach tag =
    (h.update tag ({ · with parent := none })).update p fun view =>
      { view with children := view.children.filter (· != tag) } := by
  rw [detach, hparent]

/-- The links after a view has left its parent. What is said of child lists is said of those of
the views in `within`. -/
structure Detached (h : Hierarchy κ) (tag : Tag) (within : Tag → Prop) (after : Hierarchy κ) :
    Prop where
  record : SameRecord h after
  hasView : ∀ t, after.hasView t = h.hasView t
  parent : ∀ t, after.parentOf? t = if tag = t then none else h.parentOf? t
  children : ∀ q, within q → after.childrenOf q = (h.childrenOf q).filter (· != tag)

/-- A list that does not have an entry is not changed by its removal. -/
theorem filter_ne_of_notMem {l : List Tag} {tag : Tag} (h : tag ∉ l) : l.filter (· != tag) = l := by
  refine List.filter_eq_self.mpr fun c hc => bne_iff_ne.mpr ?_
  rintro rfl
  exact h hc

/-- Leaving a parent, described on those child lists whose direction agrees with the parent link of
the view. The restriction to `within` is there for a list under way, which `adopt_spec` leaves out.
-/
theorem detach_spec {tag : Tag} {within : Tag → Prop}
    (hlinked : ∀ q, within q → (h.parentOf? tag = some q ↔ tag ∈ h.childrenOf q)) :
    h.Detached tag within (h.detach tag) := by
  cases hparent : h.parentOf? tag with
  -- a view without a parent is on none of the lists, so nothing is to be removed
  | none =>
    rw [detach_of_orphan hparent]
    refine ⟨.refl h, fun _ => rfl, fun t => ?_, fun q hq => ?_⟩
    · split
      · next heq => rw [← heq, hparent]
      · rfl
    · refine (filter_ne_of_notMem fun hc => ?_).symm
      rw [(hlinked q hq).mpr hc] at hparent
      cases hparent
  | some p =>
    have hview := hasView_of_parentOf? hparent
    rw [detach_of_parent hparent]
    refine ⟨(sameRecord_update ..).trans (sameRecord_update ..), fun t => ?_, fun t => ?_,
      fun q hq => ?_⟩
    · rw [hasView_update, hasView_update]
    · rw [parentOf?_setChildren p (List.filter (· != tag)), parentOf?_setParent hview]
    · rw [childrenOf_setChildren (List.filter (· != tag)) rfl, childrenOf_setParent]
      split
      · rfl
      · next hne =>
        -- no other list has the view
        refine (filter_ne_of_notMem fun hc => hne ?_).symm
        exact Option.some.inj (hparent.symm.trans ((hlinked q hq).mpr hc))

/-! ## Child lists

Setting a child list releases the children that are listed so far, and adopts the new ones in their
order. The list itself is written last, so in between the two directions of the links disagree, and
only the whole is described. -/

/-- The links while the views of `cs` move below `p`, the list of `p` left aside. -/
structure Adopted (h : Hierarchy κ) (p : Tag) (cs : List Tag) (after : Hierarchy κ) : Prop where
  record : SameRecord h after
  hasView : ∀ t, after.hasView t = h.hasView t
  parent : ∀ t, after.parentOf? t = if t ∈ cs then some p else h.parentOf? t
  children : ∀ q, q ≠ p → after.childrenOf q = (h.childrenOf q).filter (· ∉ cs)

/-- One view moves below `p`. -/
theorem adopt_spec {p c : Tag} (hview : h.hasView c = true)
    (hlinked : ∀ q, q ≠ p → (h.parentOf? c = some q ↔ c ∈ h.childrenOf q)) :
    h.Adopted p [c] (adopt p h c) := by
  have hfilter : ∀ l : List Tag, l.filter (· ∉ [c]) = l.filter (· != c) := by
    intro l
    refine List.filter_congr fun x _ => ?_
    by_cases hx : x = c <;> simp [hx]
  unfold adopt
  by_cases hparent : h.parentOf? c = some p
  · -- it is below `p` already, and no other list has it
    rw [if_pos hparent]
    refine ⟨sameRecord_update .., fun t => hasView_update .., fun t => ?_, fun q hq => ?_⟩
    · rw [parentOf?_setParent hview]
      simp only [List.mem_singleton, eq_comm]
    · rw [childrenOf_setParent, hfilter]
      refine (filter_ne_of_notMem fun hc => hq ?_).symm
      exact Option.some.inj (((hlinked q hq).mpr hc).symm.trans hparent)
  -- it leaves the list it is on, and then names `p`
  · rw [if_neg hparent]
    have hleft : h.Detached c (· ≠ p) (h.detach c) := detach_spec hlinked
    refine ⟨hleft.record.trans (sameRecord_update ..), fun t => ?_, fun t => ?_, fun q hq => ?_⟩
    · exact (hasView_update ..).trans (hleft.hasView t)
    · rw [parentOf?_setParent ((hleft.hasView c).trans hview), hleft.parent]
      by_cases ht : c = t
      · subst ht
        simp
      · rw [if_neg ht, if_neg ht, if_neg fun hmem => ht (List.mem_singleton.mp hmem).symm]
    · rw [childrenOf_setParent, hleft.children q hq, hfilter]

/-- All of them move below `p`. -/
theorem adoptAll_spec {p : Tag} : ∀ {cs : List Tag} {h : Hierarchy κ},
    (∀ c ∈ cs, h.hasView c = true) →
    (∀ c q, q ≠ p → (h.parentOf? c = some q ↔ c ∈ h.childrenOf q)) →
      h.Adopted p cs (cs.foldl (adopt p) h)
  | [], h, _, _ => by
    -- nothing moves, so every list keeps all of its entries
    refine ⟨.refl h, fun _ => rfl, fun t => ?_, fun q _ => ?_⟩
    · rw [if_neg (List.not_mem_nil)]
      rfl
    · exact (List.filter_eq_self.mpr fun _ _ => by simp).symm
  | c :: cs, h, hviews, hlinked => by
    have hfirst := adopt_spec (hviews c (List.mem_cons_self ..)) (hlinked c)
    have hrest : (adopt p h c).Adopted p cs (cs.foldl (adopt p) (adopt p h c)) := by
      refine adoptAll_spec (fun x hx => ?_) fun x q hq => ?_
      · rw [hfirst.hasView]
        exact hviews x (List.mem_cons_of_mem _ hx)
      · rw [hfirst.parent, hfirst.children q hq, List.mem_filter]
        by_cases hx : x ∈ [c]
        · -- the view that moved names `p` and is on no other list
          have hne : some p ≠ some q := fun heq => hq (Option.some.inj heq).symm
          simp [hx, hne]
        · simp only [hx, if_false, not_false_eq_true, decide_true, and_true]
          exact hlinked x q hq
    -- what the first view leaves behind is handed on: a list loses the first view and then the
    -- others
    refine ⟨hfirst.record.trans hrest.record, fun t => ?_, fun t => ?_, fun q hq => ?_⟩
    · exact (hrest.hasView t).trans (hfirst.hasView t)
    · rw [List.foldl_cons, hrest.parent, hfirst.parent]
      by_cases ht : t ∈ cs
      · rw [if_pos ht, if_pos (List.mem_cons_of_mem _ ht)]
      · simp only [ht, if_false, List.mem_cons, List.not_mem_nil, or_false]
    · rw [List.foldl_cons, hrest.children q hq, hfirst.children q hq, List.filter_filter]
      refine List.filter_congr fun x _ => ?_
      by_cases hx : x = c <;> by_cases hx' : x ∈ cs <;> simp [hx, hx']

/-- The old children are released. -/
theorem release_spec : ∀ {cs : List Tag} {h : Hierarchy κ}, (∀ c ∈ cs, h.hasView c = true) →
    SameRecord h (cs.foldl (fun h child => h.update child ({ · with parent := none })) h) ∧
    ∀ t, (cs.foldl (fun h child => h.update child ({ · with parent := none })) h).hasView t =
        h.hasView t ∧
      (cs.foldl (fun h child => h.update child ({ · with parent := none })) h).childrenOf t =
        h.childrenOf t ∧
      (cs.foldl (fun h child => h.update child ({ · with parent := none })) h).parentOf? t =
        if t ∈ cs then none else h.parentOf? t
  | [], h, _ => ⟨.refl h, fun t => ⟨rfl, rfl, by rw [if_neg (List.not_mem_nil)]; rfl⟩⟩
  | c :: cs, h, hviews => by
    have hview := hviews c (List.mem_cons_self ..)
    obtain ⟨hrecord, hrest⟩ := @release_spec cs (h.update c ({ · with parent := none }))
      fun x hx => (hasView_update ..).trans (hviews x (List.mem_cons_of_mem _ hx))
    -- a view is released if it is the first one or among the others; no child list changes here
    refine ⟨(sameRecord_update ..).trans hrecord, fun t => ?_⟩
    obtain ⟨hhas, hchildren, hparent⟩ := hrest t
    refine ⟨hhas.trans (hasView_update ..), hchildren.trans (childrenOf_setParent ..), ?_⟩
    rw [List.foldl_cons, hparent, parentOf?_setParent hview]
    by_cases ht : t ∈ cs
    · rw [if_pos ht, if_pos (List.mem_cons_of_mem _ ht)]
    · by_cases hc : t = c
      · subst hc
        simp [ht]
      · rw [if_neg ht, if_neg (Ne.symm hc), if_neg (by simp [hc, ht])]

/-- The links after `p` got the child list `cs`. -/
structure Relisted (h : Hierarchy κ) (p : Tag) (cs : List Tag) (after : Hierarchy κ) : Prop where
  record : SameRecord h after
  hasView : ∀ t, after.hasView t = h.hasView t
  parent : ∀ t, after.parentOf? t =
    if t ∈ cs then some p else if t ∈ h.childrenOf p then none else h.parentOf? t
  children : ∀ q, after.childrenOf q = if q = p then cs else (h.childrenOf q).filter (· ∉ cs)

/-- Giving a view a list of existing views leaves every link in step. The old children are released
first, so the new ones are adopted in a hierarchy where the list of `p` plays no part; it is written
last, over whatever the adoptions have left there. -/
theorem setChildren_spec {p : Tag} {cs : List Tag} (hlinked : h.Linked) (hp : h.hasView p = true)
    (hcs : ∀ c ∈ cs, h.hasView c = true) : h.Relisted p cs (h.setChildren p cs) := by
  -- all views of the new list exist, so there is nothing to complain about
  have hfound : cs.find? (!h.hasView ·) = none := by
    rw [List.find?_eq_none]
    intro c hc
    rw [hcs c hc]
    decide
  have hold : ∀ c ∈ h.childrenOf p, h.hasView c = true :=
    fun c hc => hasView_of_parentOf? ((hlinked c p).mpr hc)
  -- first the old children are released
  obtain ⟨hrecord, hreleased⟩ := release_spec hold
  rw [setChildren, hfound]
  generalize hreleasedEq : (h.childrenOf p).foldl
    (fun h child => h.update child ({ · with parent := none })) h = released at hrecord hreleased
  -- then the new ones are adopted
  have hadopted : released.Adopted p cs (cs.foldl (adopt p) released) := by
    refine adoptAll_spec (fun c hc => ?_) fun c q hq => ?_
    · rw [(hreleased c).1]
      exact hcs c hc
    · rw [(hreleased c).2.2, (hreleased q).2.1]
      by_cases hc : c ∈ h.childrenOf p
      · -- a child of `p` is on no other list
        have hparent := (hlinked c p).mpr hc
        rw [if_pos hc]
        refine ⟨nofun, fun hmem => ?_⟩
        exact absurd (Option.some.inj (((hlinked c q).mpr hmem).symm.trans hparent)) hq
      · rw [if_neg hc]
        exact hlinked c q
  have hp' : (cs.foldl (adopt p) released).hasView p = true := by
    rw [hadopted.hasView, (hreleased p).1, hp]
  -- and last the list of `p` is written
  refine ⟨(hrecord.trans hadopted.record).trans (sameRecord_update ..), fun t => ?_, fun t => ?_,
    fun q => ?_⟩
  · exact (hasView_update ..).trans ((hadopted.hasView t).trans (hreleased t).1)
  · rw [parentOf?_setChildren p (fun _ => cs), hadopted.parent, (hreleased t).2.2]
  · obtain ⟨view, hview⟩ := Option.isSome_iff_exists.mp hp'
    rw [childrenOf, view?_update]
    by_cases hq : q = p
    · subst hq
      rw [if_pos rfl, if_pos rfl, hview]
      rfl
    · rw [if_neg (Ne.symm hq), if_neg hq, ← (hreleased q).2.1, ← hadopted.children q hq]
      rfl

/-- After a new child list the links agree again. -/
theorem Relisted.linked {p : Tag} {cs : List Tag} (hrelisted : h.Relisted p cs after)
    (hlinked : h.Linked) : after.Linked := by
  intro c q
  rw [hrelisted.parent, hrelisted.children]
  -- a view of the new list names `p`, and is taken off every other list
  by_cases hc : c ∈ cs
  · rw [if_pos hc]
    by_cases hq : q = p
    · rw [if_pos hq, hq]
      exact ⟨fun _ => hc, fun _ => rfl⟩
    · rw [if_neg hq]
      refine ⟨fun heq => absurd (Option.some.inj heq).symm hq, fun hmem => ?_⟩
      exact absurd hc (by simpa using (List.mem_filter.mp hmem).2)
  · rw [if_neg hc]
    by_cases hq : q = p
    · -- left out of the new list: released if it was in the old one, elsewhere if it was not
      subst hq
      rw [if_pos rfl]
      refine ⟨fun heq => ?_, fun hmem => absurd hmem hc⟩
      by_cases hold : c ∈ h.childrenOf q
      · rw [if_pos hold] at heq
        cases heq
      · rw [if_neg hold] at heq
        exact absurd ((hlinked c q).mp heq) hold
    · rw [if_neg hq, List.mem_filter]
      by_cases hold : c ∈ h.childrenOf p
      · rw [if_pos hold]
        refine ⟨nofun, fun ⟨hmem, _⟩ => ?_⟩
        have hparent := (hlinked c p).mpr hold
        exact absurd (Option.some.inj (((hlinked c q).mpr hmem).symm.trans hparent)) hq
      · rw [if_neg hold, hlinked c q]
        simp [hc]

/-! ## Drops

A view that is dropped is taken from its parent, and its children lose theirs. -/

/-- The hierarchy in which it is noted that a view is dropped below its parent, if it has one. -/
def noting (h : Hierarchy κ) (tag : Tag) : Hierarchy κ :=
  { h with droppedAttached := h.droppedAttached ++ ((h.parentOf? tag).map (tag, ·)).toList }

/-- The hierarchy without a view. -/
def without (h : Hierarchy κ) (tag : Tag) : Hierarchy κ := { h with views := h.views.erase tag }

/-- Without a view, its tag names nothing and the others what they named. -/
theorem view?_without (tag t : Tag) :
    (h.without tag).view? t = if tag = t then none else h.view? t := by
  show (h.views.erase tag)[t]? = _
  rw [Std.ExtTreeMap.getElem?_erase]
  by_cases heq : tag = t <;> simp [heq, view?]

/-- Dropping a view without children is noting it, detaching it and erasing it. The links agree, so
a view with a parent is on its list, and the drop is always noted. -/
theorem drop_eq {tag : Tag} (hlinked : h.Linked) (hchildren : h.childrenOf tag = []) :
    h.drop tag = ((h.noting tag).detach tag).without tag := by
  unfold drop noting
  rw [hchildren]
  cases hparent : h.parentOf? tag with
  | none =>
    show (h.detach tag).without tag = _
    rw [Option.map_none, Option.toList_none, List.append_nil]
  | some p =>
    have hlists : (h.childrenOf p).contains tag = true :=
      List.contains_iff_mem.mpr ((hlinked tag p).mp hparent)
    show ((if (h.childrenOf p).contains tag = true then
      { h with droppedAttached := h.droppedAttached ++ [(tag, p)] } else h).detach tag).without tag = _
    rw [if_pos hlists]
    rfl

/-- The links after a view without children is dropped. -/
structure Dropped (h : Hierarchy κ) (tag : Tag) (after : Hierarchy κ) : Prop where
  violations : after.violations = h.violations
  droppedAttached : after.droppedAttached =
    h.droppedAttached ++ ((h.parentOf? tag).map (tag, ·)).toList
  hasView : ∀ t, after.hasView t = (h.hasView t && t != tag)
  parent : ∀ t, after.parentOf? t = if t = tag then none else h.parentOf? t
  children : ∀ q, after.childrenOf q = if q = tag then [] else (h.childrenOf q).filter (· != tag)

/-- Dropping a view without children takes it out of the views and off the list of its parent. -/
theorem drop_spec {tag : Tag} (hlinked : h.Linked) (hchildren : h.childrenOf tag = []) :
    h.Dropped tag (h.drop tag) ∧ (h.drop tag).roots = h.roots := by
  have hdetached : (h.noting tag).Detached tag (fun _ => True) ((h.noting tag).detach tag) :=
    detach_spec fun q _ => hlinked tag q
  rw [drop_eq hlinked hchildren]
  refine ⟨⟨hdetached.record.violations, hdetached.record.droppedAttached, fun t => ?_, fun t => ?_,
    fun q => ?_⟩, hdetached.record.roots⟩
  -- the view is gone, and so are its own parent link and its list
  · rw [hasView, view?_without]
    by_cases ht : tag = t
    · rw [if_pos ht, ht]
      simp
    · rw [if_neg ht, bne_iff_ne.mpr (Ne.symm ht), Bool.and_true]
      exact hdetached.hasView t
  · rw [parentOf?, view?_without]
    by_cases ht : tag = t
    · rw [if_pos ht, if_pos ht.symm]
      rfl
    · rw [if_neg ht, if_neg (Ne.symm ht)]
      exact (hdetached.parent t).trans (if_neg ht)
  · rw [childrenOf, view?_without]
    by_cases hq : tag = q
    · rw [if_pos hq, if_pos hq.symm]
      rfl
    · rw [if_neg hq, if_neg (Ne.symm hq)]
      exact hdetached.children q trivial

/-- The links agree after a drop, as both directions lose the dropped view. -/
theorem Dropped.linked {tag : Tag} (hdropped : h.Dropped tag after) (hlinked : h.Linked)
    (hchildren : h.childrenOf tag = []) : after.Linked := by
  intro c q
  rw [hdropped.parent, hdropped.children]
  by_cases hc : c = tag
  · subst hc
    rw [if_pos rfl]
    by_cases hq : q = c <;> simp [hq]
  · rw [if_neg hc, hlinked c q]
    by_cases hq : q = tag
    · rw [if_pos hq, hq, hchildren]
    · rw [if_neg hq, List.mem_filter]
      simp [hc]

/-! ## Operations

One description for each kind of operation, for views that exist. Frames, properties and requests
change no link. -/

/-- Making a view under a tag that has none. -/
structure Created (h : Hierarchy κ) (tag : Tag) (after : Hierarchy κ) : Prop where
  record : SameRecord h after
  hasView : ∀ t, after.hasView t = (h.hasView t || t == tag)
  parent : ∀ t, after.parentOf? t = h.parentOf? t
  children : ∀ q, after.childrenOf q = h.childrenOf q

/-- Making a view under a free tag inserts it. -/
theorem execute_create_eq {tag : Tag} (root : Tag) (viewClass : String) (props : Props)
    (hnone : h.hasView tag = false) : h.execute (.create tag root viewClass props) =
      { h with
        executed := h.executed ++ [.create tag root viewClass props]
        views := h.views.insert tag { viewClass, props } } := by
  have hnone' : ({ h with executed := h.executed ++ [.create tag root viewClass props] } :
      Hierarchy κ).hasView tag = false := hnone
  rw [execute, perform, hnone', if_neg Bool.false_ne_true]

/-- A new view has no parent and no children, so no link changes. -/
theorem execute_create {tag : Tag} (root : Tag) (viewClass : String) (props : Props)
    (hnone : h.hasView tag = false) :
    h.Created tag (h.execute (.create tag root viewClass props)) := by
  have hview : h.view? tag = none := by
    rw [hasView] at hnone
    exact Option.not_isSome_iff_eq_none.mp (by rw [hnone]; decide)
  rw [execute_create_eq root viewClass props hnone]
  generalize hafter : ({ h with
    executed := h.executed ++ [.create tag root viewClass props]
    views := h.views.insert tag { viewClass, props } } : Hierarchy κ) = after
  have hget : ∀ t, after.view? t = if tag = t then some { viewClass, props } else h.view? t := by
    intro t
    rw [← hafter]
    show (h.views.insert tag _)[t]? = _
    rw [Std.ExtTreeMap.getElem?_insert]
    by_cases heq : tag = t <;> simp [heq, view?]
  refine ⟨?_, fun t => ?_, fun t => ?_, fun q => ?_⟩
  · rw [← hafter]
    exact ⟨rfl, rfl, rfl⟩
  · rw [hasView, hget, hasView]
    by_cases ht : tag = t
    · subst ht
      simp
    · rw [if_neg ht, beq_eq_false_iff_ne.mpr (Ne.symm ht), Bool.or_false]
  · -- neither the new view nor a missing one has a parent
    rw [parentOf?, hget, parentOf?]
    split
    · next heq => rw [← heq, hview]; rfl
    · rfl
  · rw [childrenOf, hget, childrenOf]
    split
    · next heq => rw [← heq, hview]; rfl
    · rfl

/-- A new view keeps the links in step. -/
theorem Created.linked {tag : Tag} (hcreated : h.Created tag after) (hlinked : h.Linked) :
    after.Linked := by
  intro c p
  rw [hcreated.parent, hcreated.children]
  exact hlinked c p

/-- Executing an update of a child list that names existing views leaves every link in step. -/
theorem execute_setChildren {p : Tag} {cs : List Tag} (hlinked : h.Linked) (hp : h.hasView p = true)
    (hcs : ∀ c ∈ cs, h.hasView c = true) :
    h.Relisted p cs (h.execute (.setChildren p cs)) := by
  have hspec := @setChildren_spec _ { h with executed := h.executed ++ [.setChildren p cs] } p cs
    hlinked hp hcs
  have hp' : ({ h with executed := h.executed ++ [.setChildren p cs] } : Hierarchy κ).hasView p =
      true := hp
  rw [execute, perform, require, if_pos hp']
  exact ⟨⟨hspec.record.roots, hspec.record.violations, hspec.record.droppedAttached⟩, hspec.hasView,
    hspec.parent, hspec.children⟩

/-- A change of class, properties or frame is no change of shape. -/
theorem sameShape_update (tag : Tag) (change : View κ → View κ)
    (hparent : ∀ view, (change view).parent = view.parent)
    (hchildren : ∀ view, (change view).children = view.children) :
    SameShape h (h.update tag change) :=
  ⟨sameRecord_update .., fun _ => hasView_update .., childrenOf_update tag change hchildren,
    parentOf?_update tag change hparent⟩

/-- An operation addressed to existing views that makes or drops none and leaves child lists alone
changes no link. -/
theorem execute_harmless {operation : Operation κ}
    (hharmless : operation.Harmless fun tag => h.hasView tag = true) :
    SameShape h (h.execute operation) := by
  -- the record of executed operations is no part of the shape
  have hkeep : ∀ {b : Hierarchy κ}, SameShape { h with executed := h.executed ++ [operation] } b →
      SameShape h b := fun hb =>
    ⟨⟨hb.record.roots, hb.record.violations, hb.record.droppedAttached⟩, hb.hasView, hb.children,
      hb.parent⟩
  have hrequire : ∀ {tag : Tag} {purpose : Purpose} {next : Hierarchy κ → Hierarchy κ},
      h.hasView tag = true →
      ({ h with executed := h.executed ++ [operation] } : Hierarchy κ).require tag purpose next =
        next { h with executed := h.executed ++ [operation] } := fun htag => if_pos htag
  refine hkeep ?_
  unfold execute
  -- what remains are updates of one view, and requests that touch none
  cases operation with
  | setProps tag viewClass props =>
    rw [perform, hrequire hharmless]
    exact sameShape_update tag _ (fun _ => rfl) fun _ => rfl
  | setFrame tag parent frame =>
    rw [perform, hrequire hharmless.1, hrequire hharmless.2]
    exact sameShape_update tag _ (fun _ => rfl) fun _ => rfl
  | clearResponder => exact .refl _
  | create => cases hharmless
  | setChildren => cases hharmless
  | drop => cases hharmless
  | dropRoot => cases hharmless
  | _ =>
    rw [perform, hrequire hharmless]
    exact .refl _

end ShadowMount.Native.Hierarchy
