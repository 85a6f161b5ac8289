import Mathlib.Tactic.Choose
import ShadowMount.Mount.Measure
import ShadowMount.Proofs.Outcome
import ShadowMount.Proofs.Tree.Links

/-!
# Walks on well-formed trees

Every walk of the library carries a budget of steps. On a well-formed tree the budget is never
spent: a way up is no longer than the lineage of its start, and a way down from a node adds to its
lineage. So each walk answers, and this module says what it answers.

* **`lineage_eq`** — the walk to the top answers the lineage.
* **`NativeParent`** — the nearest mounting strict ancestor, as a relation; `nativeParent_cases`
  says that the walk computes it.
* **`nativeChildren_spec`** — the native child list has exactly the created mounting nodes that are
  exposed to the node.
* **`postOrder_spec`** — the post-order lists the subtree once, descendants first.

The downward answers depend on the subtree alone (`nativeChildren_congr`, `subtree_congr`).
-/

namespace ShadowMount

/-- A gathering whose parts all answer. -/
theorem gather_eq_flatMap {ε α β : Type} {f : α → Except ε (List β)} {g : α → List β}
    {as : List α} (h : ∀ a ∈ as, f a = .ok (g a)) : gather f as = .ok (as.flatMap g) := by
  induction as with
  | nil => rfl
  | cons a as ih =>
    -- the parts run in order, so an answer of the whole is the first answer followed by the others
    rw [gather, h a (List.mem_cons_self ..), ok_bind, ih fun b hb => h b (List.mem_cons_of_mem _ hb),
      ok_bind, List.flatMap_cons]
    rfl

/-- A gathering depends on its parts alone. -/
theorem gather_congr {ε α β : Type} {f g : α → Except ε (List β)} {as : List α}
    (h : ∀ a ∈ as, f a = g a) : gather f as = gather g as := by
  induction as with
  | nil => rfl
  | cons a as ih =>
    rw [gather, gather, h a (List.mem_cons_self ..), ih fun b hb => h b (List.mem_cons_of_mem _ hb)]

/-- A gathering keeps its answer when its parts do. -/
theorem gather_mono {ε α β : Type} {f g : α → Except ε (List β)}
    (h : ∀ {a bs}, f a = .ok bs → g a = .ok bs) {as : List α} {bs : List β}
    (hf : gather f as = .ok bs) : gather g as = .ok bs := by
  induction as generalizing bs with
  | nil => exact hf
  | cons a as ih =>
    rw [gather] at hf ⊢
    obtain ⟨first, hfirst, hf⟩ := query_bind_eq_ok_iff.mp hf
    obtain ⟨rest, hrest, hf⟩ := query_bind_eq_ok_iff.mp hf
    rw [h hfirst, ok_bind, ih hrest, ok_bind]
    exact hf

namespace Tree

variable {κ : Type} {tree : Tree κ}

/-! ## Upwards

Walks from a node to the top, against its lineage. -/

/-- With at least as many steps as the lineage is long, the walk to the top answers the lineage. The
induction is on the lineage, so it follows the walk link by link. -/
theorem lineageFrom_eq {t : Tag} {l : List Tag} (h : tree.Lineage t l) :
    ∀ {steps : Nat}, l.length ≤ steps → tree.lineageFrom steps t = .ok l := by
  induction h with
  | top hcontains hnone =>
    intro steps hsteps
    obtain ⟨node, hget⟩ := contains_iff.mp hcontains
    obtain ⟨steps, rfl⟩ : ∃ k, steps = k + 1 := ⟨steps - 1, by simp at hsteps; omega⟩
    rw [parentOf?_of_get? hget] at hnone
    rw [lineageFrom, node_of_get? hget, ok_bind, hnone]
    rfl
  | up hparent _ ih =>
    intro steps hsteps
    obtain ⟨node, hget, hnode⟩ := get?_of_parentOf? hparent
    -- one step goes to the parent, and one fewer is left for the rest of the way
    rw [List.length_cons] at hsteps
    obtain ⟨steps, rfl⟩ : ∃ k, steps = k + 1 := ⟨steps - 1, by omega⟩
    rw [lineageFrom, node_of_get? hget, ok_bind, hnode]
    show (tree.lineageFrom steps _ >>= fun l => pure (_ :: l)) = _
    rw [ih (by omega), ok_bind]
    rfl

/-- The walk to the top answers the lineage. -/
theorem lineage_eq {t : Tag} {l : List Tag} (hwf : tree.WellFormed) (h : tree.Lineage t l) :
    tree.lineage t = .ok l := by
  refine lineageFrom_eq h ?_
  have := h.length_le_size hwf
  rw [budget]
  omega

/-- `Exposed tree c p`: `p` is a strict ancestor of `c` and no node strictly between them mounts,
so the view of `c` lies directly in the view of `p` if `p` has one. -/
inductive Exposed (tree : Tree κ) (p : Tag) : Tag → Prop
  | parent {c : Tag} : tree.parentOf? c = some p → Exposed tree p c
  | beyond {c q : Tag} :
      tree.parentOf? c = some q → tree.mountsAt q = false → Exposed tree p q → Exposed tree p c

/-- The nearest mounting strict ancestor. -/
def NativeParent (tree : Tree κ) (c p : Tag) : Prop :=
  tree.Exposed p c ∧ tree.mountsAt p = true

/-- Exposure is a special case of ancestry. -/
theorem Exposed.ancestor {c p : Tag} (h : tree.Exposed p c) : tree.Ancestor p c := by
  induction h with
  | parent hparent => exact .parent hparent
  | beyond hparent _ _ ih => exact .step hparent ih

theorem NativeParent.ancestor {c p : Tag} (h : tree.NativeParent c p) : tree.Ancestor p c :=
  h.1.ancestor

/-- Below a mounting node there is a nearest one. -/
theorem Ancestor.exists_nativeParent {a c : Tag} (h : tree.Ancestor a c)
    (hmounts : tree.mountsAt a = true) : ∃ p, tree.NativeParent c p := by
  induction h with
  | parent hparent => exact ⟨a, .parent hparent, hmounts⟩
  | @step c q hparent _ ih =>
    cases hq : tree.mountsAt q with
    | true => exact ⟨q, .parent hparent, hq⟩
    | false =>
      obtain ⟨p, hexposed, hp⟩ := ih
      exact ⟨p, .beyond hparent hq hexposed, hp⟩

/-- A mounting ancestor of an exposed node is not below the node it is exposed to. -/
theorem Exposed.mounting_ancestor {c p a : Tag} (h : tree.Exposed p c) (ha : tree.Ancestor a c)
    (hmounts : tree.mountsAt a = true) : tree.InSubtree a p := by
  induction h with
  | parent hparent =>
    obtain ⟨q, hq, hsub⟩ := ha.parent_inSubtree
    obtain rfl := Option.some.inj (hparent.symm.trans hq)
    exact hsub
  | beyond hparent hnot _ ih =>
    obtain ⟨q, hq, hsub⟩ := ha.parent_inSubtree
    obtain rfl := Option.some.inj (hparent.symm.trans hq)
    rcases hsub with rfl | ha'
    · rw [hnot] at hmounts
      cases hmounts
    · exact ih ha'

/-- No node has two nearest mounting ancestors: each of the two would lie in the subtree of the
other. -/
theorem NativeParent.unique (hwf : tree.WellFormed) {c p q : Tag} (hp : tree.NativeParent c p)
    (hq : tree.NativeParent c q) : p = q := by
  -- `p` lies at or above `q`, because nothing that mounts stands between `c` and `q`, and
  -- conversely
  rcases hp.1.mounting_ancestor hq.ancestor hq.2 with h | h
  · exact h
  · rcases hq.1.mounting_ancestor hp.ancestor hp.2 with h' | h'
    · exact h'.symm
    · exact absurd (h.trans h') (hwf.not_ancestor_self _)

/-- Exposure is kept by a tree with the same links on the way up and the same flags in between. -/
theorem Exposed.transport {other : Tree κ} {c p : Tag} (h : tree.Exposed p c)
    (hparent : ∀ x, tree.InSubtree x c → other.parentOf? x = tree.parentOf? x)
    (hmounts : ∀ x, tree.Ancestor x c → tree.Ancestor p x → tree.mountsAt x = false →
      other.mountsAt x = false) : other.Exposed p c := by
  induction h with
  | parent hp => exact .parent ((hparent _ (.refl _)).trans hp)
  | beyond hp hnot hrest ih =>
    -- the links and flags on the rest of the way are those of a way that starts one node higher
    refine .beyond ((hparent _ (.refl _)).trans hp) (hmounts _ (.parent hp) hrest.ancestor hnot)
      (ih ?_ ?_)
    · exact fun x hx => hparent x (hx.child hp)
    · exact fun x hx => hmounts x (.step hp hx)

/-- What lies in between is exposed too. -/
theorem Exposed.between (hwf : tree.WellFormed) {c p t : Tag} (h : tree.Exposed p c)
    (ht : tree.Ancestor t c) (hp : tree.Ancestor p t) : tree.Exposed p t := by
  induction h with
  | parent hparent =>
    obtain ⟨q, hq, hsub⟩ := ht.parent_inSubtree
    obtain rfl := Option.some.inj (hparent.symm.trans hq)
    -- the parent itself is `p`, so nothing lies strictly in between
    exact absurd hp (hwf.not_ancestor_of_inSubtree hsub)
  | beyond hparent _ hrest ih =>
    obtain ⟨q, hq, hsub⟩ := ht.parent_inSubtree
    obtain rfl := Option.some.inj (hparent.symm.trans hq)
    rcases hsub with rfl | ht'
    · exact hrest
    · exact ih ht'

/-- Looking past a parent that does not mount. -/
theorem nativeParent_beyond_iff {c q p : Tag} (hparent : tree.parentOf? c = some q)
    (hnot : tree.mountsAt q = false) : tree.NativeParent c p ↔ tree.NativeParent q p := by
  constructor
  · rintro ⟨hexposed, hmounts⟩
    -- a parent that does not mount cannot be the nearest mounting ancestor itself
    cases hexposed with
    | parent hparent' =>
      obtain rfl := Option.some.inj (hparent.symm.trans hparent')
      rw [hnot] at hmounts
      cases hmounts
    | beyond hparent' _ hrest =>
      obtain rfl := Option.some.inj (hparent.symm.trans hparent')
      exact ⟨hrest, hmounts⟩
  · rintro ⟨hexposed, hmounts⟩
    exact ⟨.beyond hparent hnot hexposed, hmounts⟩

/-- The climb from a parent link: it finds the nearest mounting ancestor, or there is none. -/
theorem firstMounting_cases (hwf : tree.WellFormed) {t : Tag} {l : List Tag}
    (h : tree.Lineage t l) : ∀ {steps : Nat}, l.length ≤ steps →
      (∃ p, tree.firstMounting steps (tree.parentOf? t) = .ok (some p) ∧ tree.NativeParent t p) ∨
      (tree.firstMounting steps (tree.parentOf? t) = .ok none ∧ ∀ p, ¬ tree.NativeParent t p) := by
  induction h with
  | @top t hcontains hnone =>
    intro steps _
    -- a node without a parent has no ancestor, let alone one that mounts
    refine .inr ⟨by rw [hnone, firstMounting]; rfl, fun p hp => ?_⟩
    obtain ⟨q, hq, -⟩ := hp.ancestor.parent_inSubtree
    rw [hnone] at hq
    cases hq
  | @up t q l hparent hrest ih =>
    intro steps hsteps
    rw [List.length_cons] at hsteps
    have hpos := hrest.length_pos
    obtain ⟨steps, rfl⟩ : ∃ k, steps = k + 1 := ⟨steps - 1, by omega⟩
    obtain ⟨node, hget⟩ := contains_iff.mp (hwf.contains_parent hparent)
    -- the first node looked at is the parent `q`: it is the answer, or it is looked past
    rw [hparent, firstMounting, node_of_get? hget, ok_bind]
    cases hmounts : node.mounts with
    | true =>
      refine .inl ⟨q, rfl, .parent hparent, ?_⟩
      rw [mountsAt_of_get? hget, hmounts]
    | false =>
      have hnot : tree.mountsAt q = false := by rw [mountsAt_of_get? hget, hmounts]
      rw [if_neg Bool.false_ne_true, ← parentOf?_of_get? hget]
      rcases @ih steps (by omega) with ⟨p, heq, hp⟩ | ⟨heq, hno⟩
      · exact .inl ⟨p, heq, (nativeParent_beyond_iff hparent hnot).mpr hp⟩
      · exact .inr ⟨heq, fun p hp => hno p ((nativeParent_beyond_iff hparent hnot).mp hp)⟩

/-- The walk to the native parent answers it, or answers that there is none. -/
theorem nativeParent_cases (hwf : tree.WellFormed) {t : Tag} (ht : tree.contains t = true) :
    (∃ p, tree.nativeParent t = .ok (some p) ∧ tree.NativeParent t p) ∨
    (tree.nativeParent t = .ok none ∧ ∀ p, ¬ tree.NativeParent t p) := by
  obtain ⟨l, hl⟩ := hwf.exists_lineage ht
  obtain ⟨node, hget⟩ := contains_iff.mp ht
  have hlen := hl.length_le_size hwf
  have hcases := @firstMounting_cases _ _ hwf _ _ hl tree.budget (by rw [budget]; omega)
  rwa [parentOf?_of_get? hget, ← ok_bind node (fun node => tree.firstMounting _ node.parent),
    ← node_of_get? hget] at hcases

/-- The walk to the native parent answers the nearest mounting ancestor where there is one. -/
theorem nativeParent_eq_some (hwf : tree.WellFormed) {t p : Tag} (hp : tree.NativeParent t p) :
    tree.nativeParent t = .ok (some p) := by
  rcases nativeParent_cases hwf hp.ancestor.contains with ⟨q, heq, hq⟩ | ⟨-, hno⟩
  · rw [heq, hq.unique hwf hp]
  · exact absurd hp (hno p)

/-- The summation of offsets answers whenever its start is the parent of a node, for a budget as
long as the lineage of that node. What the sum is does not matter here; see `Mount.Placement`. -/
theorem sumOffsets_ok [Coordinate κ] (hwf : tree.WellFormed) {t : Tag} {l : List Tag}
    (h : tree.Lineage t l) : ∀ {steps : Nat} (total : κ × κ), l.length ≤ steps →
      ∃ offset, tree.sumOffsets steps (tree.parentOf? t) total = .ok offset := by
  induction h with
  | top _ hnone =>
    intro steps total _
    exact ⟨total, by rw [hnone, sumOffsets]; rfl⟩
  | @up t q l hparent hrest ih =>
    intro steps total hsteps
    rw [List.length_cons] at hsteps
    have hpos := hrest.length_pos
    obtain ⟨steps, rfl⟩ : ∃ k, steps = k + 1 := ⟨steps - 1, by omega⟩
    obtain ⟨node, hget⟩ := contains_iff.mp (hwf.contains_parent hparent)
    obtain ⟨dx, dy⟩ := total
    rw [hparent, sumOffsets, node_of_get? hget, ok_bind]
    -- the sum ends below the first mounting node, and goes on past any other
    cases node.mounts with
    | true => exact ⟨(dx, dy), rfl⟩
    | false =>
      rw [if_neg Bool.false_ne_true, ← parentOf?_of_get? hget]
      exact ih _ (by omega)

/-- The offset of a registered node in its native parent is always found. -/
theorem offsetInNativeParent_ok [Coordinate κ] (hwf : tree.WellFormed) {t : Tag}
    (ht : tree.contains t = true) : ∃ offset, tree.offsetInNativeParent t = .ok offset := by
  obtain ⟨l, hl⟩ := hwf.exists_lineage ht
  obtain ⟨node, hget⟩ := contains_iff.mp ht
  have hlen := hl.length_le_size hwf
  rw [offsetInNativeParent, node_of_get? hget, ok_bind, ← parentOf?_of_get? hget]
  exact sumOffsets_ok hwf hl (0, 0) (by rw [budget]; omega)

/-! ## Downwards

Walks from a node into its subtree. By induction on the budget, where the lineage of a node and the
budget for its subtree together are bounded by the number of nodes. -/

/-- A registered node answers its children. -/
theorem children_eq {t : Tag} (ht : tree.contains t = true) :
    tree.children t = .ok (tree.childrenOf t) := by
  obtain ⟨node, hget⟩ := contains_iff.mp ht
  rw [children, node_of_get? hget, childrenOf_of_get? hget]
  rfl

/-- The lineage of a child, one longer than that of its parent: the measure of downward walks. -/
theorem WellFormed.lineage_child (hwf : tree.WellFormed) {t c : Tag} {l : List Tag}
    (hl : tree.Lineage t l) (hc : c ∈ tree.childrenOf t) : tree.Lineage c (c :: l) :=
  .up (hwf.link.mp hc) hl

/-- Exposure seen from above: the first step down is to a child that is met or looked past. -/
theorem exposed_iff_child {t x : Tag} :
    tree.Exposed t x ↔ ∃ c, tree.parentOf? c = some t ∧
      (x = c ∨ tree.mountsAt c = false ∧ tree.Exposed c x) := by
  constructor
  · intro h
    -- by induction up from `x`: the last step of the way down is the first of the way up
    induction h with
    | parent hparent => exact ⟨_, hparent, .inl rfl⟩
    | beyond hparent hnot _ ih =>
      obtain ⟨c, hc, hcase⟩ := ih
      refine ⟨c, hc, .inr ?_⟩
      rcases hcase with rfl | ⟨hnotc, hexposed⟩
      · exact ⟨hnot, .parent hparent⟩
      · exact ⟨hnotc, .beyond hparent hnot hexposed⟩
  · rintro ⟨c, hc, rfl | ⟨hnot, hexposed⟩⟩
    -- conversely, a child that is looked past extends the way at its upper end
    · exact .parent hc
    · induction hexposed with
      | parent hparent => exact .beyond hparent hnot (.parent hc)
      | beyond hparent hnotq _ ih => exact .beyond hparent hnotq ih

/-- What a node contributes to a native child list: the created mounting nodes met first on the
ways down from it. -/
theorem contribution_spec (hwf : tree.WellFormed) : ∀ {steps : Nat} {t : Tag} {l : List Tag},
    tree.Lineage t l → tree.size < steps + l.length →
      ∃ xs, tree.contribution steps t = .ok xs ∧ ∀ x, x ∈ xs ↔
        (x = t ∨ tree.mountsAt t = false ∧ tree.Exposed t x) ∧
          tree.mountsAt x = true ∧ tree.createdAt x = true
  | 0, t, l, hl, hsteps => by
    -- the way up from `t` is no longer than the tree is large, so the steps do not run out
    have := hl.length_le_size hwf
    omega
  | steps + 1, t, l, hl, hsteps => by
    obtain ⟨node, hget⟩ := contains_iff.mp hl.contains
    have hmountsAt := mountsAt_of_get? hget
    rw [contribution, node_of_get? hget, ok_bind]
    cases hmounts : node.mounts with
    | true =>
      -- a mounting node hides what is below it, whether or not it has a view yet
      rw [hmounts] at hmountsAt
      refine ⟨_, rfl, fun x => ?_⟩
      have hcreatedAt := createdAt_of_get? hget
      cases hcreated : node.created <;> rw [hcreated] at hcreatedAt
      · rw [if_neg Bool.false_ne_true]
        refine ⟨nofun, ?_⟩
        rintro ⟨rfl | ⟨hnot, -⟩, -, hx⟩
        · rw [hcreatedAt] at hx
          cases hx
        · rw [hmountsAt] at hnot
          cases hnot
      · rw [if_pos rfl, List.mem_singleton]
        constructor
        · rintro rfl
          exact ⟨.inl rfl, hmountsAt, hcreatedAt⟩
        · rintro ⟨rfl | ⟨hnot, -⟩, -⟩
          · rfl
          · rw [hmountsAt] at hnot
            cases hnot
    | false =>
      rw [hmounts] at hmountsAt
      rw [if_neg Bool.false_ne_true, ← childrenOf_of_get? hget]
      have hchild : ∀ c ∈ tree.childrenOf t, ∃ xs, tree.contribution steps c = .ok xs ∧
          ∀ x, x ∈ xs ↔ (x = c ∨ tree.mountsAt c = false ∧ tree.Exposed c x) ∧
            tree.mountsAt x = true ∧ tree.createdAt x = true :=
        fun c hc => contribution_spec hwf (hwf.lineage_child hl hc)
          (by rw [List.length_cons]; omega)
      choose! g hg hmem using hchild
      -- so this node contributes what its children do, one after the other
      refine ⟨_, gather_eq_flatMap hg, fun x => ?_⟩
      rw [List.mem_flatMap]
      constructor
      · rintro ⟨c, hc, hx⟩
        obtain ⟨hcase, hflags⟩ := (hmem c hc x).mp hx
        exact ⟨.inr ⟨hmountsAt, exposed_iff_child.mpr ⟨c, hwf.link.mp hc, hcase⟩⟩, hflags⟩
      · rintro ⟨rfl | ⟨-, hexposed⟩, hflags⟩
        · rw [hmountsAt] at hflags
          cases hflags.1
        · obtain ⟨c, hc, hcase⟩ := exposed_iff_child.mp hexposed
          exact ⟨c, hwf.link.mpr hc, (hmem c (hwf.link.mpr hc) x).mpr ⟨hcase, hflags⟩⟩

/-- The native child list of a node has exactly the created mounting nodes exposed to it. -/
theorem nativeChildren_spec (hwf : tree.WellFormed) {t : Tag} (ht : tree.contains t = true) :
    ∃ xs, tree.nativeChildren t = .ok xs ∧ ∀ x, x ∈ xs ↔
      tree.Exposed t x ∧ tree.mountsAt x = true ∧ tree.createdAt x = true := by
  obtain ⟨l, hl⟩ := hwf.exists_lineage ht
  have hchild : ∀ c ∈ tree.childrenOf t, ∃ xs, tree.contribution tree.budget c = .ok xs ∧
      ∀ x, x ∈ xs ↔ (x = c ∨ tree.mountsAt c = false ∧ tree.Exposed c x) ∧
        tree.mountsAt x = true ∧ tree.createdAt x = true :=
    fun c hc => contribution_spec hwf (hwf.lineage_child hl hc)
      (by rw [budget, List.length_cons]; omega)
  choose! g hg hmem using hchild
  refine ⟨(tree.childrenOf t).flatMap g, ?_, fun x => ?_⟩
  · rw [nativeChildren, children_eq ht, ok_bind]
    exact gather_eq_flatMap hg
  · rw [List.mem_flatMap, exposed_iff_child]
    constructor
    · rintro ⟨c, hc, hx⟩
      obtain ⟨hcase, hflags⟩ := (hmem c hc x).mp hx
      exact ⟨⟨c, hwf.link.mp hc, hcase⟩, hflags⟩
    · rintro ⟨⟨c, hc, hcase⟩, hflags⟩
      exact ⟨c, hwf.link.mpr hc, (hmem c (hwf.link.mpr hc) x).mpr ⟨hcase, hflags⟩⟩

/-- Distinct siblings have disjoint subtrees. -/
theorem WellFormed.siblings_disjoint (hwf : tree.WellFormed) {t a b y : Tag}
    (ha : tree.parentOf? a = some t) (hb : tree.parentOf? b = some t) (hne : a ≠ b)
    (hay : tree.InSubtree a y) : ¬ tree.InSubtree b y := by
  -- nested subtrees of siblings would put one sibling above its own parent
  have habove : ∀ {c d : Tag}, tree.parentOf? c = some t → tree.parentOf? d = some t →
      tree.InSubtree c d → d = c := by
    intro c d hc hd hsub
    rcases hsub with heq | hanc
    · exact heq
    · obtain ⟨p, hp, hsub⟩ := hanc.parent_inSubtree
      obtain rfl := Option.some.inj (hd.symm.trans hp)
      exact absurd (.parent hc) (hwf.not_ancestor_of_inSubtree hsub)
  intro hby
  rcases inSubtree_comparable hay hby with h | h
  · exact hne (habove ha hb h).symm
  · exact hne (habove hb ha h)

/-- Below a node lies a node of the subtree of one of its children. -/
theorem ancestor_iff_child {t x : Tag} :
    tree.Ancestor t x ↔ ∃ c, tree.parentOf? c = some t ∧ tree.InSubtree c x := by
  constructor
  · intro h
    induction h with
    | parent hparent => exact ⟨_, hparent, .inl rfl⟩
    | step hparent _ ih =>
      obtain ⟨c, hc, hsub⟩ := ih
      exact ⟨c, hc, hsub.child hparent⟩
  · rintro ⟨c, hc, rfl | hanc⟩
    · exact .parent hc
    · exact (Ancestor.parent hc).trans hanc

/-- The downward walk lists exactly the subtree of its start, and every node comes after all of its
descendants: of two entries, the first is never above the second.

The budget is measured against the lineage of the start. It grows by one node with each step down
while the steps shrink by one, so their sum stays above the number of nodes. -/
theorem postOrderFrom_spec (hwf : tree.WellFormed) : ∀ {steps : Nat} {t : Tag} {l : List Tag},
    tree.Lineage t l → tree.size < steps + l.length →
      ∃ xs, tree.postOrderFrom steps t = .ok xs ∧ (∀ x, x ∈ xs ↔ tree.InSubtree t x) ∧
        xs.Pairwise fun x y => ¬ tree.InSubtree x y
  | 0, t, l, hl, hsteps => by
    have := hl.length_le_size hwf
    omega
  | steps + 1, t, l, hl, hsteps => by
    have hchild : ∀ c ∈ tree.childrenOf t, ∃ xs, tree.postOrderFrom steps c = .ok xs ∧
        (∀ x, x ∈ xs ↔ tree.InSubtree c x) ∧ xs.Pairwise fun x y => ¬ tree.InSubtree x y :=
      fun c hc => postOrderFrom_spec hwf (hwf.lineage_child hl hc)
        (by rw [List.length_cons]; omega)
    choose! g hg hmem hpair using hchild
    refine ⟨(tree.childrenOf t).flatMap g ++ [t], ?_, fun x => ?_, ?_⟩
    · rw [postOrderFrom, children_eq hl.contains, ok_bind, gather_eq_flatMap hg]
      rfl
    · rw [List.mem_append, List.mem_flatMap, List.mem_singleton, InSubtree, ancestor_iff_child,
        or_comm]
      refine or_congr Iff.rfl ⟨?_, ?_⟩
      · rintro ⟨c, hc, hx⟩
        exact ⟨c, hwf.link.mp hc, (hmem c hc x).mp hx⟩
      · rintro ⟨c, hc, hx⟩
        exact ⟨c, hwf.link.mpr hc, (hmem c (hwf.link.mpr hc) x).mpr hx⟩
    -- three kinds of pairs: both below one child, below two children, or a descendant and `t`
    -- itself
    · refine List.pairwise_append.mpr ⟨?_, List.pairwise_singleton .., ?_⟩
      · refine List.pairwise_flatMap.mpr ⟨hpair, ?_⟩
        -- two siblings have disjoint subtrees, so no node of the first lies above one of the second
        refine (hwf.nodup t).imp_of_mem fun {a b} ha hb hne x hx y hy hxy => ?_
        exact hwf.siblings_disjoint (hwf.link.mp ha) (hwf.link.mp hb) hne
          (((hmem a ha x).mp hx).trans hxy) ((hmem b hb y).mp hy)
      · intro x hx y hy hxy
        rw [List.mem_singleton.mp hy] at hxy
        obtain ⟨c, hc, hx⟩ := List.mem_flatMap.mp hx
        -- `x` lies below `t`, so `t` does not lie in the subtree of `x`
        have hbelow : tree.Ancestor t x :=
          ancestor_iff_child.mpr ⟨c, hwf.link.mp hc, (hmem c hc x).mp hx⟩
        exact hwf.not_ancestor_of_inSubtree hxy hbelow

/-- The post-order of a node lists its subtree, and no node before one of its descendants. -/
theorem postOrder_spec (hwf : tree.WellFormed) {t : Tag} (ht : tree.contains t = true) :
    ∃ xs, tree.postOrder t = .ok xs ∧ (∀ x, x ∈ xs ↔ tree.InSubtree t x) ∧
      xs.Pairwise fun x y => ¬ tree.InSubtree x y := by
  obtain ⟨l, hl⟩ := hwf.exists_lineage ht
  have hpos := hl.length_pos
  exact postOrderFrom_spec hwf hl (by rw [budget]; omega)

/-- A list in which no node comes before one of its descendants has no repeats, as each node lies in
its own subtree. -/
theorem nodup_of_pairwise_not_inSubtree {xs : List Tag}
    (h : xs.Pairwise fun x y => ¬ tree.InSubtree x y) : xs.Nodup :=
  h.imp fun hnot heq => hnot (.inl heq.symm)

/-! ## Downward answers depend on the subtree alone

Two trees that agree below a node give the same answers below it. This is what carries an answer
over an edit that happens elsewhere. -/

/-- What downward walks read of a node. -/
def profile (tree : Tree κ) (tag : Tag) : Option (List Tag × Bool × Bool) :=
  (tree.get? tag).map fun node => (node.children, node.mounts, node.created)

/-- What a node contributes to a native child list depends on the profiles in its subtree alone. -/
theorem contribution_congr (hwf : tree.WellFormed) {other : Tree κ} :
    ∀ {steps : Nat} {t : Tag}, (∀ x, tree.InSubtree t x → other.profile x = tree.profile x) →
      other.contribution steps t = tree.contribution steps t
  | 0, _, _ => rfl
  | steps + 1, t, h => by
    -- the node itself has the same profile in both trees, so both walks look past it or neither
    -- does
    have ht := h t (.refl t)
    cases hget : tree.get? t with
    | none =>
      rw [profile, profile, hget, Option.map_none, Option.map_eq_none_iff] at ht
      rw [contribution, contribution, node_of_get?_none hget, node_of_get?_none ht]
      rfl
    | some node =>
      rw [profile, profile, hget, Option.map_some, Option.map_eq_some_iff] at ht
      obtain ⟨node', hget', heq⟩ := ht
      obtain ⟨hchildren, hmounts, hcreated⟩ : node'.children = node.children ∧
          node'.mounts = node.mounts ∧ node'.created = node.created := by simpa using heq
      rw [contribution, contribution, node_of_get? hget, node_of_get? hget', ok_bind, ok_bind,
        hchildren, hmounts, hcreated]
      -- each child's subtree is part of this one
      refine congrArg (ite _ _) (gather_congr fun c hc => contribution_congr hwf fun x hx => h x ?_)
      have hparent := hwf.link.mp (by rw [childrenOf_of_get? hget]; exact hc)
      exact (InSubtree.child hparent (.refl t)).trans hx

/-- The native child list of a node depends on its subtree alone. -/
theorem nativeChildren_congr (hwf : tree.WellFormed) {other : Tree κ} {t : Tag}
    (hsize : other.size = tree.size)
    (h : ∀ x, tree.InSubtree t x → other.profile x = tree.profile x) :
    other.nativeChildren t = tree.nativeChildren t := by
  have hchildren : other.children t = tree.children t := by
    have ht := h t (.refl t)
    cases hget : tree.get? t with
    | none =>
      rw [profile, profile, hget, Option.map_none, Option.map_eq_none_iff] at ht
      rw [children, children, node_of_get?_none hget, node_of_get?_none ht]
    | some node =>
      rw [profile, profile, hget, Option.map_some, Option.map_eq_some_iff] at ht
      obtain ⟨node', hget', heq⟩ := ht
      have hsame : node'.children = node.children := congrArg Prod.fst heq
      rw [children, children, node_of_get? hget, node_of_get? hget']
      exact congrArg Except.ok hsame
  -- both walks have one budget, as it depends on the number of nodes alone
  rw [nativeChildren, nativeChildren, hchildren, budget, hsize, ← budget]
  by_cases ht : tree.contains t = true
  · rw [children_eq ht, ok_bind, ok_bind]
    refine gather_congr fun c hc => contribution_congr hwf fun x hx => h x ?_
    exact (InSubtree.child (hwf.link.mp hc) (.refl t)).trans hx
  · have hnone : tree.get? t = none := by simpa [contains] using ht
    rw [children, node_of_get?_none hnone]
    rfl

/-- More steps than needed make no difference. -/
theorem postOrderFrom_mono : ∀ {steps more : Nat} {t : Tag} {xs : List Tag}, steps ≤ more →
    tree.postOrderFrom steps t = .ok xs → tree.postOrderFrom more t = .ok xs
  | 0, _, _, _, _, h => nomatch h
  | steps + 1, more, t, xs, hle, h => by
    obtain ⟨more, rfl⟩ : ∃ k, more = k + 1 := ⟨more - 1, by omega⟩
    rw [postOrderFrom] at h ⊢
    obtain ⟨cs, hcs, h⟩ := query_bind_eq_ok_iff.mp h
    obtain ⟨below, hbelow, h⟩ := query_bind_eq_ok_iff.mp h
    rw [hcs, ok_bind, gather_mono (postOrderFrom_mono (Nat.le_of_succ_le_succ hle)) hbelow, ok_bind]
    exact h

/-- The post-order depends on the child lists of the subtree alone. -/
theorem postOrderFrom_congr (hwf : tree.WellFormed) {other : Tree κ} :
    ∀ {steps : Nat} {t : Tag}, (∀ x, tree.InSubtree t x → other.children x = tree.children x) →
      other.postOrderFrom steps t = tree.postOrderFrom steps t
  | 0, _, _ => rfl
  | steps + 1, t, h => by
    rw [postOrderFrom, postOrderFrom, h t (.refl t)]
    cases hget : tree.get? t with
    | none =>
      rw [children, node_of_get?_none hget]
      rfl
    | some node =>
      have hchildren : tree.children t = .ok node.children := by
        rw [children, node_of_get? hget]
        rfl
      rw [hchildren, ok_bind, ok_bind]
      -- each child's subtree is part of this one
      refine congrArg (· >>= _) (gather_congr fun c hc => postOrderFrom_congr hwf fun x hx => h x ?_)
      have hparent := hwf.link.mp (by rw [childrenOf_of_get? hget]; exact hc)
      exact (InSubtree.child hparent (.refl t)).trans hx

/-! ## Subtrees as lists

The post-order as a total function, for statements that count or order the nodes of a subtree. -/

/-- A node and its descendants, children before parents; nothing for a tag without a node. -/
def subtree (tree : Tree κ) (tag : Tag) : List Tag := (tree.postOrder tag).toOption.getD []

/-- The subtree is what the walk answers, if it answers. -/
theorem subtree_of_postOrder {t : Tag} {xs : List Tag} (h : tree.postOrder t = .ok xs) :
    tree.subtree t = xs := by
  rw [subtree, h]
  rfl

/-- The subtree of a node does not depend on what lies outside. -/
theorem subtree_congr (hwf : tree.WellFormed) {other : Tree κ} (hwf' : other.WellFormed) {t : Tag}
    (ht : other.contains t = true) (hsize : other.size ≤ tree.size)
    (h : ∀ x, tree.InSubtree t x → other.children x = tree.children x) :
    other.subtree t = tree.subtree t := by
  obtain ⟨xs, hxs, -⟩ := postOrder_spec hwf' ht
  -- the other tree's answer comes with a smaller budget, which is enough here too
  have hsame : tree.postOrderFrom other.budget t = .ok xs := by
    rw [← postOrderFrom_congr hwf h]
    exact hxs
  have hmore : tree.postOrder t = .ok xs :=
    postOrderFrom_mono (Nat.succ_le_succ hsize) hsame
  rw [subtree_of_postOrder hxs, subtree_of_postOrder hmore]

/-- The subtree list of a registered node has exactly the nodes of its subtree. -/
theorem mem_subtree (hwf : tree.WellFormed) {t x : Tag} (ht : tree.contains t = true) :
    x ∈ tree.subtree t ↔ tree.InSubtree t x := by
  obtain ⟨xs, hxs, hmem, -⟩ := postOrder_spec hwf ht
  rw [subtree_of_postOrder hxs, hmem]

/-- No node of the subtree list comes before one of its descendants. -/
theorem pairwise_subtree (hwf : tree.WellFormed) {t : Tag} (ht : tree.contains t = true) :
    (tree.subtree t).Pairwise fun x y => ¬ tree.InSubtree x y := by
  obtain ⟨xs, hxs, -, hpairwise⟩ := postOrder_spec hwf ht
  rw [subtree_of_postOrder hxs]
  exact hpairwise

end Tree

end ShadowMount
