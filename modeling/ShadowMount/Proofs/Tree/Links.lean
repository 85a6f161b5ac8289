import Mathlib.Data.List.Perm.Subperm
import ShadowMount.Tree.Edit

/-!
# Links of the shadow tree

A tree stores its links twice: a parent lists its children and a child names its parent. This
module reads both directions off a tree (`parentOf?`, `childrenOf`), says when the two agree and
are free of cycles (`WellFormed`), and develops ancestry on such trees.

* **`WellFormed`** — the shape invariant. Acyclicity is the existence of a rank that falls along
  every parent link, which is stable under the loss of links.
* **`Lineage`** — a node followed by its ancestors, as a relation. On a well-formed tree every
  node has one (`WellFormed.exists_lineage`), it has no repeats and is no longer than the tree
  has nodes (`Lineage.length_le_size`); this is what bounds every walk.
* **`InSubtree`** — a node or one of its descendants. Two subtrees are nested or disjoint
  (`inSubtree_comparable`).
-/

namespace ShadowMount.Tree

variable {κ : Type} {tree : Tree κ}

/-! ## Views of one node -/

/-- The parent named by the node with a tag. -/
def parentOf? (tree : Tree κ) (tag : Tag) : Option Tag := (tree.get? tag).bind (·.parent)

/-- The children listed by the node with a tag; none if there is no such node. -/
def childrenOf (tree : Tree κ) (tag : Tag) : List Tag :=
  ((tree.get? tag).map (·.children)).getD []

/-- Whether the node with a tag is to be backed by a view. -/
def mountsAt (tree : Tree κ) (tag : Tag) : Bool := (tree.get? tag).any (·.mounts)

/-- Whether the node with a tag has its view. -/
def createdAt (tree : Tree κ) (tag : Tag) : Bool := (tree.get? tag).any (·.created)

/-! The four reads above, on a node that is known. Every later proof about one node goes through
these lemmas, so that only they know how a tree stores its nodes. -/

theorem parentOf?_of_get? {tag : Tag} {node : Node κ} (hget : tree.get? tag = some node) :
    tree.parentOf? tag = node.parent := by
  rw [parentOf?, hget, Option.bind_some]

theorem childrenOf_of_get? {tag : Tag} {node : Node κ} (hget : tree.get? tag = some node) :
    tree.childrenOf tag = node.children := by
  rw [childrenOf, hget, Option.map_some, Option.getD_some]

theorem mountsAt_of_get? {tag : Tag} {node : Node κ} (hget : tree.get? tag = some node) :
    tree.mountsAt tag = node.mounts := by
  rw [mountsAt, hget, Option.any_some]

theorem createdAt_of_get? {tag : Tag} {node : Node κ} (hget : tree.get? tag = some node) :
    tree.createdAt tag = node.created := by
  rw [createdAt, hget, Option.any_some]

theorem contains_of_get? {tag : Tag} {node : Node κ} (hget : tree.get? tag = some node) :
    tree.contains tag = true := by
  rw [contains, hget, Option.isSome_some]

theorem contains_iff {tag : Tag} : tree.contains tag = true ↔ ∃ node, tree.get? tag = some node :=
  Option.isSome_iff_exists

/-- Looking up a node by its tag answers the stored node. -/
theorem node_of_get? {tag : Tag} {node : Node κ} (hget : tree.get? tag = some node) :
    tree.node tag = .ok node := by
  rw [Tree.node, hget]

/-- Looking up a tag without a node fails, and names the tag. -/
theorem node_of_get?_none {tag : Tag} (hget : tree.get? tag = none) :
    tree.node tag = .error (.missing tag) := by
  rw [Tree.node, hget]

/-- Only registered nodes name a parent. -/
theorem get?_of_parentOf? {tag parent : Tag} (hparent : tree.parentOf? tag = some parent) :
    ∃ node, tree.get? tag = some node ∧ node.parent = some parent := by
  rw [parentOf?] at hparent
  exact Option.bind_eq_some_iff.mp hparent

/-- Only registered nodes list children. -/
theorem get?_of_mem_childrenOf {tag child : Tag} (hmem : child ∈ tree.childrenOf tag) :
    ∃ node, tree.get? tag = some node ∧ child ∈ node.children := by
  cases hget : tree.get? tag with
  | none => simp [childrenOf, hget] at hmem
  | some node => exact ⟨node, rfl, by rwa [childrenOf_of_get? hget] at hmem⟩

/-- Only registered nodes mount. -/
theorem get?_of_mountsAt {tag : Tag} (hmounts : tree.mountsAt tag = true) :
    ∃ node, tree.get? tag = some node ∧ node.mounts = true :=
  Option.any_eq_true .. |>.mp hmounts

/-- Only registered nodes have views. -/
theorem get?_of_createdAt {tag : Tag} (hcreated : tree.createdAt tag = true) :
    ∃ node, tree.get? tag = some node ∧ node.created = true :=
  Option.any_eq_true .. |>.mp hcreated

theorem contains_of_createdAt {tag : Tag} (hcreated : tree.createdAt tag = true) :
    tree.contains tag = true := by
  obtain ⟨node, hget, -⟩ := get?_of_createdAt hcreated
  exact contains_of_get? hget

/-! ## Ancestry

Strict ancestors and subtrees, as relations on the parent links. The lemmas here need no budget and
say nothing of walks. -/

/-- `Ancestor tree a c`: following parent links from `c` leads to `a`, in one step or more. -/
inductive Ancestor (tree : Tree κ) (a : Tag) : Tag → Prop
  | parent {c : Tag} : tree.parentOf? c = some a → Ancestor tree a c
  | step {c p : Tag} : tree.parentOf? c = some p → Ancestor tree a p → Ancestor tree a c

/-- A node of the subtree of `top`: `top` itself or a descendant. -/
def InSubtree (tree : Tree κ) (top tag : Tag) : Prop := tag = top ∨ tree.Ancestor top tag

/-- Ancestors of ancestors are ancestors. -/
theorem Ancestor.trans {a b c : Tag} (hab : tree.Ancestor a b) (hbc : tree.Ancestor b c) :
    tree.Ancestor a c := by
  induction hbc with
  | parent hparent => exact .step hparent hab
  | step hparent _ ih => exact .step hparent ih

/-- The first step of an ancestry: the parent is the ancestor, or lies below it. -/
theorem Ancestor.parent_inSubtree {a c : Tag} (h : tree.Ancestor a c) :
    ∃ p, tree.parentOf? c = some p ∧ tree.InSubtree a p := by
  cases h with
  | parent hparent => exact ⟨_, hparent, .inl rfl⟩
  | step hparent hrest => exact ⟨_, hparent, .inr hrest⟩

/-- A node with an ancestor is registered, since it names a parent. Nothing follows here for the
ancestor itself, which needs the links to agree; see `WellFormed.contains_ancestor`. -/
theorem Ancestor.contains {a c : Tag} (h : tree.Ancestor a c) : tree.contains c = true := by
  obtain ⟨p, hparent, -⟩ := h.parent_inSubtree
  obtain ⟨node, hget, -⟩ := get?_of_parentOf? hparent
  exact contains_of_get? hget

@[refl] theorem InSubtree.refl (tag : Tag) : tree.InSubtree tag tag := .inl rfl

/-- Subtrees are nested: the subtree of a node of a subtree is part of it. -/
theorem InSubtree.trans {a b c : Tag} (hab : tree.InSubtree a b) (hbc : tree.InSubtree b c) :
    tree.InSubtree a c := by
  rcases hbc with rfl | hbc
  · exact hab
  · rcases hab with rfl | hab
    · exact .inr hbc
    · exact .inr (hab.trans hbc)

/-- A child lies in every subtree its parent lies in. -/
theorem InSubtree.child {a c p : Tag} (hparent : tree.parentOf? c = some p)
    (h : tree.InSubtree a p) : tree.InSubtree a c := by
  rcases h with rfl | h
  · exact .inr (.parent hparent)
  · exact .inr (.step hparent h)

/-- The subtrees around a common node are nested, because parents are unique. -/
theorem inSubtree_comparable {a b c : Tag} (ha : tree.InSubtree a c) (hb : tree.InSubtree b c) :
    tree.InSubtree a b ∨ tree.InSubtree b a := by
  rcases ha with rfl | ha
  · exact .inr hb
  · induction ha with
    | parent hparent =>
      -- one step up from `c` is `a`, and `b` is `c` itself or lies at or above that step
      rcases hb with rfl | hb
      · exact .inl (.inr (.parent hparent))
      · obtain ⟨q, hq, hsub⟩ := hb.parent_inSubtree
        obtain rfl : _ = q := Option.some.inj (hparent.symm.trans hq)
        exact .inr hsub
    | step hparent hrest ih =>
      rcases hb with rfl | hb
      · exact .inl (.inr (.step hparent hrest))
      -- both ways up take the same first step
      · obtain ⟨q, hq, hsub⟩ := hb.parent_inSubtree
        obtain rfl : _ = q := Option.some.inj (hparent.symm.trans hq)
        exact ih hsub

/-- An ancestry is kept by a tree with the same parents on the way up from the descendant. -/
theorem Ancestor.transport {other : Tree κ} {a c : Tag} (h : tree.Ancestor a c)
    (hparent : ∀ x, tree.Ancestor a x → other.parentOf? x = tree.parentOf? x) :
    other.Ancestor a c := by
  induction h with
  | parent hp => exact .parent ((hparent _ (.parent hp)).trans hp)
  | step hp hrest ih => exact .step ((hparent _ (.step hp hrest)).trans hp) ih

/-- Membership in a subtree is kept by a tree with the same parents below its top. -/
theorem InSubtree.transport {other : Tree κ} {a c : Tag} (h : tree.InSubtree a c)
    (hparent : ∀ x, tree.Ancestor a x → other.parentOf? x = tree.parentOf? x) :
    other.InSubtree a c :=
  h.imp_right fun hanc => hanc.transport hparent

/-- More parent links mean more ancestries. -/
theorem Ancestor.mono {other : Tree κ} {a c : Tag} (h : tree.Ancestor a c)
    (hsub : ∀ {x p}, tree.parentOf? x = some p → other.parentOf? x = some p) :
    other.Ancestor a c := by
  induction h with
  | parent hp => exact .parent (hsub hp)
  | step hp _ ih => exact .step (hsub hp) ih

/-! ## Lineages

A lineage is the list that a walk to the top would answer, given as a relation so that it can be
reasoned about by induction. -/

/-- `Lineage tree t l`: the list `l` is `t` followed by its ancestors up to a parentless node. -/
inductive Lineage (tree : Tree κ) : Tag → List Tag → Prop
  | top {t : Tag} : tree.contains t = true → tree.parentOf? t = none → Lineage tree t [t]
  | up {t p : Tag} {l : List Tag} :
      tree.parentOf? t = some p → Lineage tree p l → Lineage tree t (t :: l)

/-- A lineage starts at a registered node. -/
theorem Lineage.contains {t : Tag} {l : List Tag} (h : tree.Lineage t l) :
    tree.contains t = true := by
  cases h with
  | top hcontains _ => exact hcontains
  | up hparent _ =>
    obtain ⟨node, hget, -⟩ := get?_of_parentOf? hparent
    exact contains_of_get? hget

/-- A lineage holds exactly the nodes in whose subtrees its first node lies. -/
theorem Lineage.mem_iff {t : Tag} {l : List Tag} (h : tree.Lineage t l) (x : Tag) :
    x ∈ l ↔ tree.InSubtree x t := by
  induction h with
  | @top t _ hnone =>
    constructor
    · intro hx
      exact .inl (List.mem_singleton.mp hx).symm
    · rintro (rfl | hx)
      · exact List.mem_singleton.mpr rfl
      -- a topmost node has no ancestor
      · obtain ⟨p, hp, -⟩ := hx.parent_inSubtree
        rw [hnone] at hp
        cases hp
  | @up t p l hparent _ ih =>
    rw [List.mem_cons, ih]
    constructor
    · rintro (rfl | hx)
      · exact .inl rfl
      · exact hx.child hparent
    · rintro (rfl | hx)
      · exact .inl rfl
      -- an ancestor of `t` is its parent `p` or lies above it, and then belongs to the lineage of
      -- `p`
      · obtain ⟨q, hq, hsub⟩ := hx.parent_inSubtree
        obtain rfl := Option.some.inj (hparent.symm.trans hq)
        exact .inr hsub

/-- A lineage holds its own node. -/
theorem Lineage.length_pos {t : Tag} {l : List Tag} (h : tree.Lineage t l) : 0 < l.length := by
  cases h <;> simp

/-- All nodes of a lineage are registered: each names a parent or is where the lineage ends. -/
theorem Lineage.all_contained {t : Tag} {l : List Tag} (h : tree.Lineage t l) :
    ∀ x ∈ l, tree.contains x = true := by
  induction h with
  | top hcontains _ =>
    intro x hx
    rwa [List.mem_singleton.mp hx]
  | up hparent hrest ih =>
    intro x hx
    rcases List.mem_cons.mp hx with rfl | hx
    · exact (Lineage.up hparent hrest).contains
    · exact ih x hx

/-- A lineage is kept by a tree with the same parents along it. -/
theorem Lineage.transport {other : Tree κ} {t : Tag} {l : List Tag} (h : tree.Lineage t l)
    (hcontains : ∀ x ∈ l, other.contains x = tree.contains x)
    (hparent : ∀ x ∈ l, other.parentOf? x = tree.parentOf? x) : other.Lineage t l := by
  induction h with
  | top hcontained hnone =>
    exact .top ((hcontains _ (List.mem_cons_self ..)).trans hcontained)
      ((hparent _ (List.mem_cons_self ..)).trans hnone)
  | up hp _ ih =>
    exact .up ((hparent _ (List.mem_cons_self ..)).trans hp)
      (ih (fun x hx => hcontains x (List.mem_cons_of_mem _ hx))
        fun x hx => hparent x (List.mem_cons_of_mem _ hx))

/-! ## The shape invariant

The conditions that every edit keeps, with what follows from them at once: a node is no ancestor of
itself, and every node has a lineage without repeats. -/

/-- The two directions of the links agree, no child is listed twice, no node is its own ancestor,
and the roots are distinct registered nodes without a parent. -/
structure WellFormed (tree : Tree κ) : Prop where
  /-- Each node is stored under its own tag. -/
  tag_eq : ∀ {t node}, tree.get? t = some node → node.tag = t
  /-- A parent lists a child exactly if the child names the parent. -/
  link : ∀ {c p}, c ∈ tree.childrenOf p ↔ tree.parentOf? c = some p
  /-- No child is listed twice by one parent; by `link` it is not listed by two. -/
  nodup : ∀ p, (tree.childrenOf p).Nodup
  /-- Some rank falls along every parent link. -/
  acyclic : ∃ rank : Tag → Nat, ∀ {c p}, tree.parentOf? c = some p → rank p < rank c
  roots_nodup : tree.roots.Nodup
  root_contained : ∀ {r}, r ∈ tree.roots → tree.contains r = true
  root_parentless : ∀ {r}, r ∈ tree.roots → tree.parentOf? r = none

namespace WellFormed

/-- Parents are registered, because they list their children. -/
theorem contains_parent (hwf : tree.WellFormed) {c p : Tag} (hparent : tree.parentOf? c = some p) :
    tree.contains p = true := by
  obtain ⟨node, hget, -⟩ := get?_of_mem_childrenOf (hwf.link.mpr hparent)
  exact contains_of_get? hget

/-- Ancestors are registered. -/
theorem contains_ancestor (hwf : tree.WellFormed) {a c : Tag} (h : tree.Ancestor a c) :
    tree.contains a = true := by
  induction h with
  | parent hparent => exact hwf.contains_parent hparent
  | step _ _ ih => exact ih

/-- No node is its own ancestor: along an ancestry the rank falls. -/
theorem not_ancestor_self (hwf : tree.WellFormed) (t : Tag) : ¬ tree.Ancestor t t := by
  obtain ⟨rank, hrank⟩ := hwf.acyclic
  have hlt : ∀ {a c}, tree.Ancestor a c → rank a < rank c := by
    intro a c h
    induction h with
    | parent hparent => exact hrank hparent
    | step hparent _ ih => exact Nat.lt_trans ih (hrank hparent)
  intro h
  exact Nat.lt_irrefl _ (hlt h)

/-- A node is not above the top of a subtree in which it lies. -/
theorem not_ancestor_of_inSubtree (hwf : tree.WellFormed) {a c : Tag} (h : tree.InSubtree a c) :
    ¬ tree.Ancestor c a := by
  intro hback
  rcases h with rfl | h
  · exact hwf.not_ancestor_self _ hback
  · exact hwf.not_ancestor_self _ (h.trans hback)

/-- Every node has a lineage: the rank falls at each step up, so the way up ends. -/
theorem exists_lineage (hwf : tree.WellFormed) {t : Tag} (ht : tree.contains t = true) :
    ∃ l, tree.Lineage t l := by
  obtain ⟨rank, hrank⟩ := hwf.acyclic
  -- by strong induction on the rank, which falls from a node to its parent
  generalize hk : rank t = k
  induction k using Nat.strongRecOn generalizing t with
  | ind k ih =>
    cases hparent : tree.parentOf? t with
    | none => exact ⟨[t], .top ht hparent⟩
    | some p =>
      obtain ⟨l, hl⟩ := ih (rank p) (hk ▸ hrank hparent) (hwf.contains_parent hparent) rfl
      exact ⟨t :: l, .up hparent hl⟩

end WellFormed

/-- A lineage has no repeats: a node that came again would lie above itself. -/
theorem Lineage.nodup {t : Tag} {l : List Tag} (hwf : tree.WellFormed) (h : tree.Lineage t l) :
    l.Nodup := by
  induction h with
  | top => simp
  | up hparent hrest ih =>
    refine List.nodup_cons.mpr ⟨fun hmem => ?_, ih⟩
    exact hwf.not_ancestor_of_inSubtree ((hrest.mem_iff _).mp hmem) (.parent hparent)

/-! ## Counting nodes

A list of registered tags without repeats is no longer than the number of nodes. This turns facts
about lineages and subtrees into bounds for walks. -/

/-- The keys of the map of nodes are the registered tags. -/
theorem mem_keys_iff {tag : Tag} : tag ∈ tree.nodes.keys ↔ tree.contains tag = true := by
  rw [Std.ExtTreeMap.mem_keys, Std.ExtTreeMap.mem_iff_isSome_getElem?]
  rfl

/-- Distinct registered tags are no more than the nodes of the tree. -/
theorem length_le_size {l : List Tag} (hnodup : l.Nodup)
    (hall : ∀ x ∈ l, tree.contains x = true) : l.length ≤ tree.size := by
  -- a list without repeats inside the list of keys is no longer than that list
  have hsub : l ⊆ tree.nodes.keys := fun x hx => mem_keys_iff.mpr (hall x hx)
  have hle := (hnodup.subperm hsub).length_le
  rwa [Std.ExtTreeMap.length_keys] at hle

/-- A way up is no longer than the tree has nodes. This bounds every walk: upward walks follow a
lineage, and downward walks extend one. -/
theorem Lineage.length_le_size {t : Tag} {l : List Tag} (hwf : tree.WellFormed)
    (h : tree.Lineage t l) : l.length ≤ tree.size :=
  Tree.length_le_size (h.nodup hwf) h.all_contained

/-- A tree with fewer tags has fewer nodes. -/
theorem size_le_of_contains {other : Tree κ}
    (h : ∀ tag, other.contains tag = true → tree.contains tag = true) : other.size ≤ tree.size := by
  have hkeys : ∀ x ∈ other.nodes.keys, tree.contains x = true :=
    fun x hx => h x (mem_keys_iff.mp hx)
  have hle := Tree.length_le_size other.nodes.nodup_keys hkeys
  rwa [Std.ExtTreeMap.length_keys] at hle

/-- Trees with the same tags have the same number of nodes. -/
theorem size_eq_of_contains {other : Tree κ}
    (h : ∀ tag, other.contains tag = tree.contains tag) : other.size = tree.size :=
  Nat.le_antisymm (size_le_of_contains fun tag ht => (h tag).symm.trans ht)
    (size_le_of_contains fun tag ht => (h tag).trans ht)

/-! ## Trees with the same links

Ancestry, lineages and budgets depend on the links alone, and are the same in trees that differ in
other data. -/

/-- Two trees that differ at most in what their nodes hold besides tag, parent and children. -/
structure SameLinks (a b : Tree κ) : Prop where
  tag : ∀ t, (b.get? t).map (·.tag) = (a.get? t).map (·.tag)
  parent : ∀ t, b.parentOf? t = a.parentOf? t
  children : ∀ t, b.childrenOf t = a.childrenOf t
  roots : b.roots = a.roots

namespace SameLinks

variable {a b c : Tree κ}

theorem refl (a : Tree κ) : SameLinks a a := ⟨fun _ => rfl, fun _ => rfl, fun _ => rfl, rfl⟩

theorem symm (h : SameLinks a b) : SameLinks b a :=
  ⟨fun t => (h.tag t).symm, fun t => (h.parent t).symm, fun t => (h.children t).symm, h.roots.symm⟩

theorem trans (hab : SameLinks a b) (hbc : SameLinks b c) : SameLinks a c :=
  ⟨fun t => (hbc.tag t).trans (hab.tag t), fun t => (hbc.parent t).trans (hab.parent t),
    fun t => (hbc.children t).trans (hab.children t), hbc.roots.trans hab.roots⟩

/-- Trees that agree in their links register the same tags. -/
theorem contains (h : SameLinks a b) (t : Tag) : b.contains t = a.contains t := by
  have hmap := congrArg Option.isSome (h.tag t)
  rwa [Option.isSome_map, Option.isSome_map] at hmap

theorem size (h : SameLinks a b) : b.size = a.size := size_eq_of_contains h.contains

theorem budget (h : SameLinks a b) : b.budget = a.budget := by
  rw [Tree.budget, Tree.budget, h.size]

/-- Ancestry is a matter of parent links alone. -/
theorem ancestor (h : SameLinks a b) {x y : Tag} (hxy : a.Ancestor x y) : b.Ancestor x y :=
  hxy.mono fun hparent => (h.parent _).trans hparent

theorem ancestor_iff (h : SameLinks a b) {x y : Tag} : b.Ancestor x y ↔ a.Ancestor x y :=
  ⟨h.symm.ancestor, h.ancestor⟩

theorem inSubtree_iff (h : SameLinks a b) {x y : Tag} : b.InSubtree x y ↔ a.InSubtree x y :=
  or_congr Iff.rfl h.ancestor_iff

/-- Lineages are a matter of parent links alone. -/
theorem lineage (h : SameLinks a b) {t : Tag} {l : List Tag} (hl : a.Lineage t l) :
    b.Lineage t l :=
  hl.transport (fun x _ => h.contains x) fun x _ => h.parent x

/-- The shape invariant speaks of the links alone. -/
theorem wellFormed (h : SameLinks a b) (hwf : a.WellFormed) : b.WellFormed where
  tag_eq := by
    intro t node hget
    have htag := h.tag t
    rw [hget, Option.map_some, eq_comm, Option.map_eq_some_iff] at htag
    obtain ⟨old, hold, heq⟩ := htag
    rw [← heq, hwf.tag_eq hold]
  link := by
    intro c p
    rw [h.children, h.parent]
    exact hwf.link
  nodup := fun p => by rw [h.children]; exact hwf.nodup p
  acyclic := by
    obtain ⟨rank, hrank⟩ := hwf.acyclic
    exact ⟨rank, fun hparent => hrank (by rwa [h.parent] at hparent)⟩
  roots_nodup := by rw [h.roots]; exact hwf.roots_nodup
  root_contained := by
    intro r hr
    rw [h.contains]
    exact hwf.root_contained (h.roots ▸ hr)
  root_parentless := by
    intro r hr
    rw [h.parent]
    exact hwf.root_parentless (h.roots ▸ hr)

end SameLinks

end ShadowMount.Tree
