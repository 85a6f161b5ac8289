import ShadowMount.Proofs.Tree.Walks

/-!
# Edits of well-formed trees

Each edit either fails and leaves the tree as it was, or ends in one explicit tree. The lemmas
named `…_cases` say this once for every edit; everything else about edits is read off the resulting
tree. Two invariants are carried through:

* **`WellFormed`** — the shape of the links;
* **`FlagsSound`** — the flags respect the kinds: virtual nodes never mount, view-mounting nodes and
  the children of a node that lays out its own children do, and only mounting nodes have views.

Attaching is where acyclicity is at stake. The rank of the attached subtree is lifted above that of
the new parent (`WellFormed.linked`), which works because the parent does not lie in it.
-/

namespace ShadowMount

variable {κ : Type}

/-- What attaching a node below `parent` makes of it. -/
def Node.attachedTo (parent : Tag) (forces : Bool) (node : Node κ) : Node κ :=
  let attached := { node with parent := some parent }
  if forces then attached.promote else attached

/-- What stays with a node for life: its root, its class, and what its view manager asks for. -/
def Node.stamp (node : Node κ) : Tag × String × MountKind × Bool :=
  (node.root, node.viewClass, node.kind, node.forcesChildren)

/-- A node as registration gets it: without links, and with flags that respect its kind. -/
structure Node.IsFresh (node : Node κ) : Prop where
  parentless : node.parent = none
  childless : node.children = []
  created_mounts : node.created = true → node.mounts = true
  virtual_not_mounts : node.kind = .virtual → node.mounts = false
  viewMounting_mounts : node.kind = .viewMounting → node.mounts = true

namespace Tree

variable {tree : Tree κ}

/-! ## Flags -/

/-- The flags of the nodes respect their kinds. -/
structure FlagsSound (tree : Tree κ) : Prop where
  /-- A view is only ever made for a node that mounts. -/
  created_mounts : ∀ {t node}, tree.get? t = some node → node.created = true → node.mounts = true
  virtual_not_mounts : ∀ {t node}, tree.get? t = some node → node.kind = .virtual →
    node.mounts = false
  viewMounting_mounts : ∀ {t node}, tree.get? t = some node → node.kind = .viewMounting →
    node.mounts = true
  forced_mounts : ∀ {c p node above}, tree.get? c = some node → node.parent = some p →
    tree.get? p = some above → above.forcesChildren = true → node.kind ≠ .virtual →
    node.mounts = true
  /-- The platform brings the view of a root along. -/
  root_created : ∀ {r}, r ∈ tree.roots → tree.createdAt r = true

/-- A node with a view mounts. -/
theorem FlagsSound.mountsAt_of_createdAt (hflags : tree.FlagsSound) {t : Tag}
    (h : tree.createdAt t = true) : tree.mountsAt t = true := by
  obtain ⟨node, hget, hcreated⟩ := get?_of_createdAt h
  rw [mountsAt_of_get? hget, hflags.created_mounts hget hcreated]

theorem isRoot_iff {t : Tag} : tree.isRoot t = true ↔ t ∈ tree.roots := by
  rw [isRoot, List.contains_iff_mem]

/-! ## Equality of trees -/

/-- A tree is determined by what its tags name, its roots and whether it is poisoned. The map itself
need not be looked at. -/
theorem ext_get? {a b : Tree κ} (hget : ∀ t, a.get? t = b.get? t) (hroots : a.roots = b.roots)
    (hpoisoned : a.poisoned = b.poisoned) : a = b := by
  cases a
  cases b
  obtain rfl := hroots
  obtain rfl := hpoisoned
  exact congrArg (Tree.mk · _ _) (Std.ExtTreeMap.ext_getElem? fun {k} => hget k)

/-! What storing a node under a tag does to the reads of a tree, one lemma for each read: it changes
the read at that tag, and nowhere else. -/

theorem parentOf?_store (t x : Tag) (node : Node κ) :
    (tree.store t node).parentOf? x = if t = x then node.parent else tree.parentOf? x := by
  rw [parentOf?, get?_store]
  split <;> rfl

theorem childrenOf_store (t x : Tag) (node : Node κ) :
    (tree.store t node).childrenOf x = if t = x then node.children else tree.childrenOf x := by
  rw [childrenOf, get?_store]
  split <;> rfl

theorem contains_store (t x : Tag) (node : Node κ) :
    (tree.store t node).contains x = (decide (t = x) || tree.contains x) := by
  rw [contains, get?_store]
  by_cases h : t = x <;> simp [h, contains]

theorem mountsAt_store (t x : Tag) (node : Node κ) :
    (tree.store t node).mountsAt x = if t = x then node.mounts else tree.mountsAt x := by
  rw [mountsAt, get?_store]
  split <;> rfl

theorem createdAt_store (t x : Tag) (node : Node κ) :
    (tree.store t node).createdAt x = if t = x then node.created else tree.createdAt x := by
  rw [createdAt, get?_store]
  split <;> rfl

/-- Storing a node that differs in data other than its links keeps the links. -/
theorem sameLinks_store {t : Tag} {node changed : Node κ} (hget : tree.get? t = some node)
    (htag : changed.tag = node.tag) (hparent : changed.parent = node.parent)
    (hchildren : changed.children = node.children) : SameLinks tree (tree.store t changed) where
  tag x := by
    rw [get?_store]
    split
    · next heq => rw [← heq, hget, Option.map_some, Option.map_some, htag]
    · rfl
  parent x := by
    rw [parentOf?_store]
    split
    · next heq => rw [← heq, parentOf?_of_get? hget, hparent]
    · rfl
  children x := by
    rw [childrenOf_store]
    split
    · next heq => rw [← heq, childrenOf_of_get? hget, hchildren]
    · rfl
  roots := rfl

/-! ## Registration

A new node has no links, so nothing changes for the others, and both invariants hold of it because
nothing is said of its neighbours. -/

/-- A node whose tag is free is stored. -/
theorem register_of_free {node : Node κ} (h : tree.contains node.tag = false) :
    register node tree = .ok () (tree.store node.tag node) := by
  show (if tree.contains node.tag then throw _ else modify _ : TreeM κ Unit) tree = _
  rw [if_neg (by rw [h]; exact Bool.false_ne_true)]
  rfl

/-- A node whose tag is taken is refused, and the tree stays as it was. -/
theorem register_of_taken {node : Node κ} (h : tree.contains node.tag = true) :
    register node tree = .error (.duplicateTag node.tag) tree := by
  show (if tree.contains node.tag then throw _ else modify _ : TreeM κ Unit) tree = _
  rw [if_pos h]
  rfl

/-- A registration fails without a change, or finds its tag free and stores the node. -/
theorem register_cases (tree : Tree κ) (node : Node κ) :
    (∃ err, register node tree = .error err tree) ∨
    tree.contains node.tag = false ∧ register node tree = .ok () (tree.store node.tag node) := by
  cases hfree : tree.contains node.tag with
  | true => exact .inl ⟨_, register_of_taken hfree⟩
  | false => exact .inr ⟨rfl, register_of_free hfree⟩

/-- The node of a root. -/
def rootNode [Coordinate κ] (tag : Tag) (viewClass : String) (width height : κ) : Node κ :=
  { (.fresh tag tag viewClass .viewMounting : Node κ) with
    frame := .ofSize width height, created := true }

/-- The tree with one more root. -/
def withRootNode [Coordinate κ] (tree : Tree κ) (tag : Tag) (viewClass : String)
    (width height : κ) : Tree κ :=
  { tree.store tag (rootNode tag viewClass width height) with roots := withRoot tree.roots tag }

/-- Registering a root under a free tag stores its node and lists it among the roots. -/
theorem registerRoot_of_free [Coordinate κ] {tag : Tag} {viewClass : String} {width height : κ}
    (h : tree.contains tag = false) :
    registerRoot tag viewClass width height tree =
      .ok () (tree.withRootNode tag viewClass width height) :=
  bind_of_ok (@register_of_free _ _ (rootNode tag viewClass width height) h)

/-- A root whose tag is taken is refused before anything changes, so it is not listed either. -/
theorem registerRoot_of_taken [Coordinate κ] {tag : Tag} {viewClass : String} {width height : κ}
    (h : tree.contains tag = true) :
    registerRoot tag viewClass width height tree = .error (.duplicateTag tag) tree :=
  bind_of_error (@register_of_taken _ _ (rootNode tag viewClass width height) h)

/-- The registration of a root fails without a change, or finds its tag free and adds the root. -/
theorem registerRoot_cases [Coordinate κ] (tree : Tree κ) (tag : Tag) (viewClass : String)
    (width height : κ) :
    (∃ err, registerRoot tag viewClass width height tree = .error err tree) ∨
    tree.contains tag = false ∧ registerRoot tag viewClass width height tree =
      .ok () (tree.withRootNode tag viewClass width height) := by
  cases hfree : tree.contains tag with
  | true => exact .inl ⟨_, registerRoot_of_taken hfree⟩
  | false => exact .inr ⟨rfl, registerRoot_of_free hfree⟩

/-- A registered tag is not free. -/
theorem get?_of_free {t : Tag} (h : tree.contains t = false) : tree.get? t = none := by
  rw [contains, Option.isSome_eq_false_iff] at h
  exact Option.isNone_iff_eq_none.mp h

/-- A free tag has no view. -/
theorem createdAt_of_free {t : Tag} (h : tree.contains t = false) : tree.createdAt t = false := by
  rw [createdAt, get?_of_free h, Option.any_none]

/-- Registering a fresh node keeps the shape: it adds a tag and no link. -/
theorem WellFormed.store_fresh (hwf : tree.WellFormed) {node : Node κ} (hfresh : node.IsFresh)
    (hfree : tree.contains node.tag = false) : (tree.store node.tag node).WellFormed := by
  have hget := get?_of_free hfree
  -- a fresh node under a free tag adds no link
  have hparent : ∀ x, (tree.store node.tag node).parentOf? x = tree.parentOf? x := by
    intro x
    rw [parentOf?_store]
    split
    · next heq => rw [← heq, hfresh.parentless, parentOf?, hget, Option.bind_none]
    · rfl
  have hchildren : ∀ x, (tree.store node.tag node).childrenOf x = tree.childrenOf x := by
    intro x
    rw [childrenOf_store]
    split
    · next heq => rw [← heq, hfresh.childless, childrenOf, hget]; rfl
    · rfl
  -- the links are those of before, so only the clauses about tags need the new node
  refine ⟨?_, ?_, ?_, ?_, hwf.roots_nodup, ?_, ?_⟩
  · intro t other h
    rw [get?_store] at h
    split at h
    · next heq => rw [← heq, ← Option.some.inj h]
    · exact hwf.tag_eq h
  · intro c p
    rw [hchildren, hparent]
    exact hwf.link
  · intro p
    rw [hchildren]
    exact hwf.nodup p
  · obtain ⟨rank, hrank⟩ := hwf.acyclic
    exact ⟨rank, fun h => hrank (by rwa [hparent] at h)⟩
  · intro r hr
    rw [contains_store, hwf.root_contained hr, Bool.or_true]
  · intro r hr
    rw [hparent]
    exact hwf.root_parentless hr

/-- Registering a fresh node keeps the flags sound. -/
theorem FlagsSound.store_fresh (hflags : tree.FlagsSound) (hwf : tree.WellFormed) {node : Node κ}
    (hfresh : node.IsFresh) (hfree : tree.contains node.tag = false) :
    (tree.store node.tag node).FlagsSound := by
  -- whatever the new tree names is the fresh node or was named before
  have hold : ∀ {t other}, (tree.store node.tag node).get? t = some other →
      other = node ∨ tree.get? t = some other := by
    intro t other h
    rw [get?_store] at h
    split at h
    · exact .inl (Option.some.inj h).symm
    · exact .inr h
  refine ⟨?_, ?_, ?_, ?_, ?_⟩
  · intro t other h hcreated
    rcases hold h with rfl | h
    · exact hfresh.created_mounts hcreated
    · exact hflags.created_mounts h hcreated
  · intro t other h
    rcases hold h with rfl | h
    · exact hfresh.virtual_not_mounts
    · exact hflags.virtual_not_mounts h
  · intro t other h
    rcases hold h with rfl | h
    · exact hfresh.viewMounting_mounts
    · exact hflags.viewMounting_mounts h
  · intro c p other above h hparent habove hforces hkind
    rcases hold h with rfl | h
    · rw [hfresh.parentless] at hparent
      cases hparent
    · -- the new node is nobody's parent: its tag was free
      have hp := hwf.contains_parent (by rw [parentOf?_of_get? h]; exact hparent)
      have hne : node.tag ≠ p := fun heq => by rw [heq, hp] at hfree; cases hfree
      rw [get?_store, if_neg hne] at habove
      exact hflags.forced_mounts h hparent habove hforces hkind
  -- a root is registered already, so it is not the new node
  · intro r hr
    have hne : node.tag ≠ r := fun heq => by
      rw [heq, hwf.root_contained hr] at hfree
      cases hfree
    rw [createdAt_store, if_neg hne]
    exact hflags.root_created hr

/-- The node of a root is fresh, although it has its view from the start. -/
theorem rootNode_isFresh [Coordinate κ] (tag : Tag) (viewClass : String) (width height : κ) :
    (rootNode tag viewClass width height).IsFresh where
  parentless := rfl
  childless := rfl
  created_mounts _ := rfl
  virtual_not_mounts h := nomatch h
  viewMounting_mounts _ := rfl

/-- Listing a root adds it and keeps the others, also when it was listed before. -/
theorem mem_withRoot {roots : List Tag} {tag r : Tag} :
    r ∈ withRoot roots tag ↔ r ∈ roots ∨ r = tag := by
  rw [withRoot]
  split
  · next hmem => exact ⟨.inl, fun h => h.elim id fun heq => heq ▸ hmem⟩
  · rw [List.mem_append, List.mem_singleton]

/-- One more root keeps the shape. Only the clauses about roots go beyond the storing of a fresh
node: the list gets no repeat, and its new entry is registered and parentless. -/
theorem WellFormed.withRootNode [Coordinate κ] (hwf : tree.WellFormed) {tag : Tag}
    {viewClass : String} {width height : κ} (hfree : tree.contains tag = false) :
    (tree.withRootNode tag viewClass width height).WellFormed := by
  have hstore := hwf.store_fresh (rootNode_isFresh tag viewClass width height) hfree
  refine ⟨hstore.tag_eq, hstore.link, hstore.nodup, hstore.acyclic, ?_, ?_, ?_⟩
  · show (withRoot tree.roots tag).Nodup
    rw [withRoot]
    split
    · exact hwf.roots_nodup
    · next hmem =>
      refine List.nodup_append.mpr ⟨hwf.roots_nodup, by simp, fun a ha b hb heq => ?_⟩
      exact hmem (List.mem_singleton.mp hb ▸ heq ▸ ha)
  · intro r hr
    rcases mem_withRoot.mp hr with hr | rfl
    · exact hstore.root_contained hr
    · show (tree.store r _).contains r = true
      exact contains_of_get? (by rw [get?_store, if_pos rfl])
  · intro r hr
    rcases mem_withRoot.mp hr with hr | rfl
    · exact hstore.root_parentless hr
    · show (tree.store r _).parentOf? r = none
      rw [parentOf?_store, if_pos rfl]
      rfl

/-- One more root keeps the flags sound, because its node counts as created. -/
theorem FlagsSound.withRootNode [Coordinate κ] (hflags : tree.FlagsSound) (hwf : tree.WellFormed)
    {tag : Tag} {viewClass : String} {width height : κ} (hfree : tree.contains tag = false) :
    (tree.withRootNode tag viewClass width height).FlagsSound := by
  have hstore := hflags.store_fresh hwf (rootNode_isFresh tag viewClass width height) hfree
  refine ⟨hstore.created_mounts, hstore.virtual_not_mounts, hstore.viewMounting_mounts,
    hstore.forced_mounts, ?_⟩
  intro r hr
  rcases mem_withRoot.mp hr with hr | rfl
  · exact hstore.root_created hr
  · show (tree.store r _).createdAt r = true
    rw [createdAt_store, if_pos rfl]
    rfl

/-! ## Fields of one node

An update of one node that leaves its links and its kind alone. Only the flags have to be looked at.
-/

/-- An update of a registered node stores its image. -/
theorem update_of_get? {t : Tag} {node : Node κ} {change : Node κ → Node κ}
    (hget : tree.get? t = some node) :
    TreeM.update t change tree = .ok () (tree.store t (change node)) := by
  rw [TreeM.update_apply, hget]

/-- An update of a missing node fails and changes nothing. -/
theorem update_of_missing {t : Tag} {change : Node κ → Node κ} (hget : tree.get? t = none) :
    TreeM.update t change tree = .error (.missing t) tree := by
  rw [TreeM.update_apply, hget]

/-- An update fails without a change, or finds its node and stores the image. -/
theorem update_cases (tree : Tree κ) (t : Tag) (change : Node κ → Node κ) :
    (∃ err, TreeM.update t change tree = .error err tree) ∨
    ∃ node, tree.get? t = some node ∧
      TreeM.update t change tree = .ok () (tree.store t (change node)) := by
  cases hget : tree.get? t with
  | none => exact .inl ⟨_, update_of_missing hget⟩
  | some node => exact .inr ⟨node, rfl, update_of_get? hget⟩

/-- A change of one node that keeps its kind and takes no flag away keeps the flags sound. -/
theorem FlagsSound.store (hflags : tree.FlagsSound) {t : Tag} {node changed : Node κ}
    (hget : tree.get? t = some node) (hkind : changed.kind = node.kind)
    (hforces : changed.forcesChildren = node.forcesChildren) (hparent : changed.parent = node.parent)
    (hmounts : node.mounts = true → changed.mounts = true)
    (hcreated : node.created = true → changed.created = true)
    (hcreated_mounts : changed.created = true → changed.mounts = true)
    (hvirtual : node.kind = .virtual → changed.mounts = false) :
    (tree.store t changed).FlagsSound := by
  -- the changed node stands at `t`, and every other node is the old one
  have hcases : ∀ {x other}, (tree.store t changed).get? x = some other →
      t = x ∧ other = changed ∨ t ≠ x ∧ tree.get? x = some other := by
    intro x other h
    rw [get?_store] at h
    split at h
    · next heq => exact .inl ⟨heq, (Option.some.inj h).symm⟩
    · next hne => exact .inr ⟨hne, h⟩
  refine ⟨?_, ?_, ?_, ?_, ?_⟩
  · intro x other h hc
    rcases hcases h with ⟨-, rfl⟩ | ⟨-, h⟩
    · exact hcreated_mounts hc
    · exact hflags.created_mounts h hc
  · intro x other h hk
    rcases hcases h with ⟨-, rfl⟩ | ⟨-, h⟩
    · exact hvirtual (hkind ▸ hk)
    · exact hflags.virtual_not_mounts h hk
  · intro x other h hk
    rcases hcases h with ⟨-, rfl⟩ | ⟨-, h⟩
    · exact hmounts (hflags.viewMounting_mounts hget (hkind ▸ hk))
    · exact hflags.viewMounting_mounts h hk
  · intro c p other above h hp habove hf hk
    -- the parent's old node forces its children too
    obtain ⟨above', habove', hf'⟩ : ∃ above', tree.get? p = some above' ∧
        above'.forcesChildren = true := by
      rcases hcases habove with ⟨rfl, rfl⟩ | ⟨-, habove⟩
      · exact ⟨node, hget, hforces ▸ hf⟩
      · exact ⟨above, habove, hf⟩
    rcases hcases h with ⟨rfl, rfl⟩ | ⟨-, h⟩
    · exact hmounts (hflags.forced_mounts hget (hparent ▸ hp) habove' hf' (hkind ▸ hk))
    · exact hflags.forced_mounts h hp habove' hf' hk
  · intro r hr
    have hroot := hflags.root_created hr
    rw [createdAt_store]
    split
    -- the changed node may be a root itself, and keeps its view
    · next heq =>
      rw [← heq, createdAt_of_get? hget] at hroot
      exact hcreated hroot
    · exact hroot

/-- Promoting a registered node answers whether it makes a difference, and always succeeds. -/
theorem promote_of_get? {t : Tag} {node : Node κ} (hget : tree.get? t = some node) :
    promote t tree = .ok node.isPromotable (tree.store t node.promote) := by
  have hnode : TreeM.node t tree = .ok node tree := by
    rw [TreeM.node, TreeM.query, node_of_get? hget]
  rw [promote, bind_of_ok hnode, bind_of_ok (update_of_get? hget)]
  rfl

/-- Promoting a missing node fails and changes nothing. -/
theorem promote_of_missing {t : Tag} (hget : tree.get? t = none) :
    promote t tree = .error (.missing t) tree := by
  have hnode : TreeM.node t tree = .error (.missing t) tree := by
    rw [TreeM.node, TreeM.query, node_of_get?_none hget]
  rw [promote, bind_of_error hnode]

/-- A promotion fails without a change, or finds its node and promotes it. -/
theorem promote_cases (tree : Tree κ) (t : Tag) :
    (∃ err, promote t tree = .error err tree) ∨
    ∃ node, tree.get? t = some node ∧
      promote t tree = .ok node.isPromotable (tree.store t node.promote) := by
  cases hget : tree.get? t with
  | none => exact .inl ⟨_, promote_of_missing hget⟩
  | some node => exact .inr ⟨node, rfl, promote_of_get? hget⟩

end Tree

/-! ## Promotion of a node

The reads of a promoted node, one lemma for each. -/

namespace Node

variable (node : Node κ)

@[simp] theorem tag_promote : node.promote.tag = node.tag := by
  rw [promote]; split <;> rfl

@[simp] theorem kind_promote : node.promote.kind = node.kind := by
  rw [promote]; split <;> rfl

@[simp] theorem forcesChildren_promote : node.promote.forcesChildren = node.forcesChildren := by
  rw [promote]; split <;> rfl

@[simp] theorem parent_promote : node.promote.parent = node.parent := by
  rw [promote]; split <;> rfl

@[simp] theorem children_promote : node.promote.children = node.children := by
  rw [promote]; split <;> rfl

@[simp] theorem created_promote : node.promote.created = node.created := by
  rw [promote]; split <;> rfl

@[simp] theorem props_promote : node.promote.props = node.props := by
  rw [promote]; split <;> rfl

@[simp] theorem stamp_promote : node.promote.stamp = node.stamp := by
  rw [promote]; split <;> rfl

/-- After its promotion a node mounts, unless it is virtual and did not mount before. -/
theorem mounts_promote : node.promote.mounts = (node.mounts || node.kind != .virtual) := by
  rw [promote, isPromotable, isVirtual]
  cases hm : node.mounts <;> cases hk : node.kind <;> simp [hm]

/-- A node that mounts is not changed by a promotion. -/
theorem promote_of_mounts {node : Node κ} (h : node.mounts = true) : node.promote = node := by
  rw [promote, isPromotable, h, Bool.not_true, Bool.and_false]
  rfl

/-! ## Attachment of a node

The reads of a node that gets a parent. It is promoted if that parent forces its children to mount.
-/

section AttachedTo

variable (parent : Tag) (forces : Bool)

@[simp] theorem tag_attachedTo : (node.attachedTo parent forces).tag = node.tag := by
  rw [attachedTo]; split <;> simp

@[simp] theorem kind_attachedTo : (node.attachedTo parent forces).kind = node.kind := by
  rw [attachedTo]; split <;> simp

@[simp] theorem forcesChildren_attachedTo :
    (node.attachedTo parent forces).forcesChildren = node.forcesChildren := by
  rw [attachedTo]; split <;> simp

@[simp] theorem parent_attachedTo : (node.attachedTo parent forces).parent = some parent := by
  rw [attachedTo]; split <;> simp

@[simp] theorem children_attachedTo : (node.attachedTo parent forces).children = node.children := by
  rw [attachedTo]; split <;> simp

@[simp] theorem created_attachedTo : (node.attachedTo parent forces).created = node.created := by
  rw [attachedTo]; split <;> simp

@[simp] theorem props_attachedTo : (node.attachedTo parent forces).props = node.props := by
  rw [attachedTo]; split <;> simp

@[simp] theorem stamp_attachedTo : (node.attachedTo parent forces).stamp = node.stamp := by
  rw [attachedTo]; split
  · exact stamp_promote _
  · rfl

/-- An attached node mounts if it did before, or if its parent lays out its children and it is not
virtual. -/
theorem mounts_attachedTo : (node.attachedTo parent forces).mounts =
    (node.mounts || forces && node.kind != .virtual) := by
  rw [attachedTo]
  cases forces
  · simp
  · simp [mounts_promote]

end AttachedTo

end Node

end ShadowMount
