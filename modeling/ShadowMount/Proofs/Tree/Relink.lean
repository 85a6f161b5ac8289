import ShadowMount.Proofs.Tree.Edits

/-!
# Attaching, detaching and removing

The edits that change links. Each has an explicit result tree (`linked`, `unlinked`,
`withoutSubtree`), a lemma that names it, and lemmas that read parent and child links off it. The
two invariants of well-formed links and sound flags survive all three.
-/

namespace ShadowMount.Tree

variable {κ : Type} {tree : Tree κ}

/-! ## Attaching

The checks are made against the lineage of the parent, so attaching needs the shape of the links to
be decided correctly. What it does afterwards is given by one tree, `linked`. -/

/-- `child` may be attached below `parent`: a registered node without a parent, not a root, and not
`parent` or one of its ancestors. -/
structure Attachable (tree : Tree κ) (parent child : Tag) : Prop where
  contained : tree.contains child = true
  parentless : tree.parentOf? child = none
  not_root : child ∉ tree.roots
  not_above : ¬ tree.InSubtree child parent

/-- No node is attachable below itself. -/
theorem Attachable.ne {parent child : Tag} (h : tree.Attachable parent child) : child ≠ parent :=
  fun heq => h.not_above (.inl heq.symm)

/-- The check before an attachment accepts exactly the attachable nodes. -/
theorem checkAttachable_eq_ok_iff (hwf : tree.WellFormed) {parent child : Tag}
    (hparent : tree.contains parent = true) :
    tree.checkAttachable parent child = .ok () ↔ tree.Attachable parent child := by
  obtain ⟨l, hl⟩ := hwf.exists_lineage hparent
  rw [checkAttachable]
  cases hget : tree.get? child with
  | none =>
    -- a missing child is refused, and is not attachable
    rw [node_of_get?_none hget]
    refine ⟨(by intro herr; cases herr), fun h => ?_⟩
    have hcontained := h.contained
    rw [contains, hget] at hcontained
    cases hcontained
  | some node =>
    rw [node_of_get? hget, ok_bind]
    cases hnode : node.parent with
    | some existing =>
      -- a child that has a parent is refused before anything is asked about the new one
      refine ⟨(by intro herr; cases herr), fun h => ?_⟩
      have hnone := h.parentless
      rw [parentOf?_of_get? hget, hnode] at hnone
      cases hnone
    | none =>
      show (if tree.isRoot child then throw _ else _ : Except UiError Unit) = _ ↔ _
      by_cases hroot : tree.isRoot child = true
      · rw [if_pos hroot]
        exact ⟨(by intro herr; cases herr), fun h => absurd (isRoot_iff.mp hroot) h.not_root⟩
      -- the lineage of the parent has the parent and all nodes above it, where the child must not
      -- be
      · rw [if_neg hroot, lineage_eq hwf hl, ok_bind]
        by_cases hmem : l.contains child = true
        · rw [if_pos hmem]
          refine ⟨(by intro herr; cases herr), fun h => absurd ?_ h.not_above⟩
          exact (hl.mem_iff child).mp (List.contains_iff_mem.mp hmem)
        · rw [if_neg hmem]
          refine ⟨fun _ => ⟨contains_of_get? hget, ?_, fun h => hroot (isRoot_iff.mpr h), ?_⟩,
            fun _ => rfl⟩
          · rw [parentOf?_of_get? hget, hnode]
          · exact fun h => hmem (List.contains_iff_mem.mpr ((hl.mem_iff child).mpr h))

/-- The tree in which `child`, whose node is `node`, is the child of `parent` at `index`. -/
def linked (tree : Tree κ) (parent child : Tag) (index : Nat) (above node : Node κ) : Tree κ :=
  (tree.store parent { above with children := above.children.insertIdx index child }).store child
    (node.attachedTo parent above.forcesChildren)

/-- An attachable node is attached: the checks pass and the two nodes are updated. -/
theorem attach_of_attachable (hwf : tree.WellFormed) {parent child : Tag} {index : Nat}
    {above node : Node κ} (habove : tree.get? parent = some above)
    (hnode : tree.get? child = some node) (hindex : index ≤ above.children.length)
    (h : tree.Attachable parent child) :
    attach parent child index tree = .ok () (tree.linked parent child index above node) := by
  have hparent : TreeM.node parent tree = .ok above tree := by
    rw [TreeM.node, TreeM.query, node_of_get? habove]
  have hcheck : TreeM.query (·.checkAttachable parent child) tree = .ok () tree := by
    rw [TreeM.query, (checkAttachable_eq_ok_iff hwf (contains_of_get? habove)).mpr h]
  rw [attach, bind_of_ok hparent, if_neg (by omega), bind_of_ok hcheck,
    bind_of_ok (update_of_get? habove)]
  exact update_of_get? (by rw [get?_store, if_neg h.ne.symm, hnode])

/-- An attachment fails without a change, or links an attachable node. -/
theorem attach_cases (hwf : tree.WellFormed) (parent child : Tag) (index : Nat) :
    (∃ err, attach parent child index tree = .error err tree) ∨
    ∃ above node, tree.get? parent = some above ∧ tree.get? child = some node ∧
      index ≤ above.children.length ∧ tree.Attachable parent child ∧
      attach parent child index tree = .ok () (tree.linked parent child index above node) := by
  cases habove : tree.get? parent with
  | none =>
    have hparent : TreeM.node parent tree = .error (.missing parent) tree := by
      rw [TreeM.node, TreeM.query, node_of_get?_none habove]
    -- the checks come in this order: the parent is there, the position exists, the child is
    -- attachable
    exact .inl ⟨_, by rw [attach, bind_of_error hparent]⟩
  | some above =>
    have hparent : TreeM.node parent tree = .ok above tree := by
      rw [TreeM.node, TreeM.query, node_of_get? habove]
    by_cases hindex : above.children.length < index
    · exact .inl ⟨_, by rw [attach, bind_of_ok hparent, if_pos hindex]; rfl⟩
    · cases hcheck : tree.checkAttachable parent child with
      | error err =>
        have hquery : TreeM.query (·.checkAttachable parent child) tree = .error err tree := by
          rw [TreeM.query, hcheck]
        exact .inl ⟨err, by rw [attach, bind_of_ok hparent, if_neg hindex, bind_of_error hquery]⟩
      | ok _ =>
        have h := (checkAttachable_eq_ok_iff hwf (contains_of_get? habove)).mp hcheck
        obtain ⟨node, hnode⟩ := contains_iff.mp h.contained
        exact .inr ⟨above, node, rfl, hnode, by omega, h,
          attach_of_attachable hwf habove hnode (by omega) h⟩

/-! ## Two nodes at once -/

section Pair

variable {parent child : Tag} {above node above' node' : Node κ}

/-! Attaching and detaching both change the node of a parent and then that of a child. These lemmas
read the tree with two changed nodes, for changes that leave the other data of the two alone: the
parent keeps its own parent, the child its own children. -/

theorem parentOf?_store_pair (habove : tree.get? parent = some above)
    (hparent : above'.parent = above.parent) (x : Tag) :
    ((tree.store parent above').store child node').parentOf? x =
      if child = x then node'.parent else tree.parentOf? x := by
  rw [parentOf?_store, parentOf?_store]
  refine if_congr Iff.rfl rfl ?_
  split
  · next heq => rw [← heq, parentOf?_of_get? habove, hparent]
  · rfl

theorem childrenOf_store_pair (hnode : tree.get? child = some node)
    (hchildren : node'.children = node.children) (hne : child ≠ parent) (x : Tag) :
    ((tree.store parent above').store child node').childrenOf x =
      if parent = x then above'.children else tree.childrenOf x := by
  rw [childrenOf_store, childrenOf_store]
  split
  · next heq =>
    -- the child is stored last, but has the children it had
    rw [if_neg (fun h => hne (heq.trans h.symm)), ← heq, childrenOf_of_get? hnode, hchildren]
  · rfl

theorem contains_store_pair (habove : tree.get? parent = some above)
    (hnode : tree.get? child = some node) (x : Tag) :
    ((tree.store parent above').store child node').contains x = tree.contains x := by
  rw [contains_store, contains_store]
  by_cases hc : child = x
  · rw [← hc, contains_of_get? hnode, Bool.or_true, Bool.or_true]
  · by_cases hp : parent = x
    · rw [← hp, contains_of_get? habove, Bool.or_true, Bool.or_true]
    · simp [hc, hp]

theorem createdAt_store_pair (habove : tree.get? parent = some above)
    (hnode : tree.get? child = some node) (hsame : above'.created = above.created)
    (hsame' : node'.created = node.created) (x : Tag) :
    ((tree.store parent above').store child node').createdAt x = tree.createdAt x := by
  rw [createdAt_store, createdAt_store]
  split
  · next heq => rw [← heq, createdAt_of_get? hnode, hsame']
  · split
    · next heq => rw [← heq, createdAt_of_get? habove, hsame]
    · rfl

/-- Two changed nodes with the right tags keep every node stored under its own tag. -/
theorem tag_store_pair (hwf : tree.WellFormed) (habove : above'.tag = parent)
    (hnode : node'.tag = child) {t : Tag} {other : Node κ}
    (hget : ((tree.store parent above').store child node').get? t = some other) :
    other.tag = t := by
  rw [get?_store, get?_store] at hget
  split at hget
  · next heq => rw [← heq, ← Option.some.inj hget, hnode]
  · split at hget
    · next heq => rw [← heq, ← Option.some.inj hget, habove]
    · exact hwf.tag_eq hget

end Pair

/-- A tree whose nodes are old ones, with the flags they had and with no new parent. -/
theorem FlagsSound.restrict {after : Tree κ} (hflags : tree.FlagsSound)
    (hnodes : ∀ {x other}, after.get? x = some other → ∃ old, tree.get? x = some old ∧
      other.kind = old.kind ∧ other.created = old.created ∧
      other.forcesChildren = old.forcesChildren ∧ other.mounts = old.mounts ∧
      (other.parent = none ∨ other.parent = old.parent))
    (hroots : ∀ r ∈ after.roots, r ∈ tree.roots ∧ after.contains r = true) :
    after.FlagsSound := by
  -- each clause is that of the old node, which has the same kind and flags
  refine ⟨?_, ?_, ?_, ?_, ?_⟩
  · intro x other h hcreated
    obtain ⟨old, hold, -, hc, -, hm, -⟩ := hnodes h
    rw [hm, hflags.created_mounts hold (hc ▸ hcreated)]
  · intro x other h hk
    obtain ⟨old, hold, hkind, -, -, hm, -⟩ := hnodes h
    rw [hm, hflags.virtual_not_mounts hold (hkind ▸ hk)]
  · intro x other h hk
    obtain ⟨old, hold, hkind, -, -, hm, -⟩ := hnodes h
    rw [hm, hflags.viewMounting_mounts hold (hkind ▸ hk)]
  · intro c p other up h hp hup hforces hk
    obtain ⟨oldUp, holdUp, -, -, hupForces, -⟩ := hnodes hup
    obtain ⟨old, hold, hkind, -, -, hm, hnone | hparent⟩ := hnodes h
    · -- a node that lost its parent is forced by nobody
      rw [hnone] at hp
      cases hp
    · rw [hm]
      exact hflags.forced_mounts hold (hparent ▸ hp) holdUp (hupForces ▸ hforces) (hkind ▸ hk)
  · intro r hr
    obtain ⟨hroot, hcontained⟩ := hroots r hr
    obtain ⟨other, hother⟩ := contains_iff.mp hcontained
    obtain ⟨old, hold, -, hc, -⟩ := hnodes hother
    -- a root that is left has the view it had
    rw [createdAt_of_get? hother, hc, ← createdAt_of_get? hold]
    exact hflags.root_created hroot

/-! ## Linking

The resulting tree, read off link by link. Only one parent link is new, that of the child, and only
one list has changed, that of the parent. -/

section Linked

variable {parent child : Tag} {index : Nat} {above node : Node κ}

/-- What the tags name after an attachment: the child its attached node, the parent its node with
the longer list, every other tag what it named before. -/
theorem get?_linked (x : Tag) : (tree.linked parent child index above node).get? x =
    if child = x then some (node.attachedTo parent above.forcesChildren)
    else if parent = x then some { above with children := above.children.insertIdx index child }
    else tree.get? x := by
  rw [linked, get?_store, get?_store]

theorem parentOf?_linked (habove : tree.get? parent = some above) (x : Tag) :
    (tree.linked parent child index above node).parentOf? x =
      if child = x then some parent else tree.parentOf? x := by
  refine (parentOf?_store_pair habove ?_ x).trans ?_
  · rfl
  · rw [Node.parent_attachedTo]

theorem childrenOf_linked (hnode : tree.get? child = some node) (hne : child ≠ parent) (x : Tag) :
    (tree.linked parent child index above node).childrenOf x =
      if parent = x then above.children.insertIdx index child else tree.childrenOf x :=
  childrenOf_store_pair hnode (Node.children_attachedTo ..) hne x

theorem contains_linked (habove : tree.get? parent = some above)
    (hnode : tree.get? child = some node) (x : Tag) :
    (tree.linked parent child index above node).contains x = tree.contains x :=
  contains_store_pair habove hnode x

theorem createdAt_linked (habove : tree.get? parent = some above)
    (hnode : tree.get? child = some node) (x : Tag) :
    (tree.linked parent child index above node).createdAt x = tree.createdAt x := by
  refine createdAt_store_pair habove hnode ?_ (Node.created_attachedTo ..) x
  rfl

/-- The ranks of the attached subtree are lifted above the parent's. -/
theorem WellFormed.acyclic_linked (hwf : tree.WellFormed) (habove : tree.get? parent = some above)
    (h : tree.Attachable parent child) : ∃ rank : Tag → Nat, ∀ {c p},
      (tree.linked parent child index above node).parentOf? c = some p → rank p < rank c := by
  classical
  obtain ⟨rank, hrank⟩ := hwf.acyclic
  refine ⟨fun x => if tree.InSubtree child x then rank x + rank parent + 1 else rank x, ?_⟩
  intro c p hp
  show (if tree.InSubtree child p then _ else _) < if tree.InSubtree child c then _ else _
  rw [parentOf?_linked habove] at hp
  split at hp
  · next heq =>
    -- the new link: the parent is not lifted, the child is
    cases hp
    subst heq
    rw [if_neg h.not_above, if_pos (InSubtree.refl child)]
    omega
  -- every other link is an old one, with both ends lifted, only the child lifted, or neither
  · next hne =>
    have hlt := hrank hp
    by_cases hsub : tree.InSubtree child p
    · rw [if_pos hsub, if_pos (hsub.child hp)]
      omega
    · rw [if_neg hsub]
      split <;> omega

/-- Attaching an attachable node keeps the shape. The attachment adds one link, from a node that had
no parent to a list that did not have it, so the two directions still agree. -/
theorem WellFormed.linked (hwf : tree.WellFormed) (habove : tree.get? parent = some above)
    (hnode : tree.get? child = some node) (hindex : index ≤ above.children.length)
    (h : tree.Attachable parent child) :
    (tree.linked parent child index above node).WellFormed := by
  have hparentOf : ∀ x, (tree.linked parent child index above node).parentOf? x =
      if child = x then some parent else tree.parentOf? x := parentOf?_linked habove
  have hchildrenOf : ∀ x, (tree.linked parent child index above node).childrenOf x =
      if parent = x then above.children.insertIdx index child else tree.childrenOf x :=
    childrenOf_linked hnode h.ne
  -- a child of `parent` would have a parent, so the new entry is the only one
  have hnotmem : child ∉ above.children := by
    intro hmem
    rw [← childrenOf_of_get? habove, hwf.link, h.parentless] at hmem
    cases hmem
  refine ⟨?_, ?_, ?_, hwf.acyclic_linked habove h, hwf.roots_nodup, ?_, ?_⟩
  · intro t other hget
    have habove' := hwf.tag_eq habove
    refine tag_store_pair hwf ?_ ?_ hget
    · exact habove'
    · rw [Node.tag_attachedTo, hwf.tag_eq hnode]
  -- the directions agree: for the parent's list, for the child's parent, and elsewhere as before
  · intro c p
    rw [hparentOf, hchildrenOf]
    by_cases hp : parent = p
    · subst hp
      rw [if_pos rfl, List.mem_insertIdx hindex]
      by_cases hc : child = c
      · simp [hc]
      · rw [if_neg hc, ← childrenOf_of_get? habove, hwf.link]
        exact or_iff_right fun heq => hc heq.symm
    · rw [if_neg hp, hwf.link]
      by_cases hc : child = c
      · subst hc
        rw [if_pos rfl, h.parentless]
        simp [hp]
      · rw [if_neg hc]
  · intro p
    rw [hchildrenOf]
    -- the new entry is not among the old ones, so the parent's list still has no repeat
    split
    · refine (List.perm_insertIdx child _ hindex).nodup_iff.mpr (List.nodup_cons.mpr ⟨hnotmem, ?_⟩)
      rw [← childrenOf_of_get? habove]
      exact hwf.nodup parent
    · exact hwf.nodup p
  · intro r hr
    rw [contains_linked habove hnode]
    exact hwf.root_contained hr
  · intro r hr
    have hne : child ≠ r := fun heq => h.not_root (heq ▸ hr)
    rw [hparentOf, if_neg hne]
    exact hwf.root_parentless hr

/-- Attaching a node keeps the flags sound. The child may be promoted, which only adds the flag that
its new parent asks for. -/
theorem FlagsSound.linked (hflags : tree.FlagsSound) (habove : tree.get? parent = some above)
    (hnode : tree.get? child = some node) :
    (tree.linked parent child index above node).FlagsSound := by
  -- every node keeps kind, creation and forcing; only the child gets a parent and may be promoted
  have hcases : ∀ {x other}, (tree.linked parent child index above node).get? x = some other →
      ∃ old, tree.get? x = some old ∧ other.kind = old.kind ∧ other.created = old.created ∧
        other.forcesChildren = old.forcesChildren ∧
        (child = x ∧ other = node.attachedTo parent above.forcesChildren ∨
          other.parent = old.parent ∧ other.mounts = old.mounts) := by
    intro x other h
    rw [get?_linked] at h
    split at h
    · next heq =>
      cases h
      exact ⟨node, heq ▸ hnode, by simp, by simp, by simp, .inl ⟨heq, rfl⟩⟩
    · split at h
      · next heq =>
        cases h
        exact ⟨above, heq ▸ habove, rfl, rfl, rfl, .inr ⟨rfl, rfl⟩⟩
      · exact ⟨other, h, rfl, rfl, rfl, .inr ⟨rfl, rfl⟩⟩
  refine ⟨?_, ?_, ?_, ?_, ?_⟩
  · intro x other h hcreated
    obtain ⟨old, hold, -, hc, -, ⟨-, rfl⟩ | ⟨-, hm⟩⟩ := hcases h
    · rw [Node.mounts_attachedTo, hflags.created_mounts hnode (by simpa using hcreated)]
      rfl
    · rw [hm, hflags.created_mounts hold (hc ▸ hcreated)]
  · intro x other h hk
    obtain ⟨old, hold, hkind, -, -, ⟨-, rfl⟩ | ⟨-, hm⟩⟩ := hcases h
    · have hknode : node.kind = .virtual := by simpa using hk
      rw [Node.mounts_attachedTo, hflags.virtual_not_mounts hnode hknode, hknode]
      simp
    · rw [hm, hflags.virtual_not_mounts hold (hkind ▸ hk)]
  · intro x other h hk
    obtain ⟨old, hold, hkind, -, -, ⟨-, rfl⟩ | ⟨-, hm⟩⟩ := hcases h
    · rw [Node.mounts_attachedTo, hflags.viewMounting_mounts hnode (by simpa using hk)]
      rfl
    · rw [hm, hflags.viewMounting_mounts hold (hkind ▸ hk)]
  · intro c p other up h hp hup hforces hk
    obtain ⟨oldUp, holdUp, -, -, hupForces, -⟩ := hcases hup
    obtain ⟨old, hold, hkind, -, -, ⟨hx, rfl⟩ | ⟨hparent, hm⟩⟩ := hcases h
    -- the new link: its parent forces the attached node exactly if it forces its children
    · obtain rfl : parent = p := Option.some.inj (by rw [← hp, Node.parent_attachedTo])
      rw [habove] at holdUp
      cases holdUp
      have hknode : node.kind ≠ .virtual := by simpa using hk
      rw [Node.mounts_attachedTo, ← hupForces, hforces]
      simp [hknode]
    · rw [hm]
      exact hflags.forced_mounts hold (hparent ▸ hp) holdUp (hupForces ▸ hforces) (hkind ▸ hk)
  · intro r hr
    rw [createdAt_linked habove hnode]
    exact hflags.root_created hr

end Linked

/-! ## Detaching

The reverse of attaching, at a position of the list. On a well-formed tree the entry at a position
names a node whose parent is the one that lists it. -/

/-- The tree in which `child`, whose node is `node`, is taken from `index` of the children of
`parent`. -/
def unlinked (tree : Tree κ) (parent child : Tag) (index : Nat) (above node : Node κ) : Tree κ :=
  (tree.store parent { above with children := above.children.eraseIdx index }).store child
    { node with parent := none }

/-- A child is another node than its parent. -/
theorem WellFormed.child_ne_parent (hwf : tree.WellFormed) {parent child : Tag}
    (h : tree.parentOf? child = some parent) : child ≠ parent := by
  rintro rfl
  exact hwf.not_ancestor_self _ (.parent h)

/-- The children of a node are registered and name it. -/
theorem WellFormed.get?_child (hwf : tree.WellFormed) {parent child : Tag} {above : Node κ}
    (habove : tree.get? parent = some above) (hmem : child ∈ above.children) :
    ∃ node, tree.get? child = some node ∧ node.parent = some parent :=
  get?_of_parentOf? (hwf.link.mp (by rw [childrenOf_of_get? habove]; exact hmem))

/-- Taking the child at an index of the list away answers the child. On a well-formed tree the child
is there, so the failure after the change of the list does not occur. -/
theorem detachAt_of_index (hwf : tree.WellFormed) {parent child : Tag} {index : Nat}
    {above node : Node κ} (habove : tree.get? parent = some above)
    (hchild : above.children[index]? = some child) (hnode : tree.get? child = some node) :
    detachAt parent index tree = .ok child (tree.unlinked parent child index above node) := by
  have hparent : TreeM.node parent tree = .ok above tree := by
    rw [TreeM.node, TreeM.query, node_of_get? habove]
  have hlink := hwf.link.mp (by
    rw [childrenOf_of_get? habove]
    exact List.mem_of_getElem? hchild)
  have hne := hwf.child_ne_parent hlink
  rw [detachAt, bind_of_ok hparent, hchild]
  show (TreeM.update parent _ >>= fun _ => TreeM.update child _ >>= fun _ => pure child) tree = _
  rw [bind_of_ok (update_of_get? habove),
    bind_of_ok (update_of_get? (by rw [get?_store, if_neg hne.symm, hnode]))]
  rfl

/-- A detachment fails without a change, or unlinks the child at the index. -/
theorem detachAt_cases (hwf : tree.WellFormed) (parent : Tag) (index : Nat) :
    (∃ err, detachAt parent index tree = .error err tree) ∨
    ∃ above child node, tree.get? parent = some above ∧ above.children[index]? = some child ∧
      tree.get? child = some node ∧
      detachAt parent index tree = .ok child (tree.unlinked parent child index above node) := by
  -- the checks come in this order: the parent is there, the position exists
  cases habove : tree.get? parent with
  | none =>
    have hparent : TreeM.node parent tree = .error (.missing parent) tree := by
      rw [TreeM.node, TreeM.query, node_of_get?_none habove]
    exact .inl ⟨_, by rw [detachAt, bind_of_error hparent]⟩
  | some above =>
    have hparent : TreeM.node parent tree = .ok above tree := by
      rw [TreeM.node, TreeM.query, node_of_get? habove]
    cases hchild : above.children[index]? with
    | none => exact .inl ⟨_, by rw [detachAt, bind_of_ok hparent, hchild]; rfl⟩
    | some child =>
      obtain ⟨node, hnode, -⟩ := hwf.get?_child habove (List.mem_of_getElem? hchild)
      exact .inr ⟨above, child, node, rfl, hchild, hnode,
        detachAt_of_index hwf habove hchild hnode⟩

/-- Without repeats, erasing an index loses exactly the element there. -/
theorem mem_eraseIdx_of_nodup {α : Type} {l : List α} {index : Nat} {a b : α} (hnodup : l.Nodup)
    (ha : l[index]? = some a) : b ∈ l.eraseIdx index ↔ b ≠ a ∧ b ∈ l := by
  rw [List.mem_eraseIdx_iff_getElem?]
  constructor
  · rintro ⟨i, hne, hi⟩
    refine ⟨?_, List.mem_of_getElem? hi⟩
    rintro rfl
    exact hne ((List.getElem?_inj (List.getElem?_eq_some_iff.mp hi).1 hnodup).mp (hi.trans ha.symm))
  · rintro ⟨hne, hmem⟩
    obtain ⟨i, hi⟩ := List.mem_iff_getElem?.mp hmem
    refine ⟨i, ?_, hi⟩
    rintro rfl
    exact hne (Option.some.inj (hi.symm.trans ha))

section Unlinked

variable {parent child : Tag} {index : Nat} {above node : Node κ}

/-- What the tags name after a detachment. -/
theorem get?_unlinked (x : Tag) : (tree.unlinked parent child index above node).get? x =
    if child = x then some { node with parent := none }
    else if parent = x then some { above with children := above.children.eraseIdx index }
    else tree.get? x := by
  rw [unlinked, get?_store, get?_store]

theorem parentOf?_unlinked (habove : tree.get? parent = some above) (x : Tag) :
    (tree.unlinked parent child index above node).parentOf? x =
      if child = x then none else tree.parentOf? x := by
  refine parentOf?_store_pair habove ?_ x
  rfl

theorem childrenOf_unlinked (hnode : tree.get? child = some node) (hne : child ≠ parent) (x : Tag) :
    (tree.unlinked parent child index above node).childrenOf x =
      if parent = x then above.children.eraseIdx index else tree.childrenOf x := by
  refine childrenOf_store_pair hnode ?_ hne x
  rfl

theorem contains_unlinked (habove : tree.get? parent = some above)
    (hnode : tree.get? child = some node) (x : Tag) :
    (tree.unlinked parent child index above node).contains x = tree.contains x :=
  contains_store_pair habove hnode x

theorem createdAt_unlinked (habove : tree.get? parent = some above)
    (hnode : tree.get? child = some node) (x : Tag) :
    (tree.unlinked parent child index above node).createdAt x = tree.createdAt x := by
  refine createdAt_store_pair habove hnode ?_ ?_ x
  · rfl
  · rfl

/-- Detaching a child keeps the shape: one link is lost, in both its directions. -/
theorem WellFormed.unlinked (hwf : tree.WellFormed) (habove : tree.get? parent = some above)
    (hchild : above.children[index]? = some child) (hnode : tree.get? child = some node) :
    (tree.unlinked parent child index above node).WellFormed := by
  have hchildren := childrenOf_of_get? habove
  have hlink := hwf.link.mp (by rw [hchildren]; exact List.mem_of_getElem? hchild)
  have hne := hwf.child_ne_parent hlink
  have hnodup : above.children.Nodup := hchildren ▸ hwf.nodup parent
  have hparentOf : ∀ x, (tree.unlinked parent child index above node).parentOf? x =
      if child = x then none else tree.parentOf? x := parentOf?_unlinked habove
  have hchildrenOf : ∀ x, (tree.unlinked parent child index above node).childrenOf x =
      if parent = x then above.children.eraseIdx index else tree.childrenOf x :=
    childrenOf_unlinked hnode hne
  refine ⟨?_, ?_, ?_, ?_, hwf.roots_nodup, ?_, ?_⟩
  · intro t other hget
    have habove' := hwf.tag_eq habove
    have hnode' := hwf.tag_eq hnode
    refine tag_store_pair hwf ?_ ?_ hget
    · exact habove'
    · exact hnode'
  -- the directions agree: for the parent's list, for the child's parent, and elsewhere as before
  · intro c p
    rw [hparentOf, hchildrenOf]
    by_cases hp : parent = p
    · subst hp
      rw [if_pos rfl, mem_eraseIdx_of_nodup hnodup hchild, ← hchildren, hwf.link]
      by_cases hc : child = c
      · simp [hc]
      · rw [if_neg hc]
        exact and_iff_right fun heq => hc heq.symm
    · rw [if_neg hp, hwf.link]
      by_cases hc : child = c
      · subst hc
        rw [if_pos rfl, hlink]
        simp [hp]
      · rw [if_neg hc]
  · intro p
    rw [hchildrenOf]
    split
    · exact hnodup.eraseIdx _
    · exact hwf.nodup p
  · -- links are only lost, and the old rank still descends along the others
    obtain ⟨rank, hrank⟩ := hwf.acyclic
    refine ⟨rank, fun {c p} hp => hrank ?_⟩
    rw [hparentOf] at hp
    split at hp
    · cases hp
    · exact hp
  · intro r hr
    rw [contains_unlinked habove hnode]
    exact hwf.root_contained hr
  · intro r hr
    rw [hparentOf]
    split
    · rfl
    · exact hwf.root_parentless hr

/-- Detaching a child keeps the flags sound. The child may go on to mount although nobody forces it
any more. -/
theorem FlagsSound.unlinked (hflags : tree.FlagsSound) (hwf : tree.WellFormed)
    (habove : tree.get? parent = some above) (hnode : tree.get? child = some node) :
    (tree.unlinked parent child index above node).FlagsSound := by
  refine hflags.restrict (fun {x other} h => ?_) fun r hr => ⟨hr, ?_⟩
  · rw [get?_unlinked] at h
    split at h
    · next heq =>
      cases h
      exact ⟨node, heq ▸ hnode, rfl, rfl, rfl, rfl, .inl rfl⟩
    · split at h
      · next heq =>
        cases h
        exact ⟨above, heq ▸ habove, rfl, rfl, rfl, rfl, .inr rfl⟩
      · exact ⟨other, h, rfl, rfl, rfl, rfl, .inr rfl⟩
  · rw [contains_unlinked habove hnode]
    exact hwf.root_contained hr

end Unlinked

/-! ## Removing a subtree

The top is taken off its parent's list, and then all nodes of the subtree are erased. No node
outside of the subtree refers to one inside of it any more. -/

/-- The tree in which the parent of `tag` does not list it. -/
def unlisted (tree : Tree κ) (tag : Tag) : Tree κ :=
  match tree.parentOf? tag with
  | none => tree
  | some parent =>
    match tree.get? parent with
    | none => tree
    | some above =>
      tree.store parent { above with children := above.children.filter (· != tag) }

/-- The tree without the nodes `members` of the subtree of `tag`. -/
def withoutSubtree (tree : Tree κ) (tag : Tag) (members : List Tag) : Tree κ :=
  { (tree.unlisted tag).eraseAll members with roots := tree.roots.erase tag }

/-- Without a parent there is no list to change. -/
theorem unlisted_of_parentless {tag : Tag} (hparent : tree.parentOf? tag = none) :
    tree.unlisted tag = tree := by
  simp only [unlisted, hparent]

/-- With a parent it is the parent's list that changes. -/
theorem unlisted_of_parent {tag parent : Tag} {above : Node κ}
    (hparent : tree.parentOf? tag = some parent) (habove : tree.get? parent = some above) :
    tree.unlisted tag =
      tree.store parent { above with children := above.children.filter (· != tag) } := by
  simp only [unlisted, hparent, habove]

/-- Removing a missing node fails and changes nothing. -/
theorem removeSubtree_of_missing {tag : Tag} (hget : tree.get? tag = none) :
    removeSubtree tag tree = .error (.missing tag) tree := by
  have hchildren : tree.children tag = .error (.missing tag) := by
    rw [children, node_of_get?_none hget]
    rfl
  have hquery : TreeM.query (·.postOrder tag) tree = .error (.missing tag) tree := by
    rw [TreeM.query, postOrder, budget, postOrderFrom, hchildren]
    rfl
  rw [removeSubtree, bind_of_error hquery]

/-- Removing a registered node takes the nodes of its post-order out of the tree. -/
theorem removeSubtree_of_contains (hwf : tree.WellFormed) {tag : Tag} {members : List Tag}
    (ht : tree.contains tag = true) (hmembers : tree.postOrder tag = .ok members) :
    removeSubtree tag tree = .ok members (tree.withoutSubtree tag members) := by
  obtain ⟨node, hget⟩ := contains_iff.mp ht
  have hquery : TreeM.query (·.postOrder tag) tree = .ok members tree := by
    rw [TreeM.query, hmembers]
  have hnode : TreeM.node tag tree = .ok node tree := by
    rw [TreeM.node, TreeM.query, node_of_get? hget]
  rw [removeSubtree, bind_of_ok hquery, bind_of_ok hnode, withoutSubtree]
  -- a parent is there, since it lists the node, so the update of its list cannot fail
  cases hparent : node.parent with
  | none =>
    rw [unlisted_of_parentless (by rw [parentOf?_of_get? hget, hparent])]
    rfl
  | some parent =>
    have hparentOf : tree.parentOf? tag = some parent := by rw [parentOf?_of_get? hget, hparent]
    obtain ⟨above, habove⟩ := contains_iff.mp (hwf.contains_parent hparentOf)
    rw [unlisted_of_parent hparentOf habove]
    exact bind_of_ok (update_of_get? habove)

/-- The removal of a subtree fails without a change, or lists the subtree and takes it out. On a
well-formed tree the list never breaks off, so nothing is cut off halfway. -/
theorem removeSubtree_cases (hwf : tree.WellFormed) (tag : Tag) :
    (∃ err, removeSubtree tag tree = .error err tree) ∨
    ∃ members, tree.contains tag = true ∧ tree.postOrder tag = .ok members ∧
      removeSubtree tag tree = .ok members (tree.withoutSubtree tag members) := by
  cases hget : tree.get? tag with
  | none => exact .inl ⟨_, removeSubtree_of_missing hget⟩
  | some node =>
    have ht := contains_of_get? hget
    obtain ⟨members, hmembers, -⟩ := postOrder_spec hwf ht
    exact .inr ⟨members, ht, hmembers, removeSubtree_of_contains hwf ht hmembers⟩

section WithoutSubtree

variable {tag : Tag}

/-- Changing a list of children changes no parent. -/
theorem parentOf?_unlisted (hwf : tree.WellFormed) (x : Tag) :
    (tree.unlisted tag).parentOf? x = tree.parentOf? x := by
  cases hparent : tree.parentOf? tag with
  | none => rw [unlisted_of_parentless hparent]
  | some parent =>
    obtain ⟨above, habove⟩ := contains_iff.mp (hwf.contains_parent hparent)
    rw [unlisted_of_parent hparent habove, parentOf?_store]
    split
    · next heq => rw [← heq, parentOf?_of_get? habove]
    · rfl

/-- Every list loses the tag, as only the parent's has it. -/
theorem childrenOf_unlisted (hwf : tree.WellFormed) (x : Tag) :
    (tree.unlisted tag).childrenOf x = (tree.childrenOf x).filter (· != tag) := by
  have hother : tree.parentOf? tag ≠ some x →
      (tree.childrenOf x).filter (· != tag) = tree.childrenOf x := by
    intro hne
    refine List.filter_eq_self.mpr fun c hc => ?_
    rw [bne_iff_ne]
    rintro rfl
    exact hne (hwf.link.mp hc)
  cases hparent : tree.parentOf? tag with
  -- the others do not list the tag, because the tag names at most one parent
  | none => rw [unlisted_of_parentless hparent, hother (by rw [hparent]; nofun)]
  | some parent =>
    obtain ⟨above, habove⟩ := contains_iff.mp (hwf.contains_parent hparent)
    rw [unlisted_of_parent hparent habove, childrenOf_store]
    split
    · next heq => rw [← heq, childrenOf_of_get? habove]
    · next hne => exact (hother (by rw [hparent]; exact fun h => hne (Option.some.inj h))).symm

/-- Listing aside, the nodes are as before. -/
theorem get?_unlisted (hwf : tree.WellFormed) (x : Tag) : (tree.unlisted tag).get? x =
    (tree.get? x).map fun node => { node with children := node.children.filter (· != tag) } := by
  -- only the parent lists the tag, so elsewhere the filter takes nothing out
  have hsame : ∀ {y : Tag} {node : Node κ}, tree.get? y = some node →
      tree.parentOf? tag ≠ some y →
      { node with children := node.children.filter (· != tag) } = node := by
    intro y node hget hne
    have hfilter : node.children.filter (· != tag) = node.children := by
      refine List.filter_eq_self.mpr fun c hc => ?_
      rw [bne_iff_ne]
      rintro rfl
      exact hne (hwf.link.mp (by rw [childrenOf_of_get? hget]; exact hc))
    rw [hfilter]
  have hmap : tree.parentOf? tag ≠ some x → (tree.get? x).map
      (fun node => { node with children := node.children.filter (· != tag) }) = tree.get? x := by
    intro hne
    cases hget : tree.get? x with
    | none => rfl
    | some node => rw [Option.map_some, hsame hget hne]
  cases hparent : tree.parentOf? tag with
  | none => rw [unlisted_of_parentless hparent, hmap (by rw [hparent]; nofun)]
  | some parent =>
    obtain ⟨above, habove⟩ := contains_iff.mp (hwf.contains_parent hparent)
    rw [unlisted_of_parent hparent habove, get?_store]
    split
    · next heq => rw [← heq, habove, Option.map_some]
    · next hne => exact (hmap (by rw [hparent]; exact fun h => hne (Option.some.inj h))).symm

/-- What the tags name without a subtree: its members nothing, and every other tag its old node,
less the top of the subtree among its children. -/
theorem get?_withoutSubtree (hwf : tree.WellFormed) {members : List Tag} (x : Tag) :
    (tree.withoutSubtree tag members).get? x =
      if x ∈ members then none else
        (tree.get? x).map fun node => { node with children := node.children.filter (· != tag) } := by
  show ((tree.unlisted tag).eraseAll members).get? x = _
  rw [get?_eraseAll, get?_unlisted hwf]

/-- Removing nodes neither poisons a tree nor heals it. -/
@[simp] theorem poisoned_withoutSubtree {members : List Tag} :
    (tree.withoutSubtree tag members).poisoned = tree.poisoned := by
  show (tree.unlisted tag).poisoned = _
  unfold unlisted
  split
  · rfl
  · split <;> rfl

/-- A parentless top is listed nowhere, so the other nodes are as before. -/
theorem get?_withoutSubtree_of_parentless {members : List Tag} (hparent : tree.parentOf? tag = none)
    (x : Tag) : (tree.withoutSubtree tag members).get? x =
      if x ∈ members then none else tree.get? x := by
  show ((tree.unlisted tag).eraseAll members).get? x = _
  rw [get?_eraseAll, unlisted_of_parentless hparent]

/-- Without a subtree, the remaining nodes keep their parents. -/
theorem parentOf?_withoutSubtree (hwf : tree.WellFormed) {members : List Tag} (x : Tag) :
    (tree.withoutSubtree tag members).parentOf? x =
      if x ∈ members then none else tree.parentOf? x := by
  show ((tree.unlisted tag).eraseAll members).parentOf? x = _
  rw [parentOf?, get?_eraseAll]
  split
  · rfl
  · exact parentOf?_unlisted hwf x

/-- Without a subtree, the remaining nodes keep their children, less the top of the subtree. -/
theorem childrenOf_withoutSubtree (hwf : tree.WellFormed) {members : List Tag} (x : Tag) :
    (tree.withoutSubtree tag members).childrenOf x =
      if x ∈ members then [] else (tree.childrenOf x).filter (· != tag) := by
  show ((tree.unlisted tag).eraseAll members).childrenOf x = _
  rw [childrenOf, get?_eraseAll]
  split
  · rfl
  · exact childrenOf_unlisted hwf x

/-- The remaining nodes are those outside the subtree. -/
theorem contains_withoutSubtree (hwf : tree.WellFormed) {members : List Tag} (x : Tag) :
    (tree.withoutSubtree tag members).contains x = (decide (x ∉ members) && tree.contains x) := by
  rw [contains, get?_withoutSubtree hwf]
  by_cases h : x ∈ members <;> simp [h, contains]

/-- The nodes that stay when a subtree is removed keep their views. -/
theorem createdAt_withoutSubtree (hwf : tree.WellFormed) {members : List Tag} {x : Tag}
    (hx : (tree.withoutSubtree tag members).contains x = true) :
    x ∉ members ∧ (tree.withoutSubtree tag members).createdAt x = tree.createdAt x := by
  rw [contains_withoutSubtree hwf, Bool.and_eq_true, decide_eq_true_iff] at hx
  refine ⟨hx.1, ?_⟩
  rw [createdAt, get?_withoutSubtree hwf, if_neg hx.1, Option.any_map]
  rfl

/-- Removing the subtree of a node keeps the shape. What has to be seen is that no link crosses the
border of the subtree apart from the one at its top, which the parent's list loses. -/
theorem WellFormed.withoutSubtree (hwf : tree.WellFormed) {members : List Tag}
    (hmem : ∀ x, x ∈ members ↔ tree.InSubtree tag x) :
    (tree.withoutSubtree tag members).WellFormed := by
  have hparentOf : ∀ x, (tree.withoutSubtree tag members).parentOf? x =
      if x ∈ members then none else tree.parentOf? x := parentOf?_withoutSubtree hwf
  -- the only link into the subtree ends at its top
  have hborder : ∀ {c p}, tree.parentOf? c = some p → p ∉ members → c ∈ members → c = tag := by
    intro c p hp hpnot hc
    rcases (hmem c).mp hc with rfl | hanc
    · rfl
    · obtain ⟨q, hq, hsub⟩ := hanc.parent_inSubtree
      obtain rfl := Option.some.inj (hp.symm.trans hq)
      exact absurd ((hmem _).mpr hsub) hpnot
  refine ⟨?_, ?_, ?_, ?_, ?_, ?_, ?_⟩
  · intro t other hget
    rw [get?_withoutSubtree hwf] at hget
    split at hget
    · cases hget
    · obtain ⟨node, hnode, rfl⟩ := Option.map_eq_some_iff.mp hget
      have htag := hwf.tag_eq hnode
      exact htag
  -- the directions agree, for a parent that is removed and for one that stays
  · intro c p
    rw [hparentOf, childrenOf_withoutSubtree hwf]
    by_cases hp : p ∈ members
    · rw [if_pos hp]
      refine ⟨nofun, fun h => ?_⟩
      -- a child of a member is a member
      split at h
      · cases h
      · next hc => exact absurd ((hmem c).mpr (((hmem p).mp hp).child h)) hc
    · rw [if_neg hp, List.mem_filter, hwf.link, bne_iff_ne]
      constructor
      · rintro ⟨hlink, hne⟩
        rw [if_neg fun hc => hne (hborder hlink hp hc), hlink]
      · intro h
        split at h
        · cases h
        · next hc => exact ⟨h, fun heq => hc ((hmem c).mpr (.inl heq))⟩
  · intro p
    rw [childrenOf_withoutSubtree hwf]
    split
    · exact List.nodup_nil
    · exact (hwf.nodup p).filter _
  -- the remaining links are old ones, so the old rank still serves
  · obtain ⟨rank, hrank⟩ := hwf.acyclic
    refine ⟨rank, fun {c p} hp => hrank ?_⟩
    rw [hparentOf] at hp
    split at hp
    · cases hp
    · exact hp
  · exact hwf.roots_nodup.erase _
  -- a root that is left is not a member: it has no parent, so it could only be the top
  · intro r hr
    obtain ⟨hne, hr⟩ := (hwf.roots_nodup.mem_erase_iff).mp hr
    have hnot : r ∉ members := by
      intro hm
      rcases (hmem r).mp hm with heq | hanc
      · exact hne heq
      · obtain ⟨q, hq, -⟩ := hanc.parent_inSubtree
        rw [hwf.root_parentless hr] at hq
        cases hq
    rw [contains_withoutSubtree hwf, hwf.root_contained hr]
    simp [hnot]
  · intro r hr
    rw [hparentOf]
    split
    · rfl
    · exact hwf.root_parentless (List.mem_of_mem_erase hr)

/-- Removing a subtree keeps the flags sound, as the remaining nodes keep flags and parents. -/
theorem FlagsSound.withoutSubtree (hflags : tree.FlagsSound) (hwf : tree.WellFormed)
    {members : List Tag} (hmem : ∀ x, x ∈ members ↔ tree.InSubtree tag x) :
    (tree.withoutSubtree tag members).FlagsSound := by
  refine hflags.restrict (fun {x other} h => ?_) fun r hr => ⟨List.mem_of_mem_erase hr, ?_⟩
  · rw [get?_withoutSubtree hwf] at h
    split at h
    · cases h
    · obtain ⟨old, hold, rfl⟩ := Option.map_eq_some_iff.mp h
      exact ⟨old, hold, rfl, rfl, rfl, rfl, .inr rfl⟩
  · exact (hwf.withoutSubtree hmem).root_contained hr

end WithoutSubtree

end ShadowMount.Tree
