import ShadowMount.Proofs.Core.Quiescence
import ShadowMount.Proofs.Tree.Traversals

/-!
# Subtrees of reachable trees

Whatever calls of the core have led to a tree, its downward walks answer, agree with the upward
ones, and a subtree can be taken out without a trace.

* **`Tree.mem_nativeViews_iff`** — a view is listed below exactly the node that the way up from it
  finds.
* **`Tree.Removed`** — what the removal of a subtree does; `removed_withoutSubtree` says that it does
  just that.
* **`Tree.Reachable.nativeChildren_inverse`**, **`Tree.Reachable.removeSubtree_exact`** — the two
  walks over a subtree, as recursions, as loops and by what they list.
-/

namespace ShadowMount.Tree

variable {κ : Type} {tree : Tree κ} {t : Tag}

/-! ## Native children and native parents

The downward walk lists a view below a node exactly if the upward walk from the view finds the node:
both say that nothing in between mounts. -/

/-- The recursion behind native child lists. -/
theorem nativeChildren_eq_gather (hwf : tree.WellFormed) (ht : tree.contains t = true) :
    tree.nativeChildren t = gather (fun c =>
      if tree.mountsAt c then .ok (if tree.createdAt c then [c] else [])
      else tree.nativeChildren c) (tree.childrenOf t) := by
  rw [nativeChildren_eq_nativeViews hwf ht, nativeViews_eq hwf ht]
  refine (gather_eq_flatMap fun c hc => ?_).symm
  rw [offered]
  split
  · rfl
  · exact nativeChildren_eq_nativeViews hwf (hwf.contains_child hc)

/-- The downward and the upward walk agree. -/
theorem mem_nativeViews_iff (hwf : tree.WellFormed) (hflags : tree.FlagsSound)
    (hmounts : tree.mountsAt t = true) {c : Tag} :
    c ∈ tree.nativeViews t ↔
      tree.createdAt c = true ∧ tree.nativeParent c = .ok (some t) := by
  obtain ⟨node, hget, -⟩ := get?_of_mountsAt hmounts
  rw [mem_nativeViews hwf (contains_of_get? hget)]
  constructor
  · rintro ⟨hexposed, -, hcreated⟩
    exact ⟨hcreated, nativeParent_eq_some hwf ⟨hexposed, hmounts⟩⟩
  · rintro ⟨hcreated, hparent⟩
    rcases nativeParent_cases hwf (contains_of_createdAt hcreated) with ⟨q, hq, hnative⟩ | ⟨hq, -⟩
    · rw [hparent] at hq
      obtain rfl := Option.some.inj (Except.ok.inj hq)
      exact ⟨hnative.1, hflags.mountsAt_of_createdAt hcreated, hcreated⟩
    · rw [hparent] at hq
      cases hq

/-! ## Post-order

The walk that collects a subtree puts the answers of the children one after the other and the node
itself behind them. So descendants come first, and the subtree of a child is a stretch of its own.
-/

/-- The recursion behind the post-order. -/
theorem postOrder_eq_gather (hwf : tree.WellFormed) (ht : tree.contains t = true) :
    tree.postOrder t = (· ++ [t]) <$> gather tree.postOrder (tree.childrenOf t) := by
  rw [postOrder_eq_subtree hwf ht, subtree_eq hwf ht,
    gather_eq_flatMap fun c hc => postOrder_eq_subtree hwf (hwf.contains_child hc)]
  rfl

/-- A node of the subtree is listed behind everything below it. -/
theorem subtree_descendants_first (hwf : tree.WellFormed) (ht : tree.contains t = true) {a : Tag}
    (ha : tree.InSubtree t a) : ∃ before after, tree.subtree t = before ++ a :: after ∧
      ∀ x, tree.Ancestor a x → x ∈ before := by
  obtain ⟨before, after, hsplit⟩ := List.append_of_mem ((mem_subtree hwf ht).mpr ha)
  refine ⟨before, after, hsplit, fun x hx => ?_⟩
  have hlisted : x ∈ tree.subtree t := (mem_subtree hwf ht).mpr (ha.trans (.inr hx))
  rw [hsplit, List.mem_append, List.mem_cons] at hlisted
  have hpairwise := pairwise_subtree hwf ht
  rw [hsplit] at hpairwise
  rcases hlisted with hbefore | rfl | hafter
  · exact hbefore
  · exact absurd hx (hwf.not_ancestor_self x)
  · exact absurd (.inr hx)
      (List.rel_of_pairwise_cons (List.pairwise_append.mp hpairwise).2.1 hafter)

/-! ## Removal

What `removeSubtree` answers and does, in one structure: the removed tags, what is left of the
others, and that nothing else is different. -/

/-- What the removal of the subtree of `t`, with the nodes `members`, makes of a tree. -/
structure Removed (tree : Tree κ) (t : Tag) (members : List Tag) (after : Tree κ) : Prop where
  /-- The members have no nodes any more. -/
  gone : ∀ x ∈ members, after.get? x = none
  /-- The parent's list loses `t` and keeps the order of the others. -/
  parent : ∀ x, tree.parentOf? t = some x → after.get? x =
    (tree.get? x).map fun node => { node with children := node.children.filter (· != t) }
  /-- All other nodes are as before. -/
  others : ∀ x ∉ members, tree.parentOf? t ≠ some x → after.get? x = tree.get? x
  /-- The roots lose `t`, if it was one. -/
  roots : after.roots = tree.roots.erase t
  poisoned : after.poisoned = tree.poisoned
  /-- No link leads to a removed node. -/
  links : ∀ {x node}, after.get? x = some node →
    ∀ y ∈ members, node.parent ≠ some y ∧ y ∉ node.children

/-- Removing the subtree of a node is taking out its members, and nothing else is changed. -/
theorem removed_withoutSubtree (hwf : tree.WellFormed) {members : List Tag}
    (hmem : ∀ x, x ∈ members ↔ tree.InSubtree t x) :
    tree.Removed t members (tree.withoutSubtree t members) := by
  have hafter := hwf.withoutSubtree hmem
  have hgone : ∀ x ∈ members, (tree.withoutSubtree t members).contains x = false := by
    intro x hx
    rw [contains_withoutSubtree hwf, decide_eq_false (not_not.mpr hx), Bool.false_and]
  refine ⟨fun x hx => ?_, fun x hparent => ?_, fun x hx hparent => ?_, rfl,
    poisoned_withoutSubtree, fun {x node} hget y hy => ⟨fun hparent => ?_, fun hchild => ?_⟩⟩
  · rw [get?_withoutSubtree hwf, if_pos hx]
  -- the parent lies above the subtree, so it is none of the members
  · have hx : x ∉ members := fun hx =>
      hwf.not_ancestor_of_inSubtree ((hmem x).mp hx) (.parent hparent)
    rw [get?_withoutSubtree hwf, if_neg hx]
  · rw [get?_withoutSubtree hwf, if_neg hx, ← get?_unlisted hwf]
    -- the list that changes is that of the parent, if there is one
    cases htop : tree.parentOf? t with
    | none => rw [unlisted_of_parentless htop]
    | some p =>
      obtain ⟨above, habove⟩ := contains_iff.mp (hwf.contains_parent htop)
      have hne : p ≠ x := fun heq => hparent (by rw [htop, heq])
      rw [unlisted_of_parent htop habove, get?_store, if_neg hne]
  · -- in the tree that is left, links lead to nodes that are there
    have hcontained := hafter.contains_parent ((parentOf?_of_get? hget).trans hparent)
    rw [hgone y hy] at hcontained
    cases hcontained
  · have hcontained := hafter.contains_child (t := x) (c := y) (by rwa [childrenOf_of_get? hget])
    rw [hgone y hy] at hcontained
    cases hcontained

/-! ## Reachable trees

The two walks as they are used, as recursions and as loops over a stack, on every tree that calls
can lead to. -/

namespace Reachable

variable [Coordinate κ]

/-- The native child list of a node is there, without repeats and in document order, which lists the
node, then what is below its children, one after the other. It comes from the recursion over the
children as well as from the loop over a stack. Below a node that mounts, it
has exactly the views whose way up leads to the node; so no view is listed below two of them. -/
theorem nativeChildren_inverse (h : tree.Reachable) {p : Tag} (hp : tree.contains p = true) :
    ∃ views, tree.nativeChildren p = .ok views ∧ views.Nodup ∧
      views.Sublist (tree.preOrder p) ∧
      tree.preOrder p = p :: (tree.childrenOf p).flatMap tree.preOrder ∧
      (∀ x, x ∈ tree.preOrder p ↔ tree.InSubtree p x) ∧
      tree.nativeChildren p = gather (fun c =>
        if tree.mountsAt c then .ok (if tree.createdAt c then [c] else [])
        else tree.nativeChildren c) (tree.childrenOf p) ∧
      tree.mountedLoop tree.size (tree.childrenOf p) [] = .ok views ∧
      (tree.mountsAt p = true →
        (∀ c, c ∈ views ↔ tree.createdAt c = true ∧ tree.nativeParent c = .ok (some p)) ∧
        ∀ q others, tree.mountsAt q = true → tree.nativeChildren q = .ok others →
          ∀ c ∈ views, c ∈ others → q = p) := by
  have hwf := h.sound.wellFormed
  have hflags := h.sound.flags
  have hsublist := nativeViews_sublist hwf hp
  refine ⟨tree.nativeViews p, nativeChildren_eq_nativeViews hwf hp,
    (nodup_preOrder hwf hp).sublist hsublist, hsublist, preOrder_eq hwf hp,
    fun x => mem_preOrder hwf hp, nativeChildren_eq_gather hwf hp,
    mountedLoop_eq hwf hp, fun hmounts => ⟨fun c => mem_nativeViews_iff hwf hflags hmounts, ?_⟩⟩
  intro q others hq hothers c hc hc'
  rw [← nativeViews_of_nativeChildren hothers, mem_nativeViews_iff hwf hflags hq] at hc'
  rw [mem_nativeViews_iff hwf hflags hmounts, hc'.2] at hc
  exact Option.some.inj (Except.ok.inj hc.2)

/-- The post-order of a node is there. It comes from the recursion over the children as well as from
the loop over a stack, and lists the subtree once, each node behind its descendants. The removal of
the subtree answers this list and takes out just these nodes and the links to them. -/
theorem removeSubtree_exact (h : tree.Reachable) (ht : tree.contains t = true) :
    ∃ members, tree.postOrder t = .ok members ∧
      tree.postOrder t = (· ++ [t]) <$> gather tree.postOrder (tree.childrenOf t) ∧
      tree.postOrderLoop (2 * tree.size) [(t, false)] [] = .ok members ∧
      (∀ x, x ∈ members ↔ tree.InSubtree t x) ∧ members.Nodup ∧
      (∀ a ∈ members, ∃ before after, members = before ++ a :: after ∧
        ∀ x, tree.Ancestor a x → x ∈ before) ∧
      ∃ after, removeSubtree t tree = .ok members after ∧ tree.Removed t members after := by
  have hwf := h.sound.wellFormed
  have hmembers := postOrder_eq_subtree hwf ht
  have hmem : ∀ x, x ∈ tree.subtree t ↔ tree.InSubtree t x := fun x => mem_subtree hwf ht
  exact ⟨tree.subtree t, hmembers, postOrder_eq_gather hwf ht, postOrderLoop_eq hwf ht, hmem,
    nodup_subtree hwf ht, fun a ha => subtree_descendants_first hwf ht ((hmem a).mp ha),
    _, removeSubtree_of_contains hwf ht hmembers, removed_withoutSubtree hwf hmem⟩

end Reachable

end ShadowMount.Tree

namespace ShadowMount

namespace Sample

/-- A root above the nodes 2 and 6. Node 2 and its child 4 do not mount, and hold nodes 3 and 5, which
have views. Node 6 mounts and has none. -/
def flattened : Scene Float32 :=
  Scene.afterCalls {} [.registerRoot 1 "Root" 0 0, plain 2, mounting 3, plain 4, mounting 5,
    mounting 6, .attach 1 2 0, .attach 1 6 1, .attach 2 3 0, .attach 2 4 1, .attach 4 5 0,
    .escalate 5, .escalate 3]

theorem flattened_reachable : flattened.tree.Reachable := Tree.Reachable.afterCalls _ .empty

end Sample

/-- The root lists the views of nodes 3 and 5, and the way up from node 5 leads to it. -/
theorem Tree.Reachable.nativeChildren_inverse_flattened :
    Sample.flattened.tree.nativeChildren 1 = .ok [3, 5] ∧
      Sample.flattened.tree.preOrder 1 = [1, 2, 3, 4, 5, 6] ∧
      Sample.flattened.tree.nativeParent 5 = .ok (some 1) := by
  obtain ⟨views, hviews, -, -, -, -, -, -, hinverse⟩ :=
    Tree.Reachable.nativeChildren_inverse Sample.flattened_reachable (p := 1) (by decide +kernel)
  have hlist : Sample.flattened.tree.nativeViews 1 = [3, 5] := by decide +kernel
  rw [Tree.nativeViews_of_nativeChildren hviews] at hlist
  subst hlist
  refine ⟨hviews, by decide +kernel, ?_⟩
  exact (((hinverse (by decide +kernel)).1 5).mp (by decide)).2

/-- Node 2 goes with its three descendants, and the root keeps node 6. -/
theorem Tree.Reachable.removeSubtree_exact_flattened : ∃ after,
    Tree.removeSubtree 2 Sample.flattened.tree = .ok [3, 5, 4, 2] after ∧
      Sample.flattened.tree.Removed 2 [3, 5, 4, 2] after := by
  obtain ⟨members, hmembers, -, -, -, -, -, after, hremoved⟩ :=
    Tree.Reachable.removeSubtree_exact Sample.flattened_reachable (t := 2) (by decide +kernel)
  have hlist : Sample.flattened.tree.subtree 2 = [3, 5, 4, 2] := by decide +kernel
  rw [Tree.subtree_of_postOrder hmembers] at hlist
  subst hlist
  exact ⟨after, hremoved⟩

end ShadowMount
