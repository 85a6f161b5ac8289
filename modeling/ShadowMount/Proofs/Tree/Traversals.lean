import Mathlib.Data.List.Flatten
import ShadowMount.Proofs.Tree.Walks

/-!
# Traversals of subtrees

The downward walks without their budgets. On a well-formed tree each walk is given by a recursion
over the children, and the same answer comes from a loop that keeps the nodes to come on a stack.

* **`WellFormed.subtree_induction`** — what the children hand on to their parent holds everywhere.
* **`subtree_eq`**, **`nativeViews_eq`** — the recursive equations of the post-order and of the
  native child lists.
* **`preOrder`** — the document order, with `preOrder_eq`, `preOrder_perm` and
  `nativeViews_sublist`.
* **`drain_mounted`**, **`drain_marked`** — the loops over a stack end within one step for each node
  of the tree, two for the post-order, with the answers of the recursions. They push each node of
  the subtree once at most, twice for the post-order.
-/

namespace ShadowMount.Tree

variable {κ : Type} {tree : Tree κ}

/-! ## Induction over subtrees

The induction behind all downward walks: it goes from the children of a node to the node, and is
founded because the depth is bounded. -/

/-- The children of a node are registered. -/
theorem WellFormed.contains_child (hwf : tree.WellFormed) {t c : Tag}
    (hc : c ∈ tree.childrenOf t) : tree.contains c = true := by
  obtain ⟨node, hget, -⟩ := get?_of_parentOf? (hwf.link.mp hc)
  exact contains_of_get? hget

/-- What holds of a node as soon as it holds of its children holds of every node: lineages get
longer on the way down, and they are no longer than the tree is large. -/
theorem WellFormed.subtree_induction (hwf : tree.WellFormed)
    {motive : (t : Tag) → tree.contains t = true → Prop}
    (node : ∀ t ht, (∀ c (hc : c ∈ tree.childrenOf t), motive c (hwf.contains_child hc)) →
      motive t ht)
    (t : Tag) (ht : tree.contains t = true) : motive t ht := by
  obtain ⟨l, hl⟩ := hwf.exists_lineage ht
  generalize hk : tree.size - l.length = k
  induction k using Nat.strongRecOn generalizing t l with
  | ind k ih =>
    refine node t ht fun c hc => ?_
    have hbelow := hwf.lineage_child hl hc
    have hsize := hbelow.length_le_size hwf
    rw [List.length_cons] at hsize
    exact ih (tree.size - (c :: l).length) (by rw [List.length_cons]; omega) c _ _ hbelow rfl

/-! ## Post-order

The walk with a budget answers the recursion over the children, as the budget is never spent. -/

/-- The walk answers the subtree. -/
theorem postOrder_eq_subtree (hwf : tree.WellFormed) {t : Tag} (ht : tree.contains t = true) :
    tree.postOrder t = .ok (tree.subtree t) := by
  obtain ⟨xs, hxs, -⟩ := postOrder_spec hwf ht
  rw [hxs, subtree_of_postOrder hxs]

/-- The children's subtrees in order, then the node. -/
theorem subtree_eq (hwf : tree.WellFormed) {t : Tag} (ht : tree.contains t = true) :
    tree.subtree t = (tree.childrenOf t).flatMap tree.subtree ++ [t] := by
  obtain ⟨l, hl⟩ := hwf.exists_lineage ht
  have hchild : ∀ c ∈ tree.childrenOf t, tree.postOrderFrom tree.size c = .ok (tree.subtree c) := by
    intro c hc
    -- one step fewer than the budget is still enough below the top
    obtain ⟨xs, hxs, -⟩ := @postOrderFrom_spec _ _ hwf tree.size _ _ (hwf.lineage_child hl hc)
      (by rw [List.length_cons]; omega)
    rw [hxs, subtree_of_postOrder (postOrderFrom_mono (Nat.le_succ _) hxs)]
  refine subtree_of_postOrder ?_
  rw [postOrder, budget, postOrderFrom, children_eq ht, ok_bind, gather_eq_flatMap hchild]
  rfl

/-- The subtree of a node has no repeats. -/
theorem nodup_subtree (hwf : tree.WellFormed) {t : Tag} (ht : tree.contains t = true) :
    (tree.subtree t).Nodup :=
  nodup_of_pairwise_not_inSubtree (pairwise_subtree hwf ht)

/-- A subtree has no more nodes than the tree. -/
theorem length_subtree_le_size (hwf : tree.WellFormed) {t : Tag} (ht : tree.contains t = true) :
    (tree.subtree t).length ≤ tree.size := by
  refine length_le_size (nodup_subtree hwf ht) fun x hx => ?_
  rcases (mem_subtree hwf ht).mp hx with rfl | hanc
  · exact ht
  · exact hanc.contains

/-- A subtree is larger than those of the children together. -/
theorem length_subtree (hwf : tree.WellFormed) {t : Tag} (ht : tree.contains t = true) :
    (tree.subtree t).length = ((tree.childrenOf t).flatMap tree.subtree).length + 1 := by
  rw [subtree_eq hwf ht, List.length_append, List.length_singleton]

/-! ## Native child lists

A child that mounts offers itself if it has a view; one that does not mount offers what its own
children offer. -/

/-- The child list of a node's native view; nothing for a tag without a node. -/
def nativeViews (tree : Tree κ) (tag : Tag) : List Tag :=
  (tree.nativeChildren tag).toOption.getD []

/-- What a node adds to the child list of the native view above it. -/
def offered (tree : Tree κ) (tag : Tag) : List Tag :=
  if tree.mountsAt tag then (if tree.createdAt tag then [tag] else []) else tree.nativeViews tag

/-- The list of native views is what the walk answers, if it answers. -/
theorem nativeViews_of_nativeChildren {t : Tag} {xs : List Tag}
    (h : tree.nativeChildren t = .ok xs) : tree.nativeViews t = xs := by
  rw [nativeViews, h]
  rfl

/-- The walk for native children answers their list. -/
theorem nativeChildren_eq_nativeViews (hwf : tree.WellFormed) {t : Tag}
    (ht : tree.contains t = true) : tree.nativeChildren t = .ok (tree.nativeViews t) := by
  obtain ⟨xs, hxs, -⟩ := nativeChildren_spec hwf ht
  rw [hxs, nativeViews_of_nativeChildren hxs]

/-- The native views of a node are the created mounting nodes exposed to it. -/
theorem mem_nativeViews (hwf : tree.WellFormed) {t x : Tag} (ht : tree.contains t = true) :
    x ∈ tree.nativeViews t ↔
      tree.Exposed t x ∧ tree.mountsAt x = true ∧ tree.createdAt x = true := by
  obtain ⟨xs, hxs, hmem⟩ := nativeChildren_spec hwf ht
  rw [nativeViews_of_nativeChildren hxs, hmem]

/-- More steps than needed make no difference. -/
theorem contribution_mono : ∀ {steps more : Nat} {t : Tag} {xs : List Tag}, steps ≤ more →
    tree.contribution steps t = .ok xs → tree.contribution more t = .ok xs
  | 0, _, _, _, _, h => nomatch h
  | steps + 1, more, t, xs, hle, h => by
    obtain ⟨more, rfl⟩ : ∃ k, more = k + 1 := ⟨more - 1, by omega⟩
    rw [contribution] at h ⊢
    obtain ⟨node, hnode, h⟩ := query_bind_eq_ok_iff.mp h
    rw [hnode, ok_bind]
    cases hmounts : node.mounts with
    | true => rwa [hmounts] at h
    | false =>
      rw [hmounts, if_neg Bool.false_ne_true] at h
      exact gather_mono (contribution_mono (Nat.le_of_succ_le_succ hle)) h

/-- The step of the recursion: a mounting node stands for itself, another one for its children. -/
theorem contribution_eq_offered (hwf : tree.WellFormed) {t : Tag} (ht : tree.contains t = true) :
    tree.contribution tree.budget t = .ok (tree.offered t) := by
  obtain ⟨node, hget⟩ := contains_iff.mp ht
  obtain ⟨l, hl⟩ := hwf.exists_lineage ht
  obtain ⟨xs, hxs, -⟩ := @contribution_spec _ _ hwf tree.budget _ _ hl (by rw [budget]; omega)
  rw [hxs, offered, mountsAt_of_get? hget, createdAt_of_get? hget]
  -- the budget is one step for this node and enough for what lies below
  rw [budget, contribution, node_of_get? hget, ok_bind] at hxs
  cases hmounts : node.mounts with
  | true =>
    rw [hmounts] at hxs
    exact hxs.symm
  | false =>
    rw [hmounts, if_neg Bool.false_ne_true] at hxs
    have hchildren : tree.nativeChildren t = .ok xs := by
      rw [nativeChildren, children_eq ht, ok_bind, childrenOf_of_get? hget]
      -- below a node that does not mount, the walk for its own native children takes the same ways
      -- with more steps
      exact gather_mono (contribution_mono (Nat.le_succ _)) hxs
    rw [if_neg Bool.false_ne_true, nativeViews_of_nativeChildren hchildren]

/-- A native child list has what the children offer, in their order. -/
theorem nativeViews_eq (hwf : tree.WellFormed) {t : Tag} (ht : tree.contains t = true) :
    tree.nativeViews t = (tree.childrenOf t).flatMap tree.offered := by
  refine nativeViews_of_nativeChildren ?_
  rw [nativeChildren, children_eq ht, ok_bind]
  exact gather_eq_flatMap fun c hc => contribution_eq_offered hwf (hwf.contains_child hc)

/-! ## Document order

The node before its children, as the tree is read. The same nodes as in the post-order, in another
order. -/

/-- The subtree of a node with parents before children and siblings in order, as far down as the
steps go. -/
def preOrderFrom (tree : Tree κ) : Nat → Tag → List Tag
  | 0, _ => []
  | steps + 1, tag => tag :: (tree.childrenOf tag).flatMap (tree.preOrderFrom steps)

/-- A node and its descendants in document order: parents before children, siblings in order. -/
def preOrder (tree : Tree κ) (tag : Tag) : List Tag := tree.preOrderFrom tree.budget tag

/-- Steps beyond the depth of the tree change nothing. -/
theorem preOrderFrom_succ (hwf : tree.WellFormed) : ∀ {steps : Nat} {t : Tag} {l : List Tag},
    tree.Lineage t l → tree.size < steps + l.length →
      tree.preOrderFrom (steps + 1) t = tree.preOrderFrom steps t
  | 0, t, l, hl, hsteps => by
    have := hl.length_le_size hwf
    omega
  | steps + 1, t, l, hl, hsteps => by
    rw [preOrderFrom, preOrderFrom]
    refine congrArg (t :: ·) (List.flatMap_congr fun c hc => ?_)
    exact preOrderFrom_succ hwf (hwf.lineage_child hl hc) (by rw [List.length_cons]; omega)

/-- The node, then the children's subtrees in order. -/
theorem preOrder_eq (hwf : tree.WellFormed) {t : Tag} (ht : tree.contains t = true) :
    tree.preOrder t = t :: (tree.childrenOf t).flatMap tree.preOrder := by
  obtain ⟨l, hl⟩ := hwf.exists_lineage ht
  rw [preOrder, budget, preOrderFrom]
  refine congrArg (t :: ·) (List.flatMap_congr fun c hc => ?_)
  exact (preOrderFrom_succ hwf (hwf.lineage_child hl hc) (by rw [List.length_cons]; omega)).symm

/-- Both orders list the same nodes. -/
theorem preOrder_perm (hwf : tree.WellFormed) {t : Tag} (ht : tree.contains t = true) :
    (tree.preOrder t).Perm (tree.subtree t) := by
  induction t, ht using hwf.subtree_induction with
  | node t ht ih =>
    rw [preOrder_eq hwf ht, subtree_eq hwf ht]
    exact ((List.Perm.flatMap_left _ ih).cons t).trans (List.perm_append_singleton t _).symm

/-- The document order has exactly the nodes of the subtree. -/
theorem mem_preOrder (hwf : tree.WellFormed) {t x : Tag} (ht : tree.contains t = true) :
    x ∈ tree.preOrder t ↔ tree.InSubtree t x :=
  (preOrder_perm hwf ht).mem_iff.trans (mem_subtree hwf ht)

/-- The document order has no repeats, as it is the post-order in another order. -/
theorem nodup_preOrder (hwf : tree.WellFormed) {t : Tag} (ht : tree.contains t = true) :
    (tree.preOrder t).Nodup :=
  (preOrder_perm hwf ht).nodup_iff.mpr (nodup_subtree hwf ht)

/-- Native child lists are in document order. -/
theorem nativeViews_sublist (hwf : tree.WellFormed) {t : Tag} (ht : tree.contains t = true) :
    (tree.nativeViews t).Sublist (tree.preOrder t) := by
  induction t, ht using hwf.subtree_induction with
  | node t ht ih =>
    rw [nativeViews_eq hwf ht, preOrder_eq hwf ht]
    refine List.Sublist.cons _ (List.Sublist.flatMap_right _ fun c hc => ?_)
    rw [offered]
    split
    · split
      · rw [preOrder_eq hwf (hwf.contains_child hc)]
        exact (List.nil_sublist _).cons_cons c
      · exact List.nil_sublist _
    · exact ih c hc

/-! ## Loops over a stack

A loop takes a node from the stack and may push others. If what is on the stack clears to a list,
one more step of the loop leaves a stack that clears to the rest; so the loop ends with the answer
of the recursion, after as many steps as there are nodes to clear. -/

/-- The native child list by a loop. The stack holds the nodes to come, the next one first; the
children of a node that does not mount take its place. -/
def mountedLoop (tree : Tree κ) : Nat → (stack found : List Tag) → Except UiError (List Tag)
  | _, [], found => return found
  | 0, tag :: _, _ => throw (.cyclicLinks tag)
  | steps + 1, tag :: stack, found => do
    let node ← tree.node tag
    if node.mounts then
      tree.mountedLoop steps stack (if node.created then found ++ [tag] else found)
    else tree.mountedLoop steps (node.children ++ stack) found

/-- The post-order by a loop. An entry of the stack is marked once the node's children lie above it,
so that it is listed when it comes up again. -/
def postOrderLoop (tree : Tree κ) :
    Nat → (stack : List (Tag × Bool)) → (order : List Tag) → Except UiError (List Tag)
  | _, [], order => return order
  | 0, (tag, _) :: _, _ => throw (.cyclicLinks tag)
  | steps + 1, (tag, true) :: stack, order => tree.postOrderLoop steps stack (order ++ [tag])
  | steps + 1, (tag, false) :: stack, order => do
    tree.postOrderLoop steps ((← tree.children tag).map (·, false) ++ (tag, true) :: stack) order

/-- Either loop with a record of the entries pushed on its stack. `visit` says what one entry adds
to the stack and to the answer. -/
def drain {α β : Type} (visit : β → Except UiError (List β × List α)) (tagOf : β → Tag) :
    Nat → (stack pushed : List β) → (listed : List α) → Except UiError (List α × List β)
  | _, [], pushed, listed => return (listed, pushed)
  | 0, entry :: _, _, _ => throw (.cyclicLinks (tagOf entry))
  | steps + 1, entry :: stack, pushed, listed => do
    let (inner, new) ← visit entry
    drain visit tagOf steps (inner ++ stack) (pushed ++ inner) (listed ++ new)

/-- One round of `mountedLoop`. -/
def visitMounted (tree : Tree κ) (tag : Tag) : Except UiError (List Tag × List Tag) := do
  let node ← tree.node tag
  if node.mounts then return ([], if node.created then [tag] else [])
  else return (node.children, [])

/-- One round of `postOrderLoop`. -/
def visitMarked (tree : Tree κ) : Tag × Bool → Except UiError (List (Tag × Bool) × List Tag)
  | (tag, true) => return ([], [tag])
  | (tag, false) => return ((← tree.children tag).map (·, false) ++ [(tag, true)], [])

/-- The record makes no difference to the answer. -/
theorem mountedLoop_eq_drain : ∀ (steps : Nat) (stack pushed found : List Tag),
    tree.mountedLoop steps stack found =
      Prod.fst <$> drain tree.visitMounted id steps stack pushed found
  | 0, [], _, _ | _ + 1, [], _, _ | 0, _ :: _, _, _ => rfl
  -- by induction on the steps: one round of the loop is one visit, and then both go on alike
  | steps + 1, tag :: stack, pushed, found => by
    rw [mountedLoop, drain, visitMounted]
    cases hget : tree.get? tag with
    | none =>
      rw [node_of_get?_none hget]
      rfl
    | some node =>
      rw [node_of_get? hget, ok_bind, ok_bind]
      cases node.mounts with
      | true =>
        rw [if_pos rfl, if_pos rfl, mountedLoop_eq_drain steps stack (pushed ++ [])]
        cases node.created with
        | true => rfl
        | false =>
          show _ = Prod.fst <$> drain tree.visitMounted id steps stack (pushed ++ []) (found ++ [])
          rw [List.append_nil found]
          rfl
      | false =>
        rw [if_neg Bool.false_ne_true, if_neg Bool.false_ne_true,
          mountedLoop_eq_drain steps _ (pushed ++ node.children)]
        show _ = Prod.fst <$> drain tree.visitMounted id steps (node.children ++ stack)
          (pushed ++ node.children) (found ++ [])
        rw [List.append_nil]

/-- The record makes no difference to the post-order either. -/
theorem postOrderLoop_eq_drain : ∀ (steps : Nat) (stack pushed : List (Tag × Bool))
    (order : List Tag), tree.postOrderLoop steps stack order =
      Prod.fst <$> drain tree.visitMarked Prod.fst steps stack pushed order
  | 0, [], _, _ | _ + 1, [], _, _ | 0, _ :: _, _, _ => rfl
  | steps + 1, (tag, true) :: stack, pushed, order => by
    rw [postOrderLoop, postOrderLoop_eq_drain steps stack (pushed ++ [])]
    rfl
  | steps + 1, (tag, false) :: stack, pushed, order => by
    rw [postOrderLoop, drain, visitMarked]
    cases hchildren : tree.children tag with
    | error err => rfl
    | ok cs =>
      -- an entry without a mark gives way to its children, and comes back below them with its mark
      show tree.postOrderLoop steps (cs.map (·, false) ++ (tag, true) :: stack) order =
        Prod.fst <$> drain tree.visitMarked Prod.fst steps
          (cs.map (·, false) ++ [(tag, true)] ++ stack)
          (pushed ++ (cs.map (·, false) ++ [(tag, true)])) (order ++ [])
      rw [List.append_assoc, List.singleton_append, List.append_nil]
      exact postOrderLoop_eq_drain steps _ _ order

/-- `Clears visit tagOf entries listed inner`: with `entries` on top of its stack, the loop lists
`listed` and pushes `inner`, in one step for each entry, and goes on with the rest of the stack. -/
def Clears {α β : Type} (visit : β → Except UiError (List β × List α)) (tagOf : β → Tag)
    (entries : List β) (listed : List α) (inner : List β) : Prop :=
  ∀ steps stack pushed before,
    drain visit tagOf ((entries ++ inner).length + steps) (entries ++ stack) pushed before =
      drain visit tagOf steps stack (pushed ++ inner) (before ++ listed)

namespace Clears

variable {α β : Type} {visit : β → Except UiError (List β × List α)} {tagOf : β → Tag}
  {as bs inner more : List β} {xs ys : List α}

/-- Nothing on the stack takes no step. -/
theorem nil : Clears visit tagOf [] [] [] := by
  intro steps stack pushed before
  simp

/-- Entries are cleared one after the other, from the top of the stack down. -/
theorem append (ha : Clears visit tagOf as xs inner) (hb : Clears visit tagOf bs ys more) :
    Clears visit tagOf (as ++ bs) (xs ++ ys) (inner ++ more) := by
  intro steps stack pushed before
  have hsteps : ((as ++ bs) ++ (inner ++ more)).length + steps =
      (as ++ inner).length + ((bs ++ more).length + steps) := by
    simp only [List.length_append]
    omega
  rw [hsteps, List.append_assoc, ha, hb, List.append_assoc, List.append_assoc]

/-- An entry takes one step more than the entries it adds. -/
theorem step {entry : β} (hvisit : visit entry = .ok (as, xs))
    (h : Clears visit tagOf as ys inner) :
    Clears visit tagOf [entry] (xs ++ ys) (as ++ inner) := by
  intro steps stack pushed before
  have hsteps : ([entry] ++ (as ++ inner)).length + steps =
      (as ++ inner).length + steps + 1 := by
    simp only [List.length_append, List.length_singleton]
    omega
  rw [hsteps, List.singleton_append, drain, hvisit, ok_bind]
  show drain visit tagOf ((as ++ inner).length + steps) (as ++ stack) (pushed ++ as)
    (before ++ xs) = _
  rw [h, List.append_assoc, List.append_assoc]

/-- Siblings one after the other. Each of them pushes, itself included, at most what is in `g`. -/
theorem siblings {entry : Tag → β} {f : Tag → List α} {g : Tag → List β} {cs : List Tag}
    (h : ∀ c ∈ cs, ∃ inner, Clears visit tagOf [entry c] (f c) inner ∧
      (entry c :: inner).Subperm (g c)) :
    ∃ inner, Clears visit tagOf (cs.map entry) (cs.flatMap f) inner ∧
      (cs.map entry ++ inner).Subperm (cs.flatMap g) := by
  induction cs with
  | nil => exact ⟨[], nil, List.Subperm.refl _⟩
  | cons c cs ih =>
    obtain ⟨inner, hfirst, hsub⟩ := h c (List.mem_cons_self ..)
    obtain ⟨more, hrest, hsubRest⟩ := ih fun d hd => h d (List.mem_cons_of_mem _ hd)
    refine ⟨inner ++ more, hfirst.append hrest, ?_⟩
    have hperm : ((c :: cs).map entry ++ (inner ++ more)).Perm
        ((entry c :: inner) ++ (cs.map entry ++ more)) := by
      rw [List.map_cons, List.cons_append, List.cons_append]
      refine List.Perm.cons _ ?_
      rw [← List.append_assoc, ← List.append_assoc]
      exact List.perm_append_comm.append_right more
    exact hperm.subperm.trans (hsub.append hsubRest)

/-- The loop ends when the stack is empty; it was pushed what stood on it first, and the rest. -/
theorem drain_eq (h : Clears visit tagOf as xs inner) {steps : Nat}
    (hsteps : (as ++ inner).length ≤ steps) :
    drain visit tagOf steps as as [] = .ok (xs, as ++ inner) := by
  have hrun := h (steps - (as ++ inner).length) [] as []
  rw [Nat.add_sub_cancel' hsteps, List.append_nil, List.nil_append] at hrun
  rw [hrun]
  cases steps - (as ++ inner).length <;> rfl

end Clears

/-- The mounted nodes below a node are found with at most one push for each node of its subtree. -/
theorem clears_offered (hwf : tree.WellFormed) {t : Tag} (ht : tree.contains t = true) :
    ∃ inner, Clears tree.visitMounted id [t] (tree.offered t) inner ∧
      (t :: inner).Subperm (tree.subtree t) := by
  induction t, ht using hwf.subtree_induction with
  | node t ht ih =>
    obtain ⟨node, hget⟩ := contains_iff.mp ht
    rw [offered, mountsAt_of_get? hget, createdAt_of_get? hget, subtree_eq hwf ht]
    cases hmounts : node.mounts with
    -- a mounting node is met and pushes nothing, whether it has a view yet or not
    | true =>
      have hvisit : tree.visitMounted t = .ok ([], if node.created then [t] else []) := by
        rw [visitMounted, node_of_get? hget, ok_bind, if_pos hmounts]
        rfl
      have hstep := @Clears.step _ _ _ id _ _ _ _ _ hvisit .nil
      rw [List.append_nil] at hstep
      exact ⟨[], hstep, (List.sublist_append_right _ [t]).subperm⟩
    -- another node pushes its children, which are cleared before the rest of the stack
    | false =>
      have hvisit : tree.visitMounted t = .ok (tree.childrenOf t, []) := by
        rw [visitMounted, node_of_get? hget, ok_bind, hmounts, childrenOf_of_get? hget]
        rfl
      obtain ⟨inner, hinner, hsub⟩ := Clears.siblings ih
      -- all pushes are nodes of the children's subtrees, so that with the node itself they still
      -- fit its own subtree
      rw [List.map_id'] at hinner hsub
      rw [if_neg Bool.false_ne_true, nativeViews_eq hwf ht]
      refine ⟨tree.childrenOf t ++ inner, Clears.step hvisit hinner, ?_⟩
      exact ((List.subperm_cons t).mpr hsub).trans (List.perm_append_singleton t _).symm.subperm

/-- The entries of the post-order loop for the nodes of a list: each without and with its mark. -/
def marks (tags : List Tag) : List (Tag × Bool) :=
  tags.flatMap fun tag => [(tag, false), (tag, true)]

/-- The subtree of a node is listed with at most two pushes for each of its nodes. -/
theorem clears_subtree (hwf : tree.WellFormed) {t : Tag} (ht : tree.contains t = true) :
    ∃ inner, Clears tree.visitMarked Prod.fst [(t, false)] (tree.subtree t) inner ∧
      ((t, false) :: inner).Subperm (marks (tree.subtree t)) := by
  induction t, ht using hwf.subtree_induction with
  | node t ht ih =>
    -- the children are cleared first, and then the entry of the node itself comes up with its mark
    obtain ⟨inner, hinner, hsub⟩ := Clears.siblings ih
    have hvisit : tree.visitMarked (t, false) =
        .ok ((tree.childrenOf t).map (·, false) ++ [(t, true)], []) := by
      rw [visitMarked, children_eq ht]
      rfl
    have hmark : Clears tree.visitMarked Prod.fst [(t, true)] ([t] ++ []) ([] ++ []) :=
      .step rfl .nil
    have hall := Clears.step hvisit (hinner.append hmark)
    rw [List.nil_append, List.append_nil, ← subtree_eq hwf ht, List.append_nil,
      List.append_nil] at hall
    refine ⟨_, hall, ?_⟩
    -- the marks of a subtree are those of the children's subtrees and the two of its top
    have hmarks : marks (tree.subtree t) =
        (tree.childrenOf t).flatMap (fun c => marks (tree.subtree c)) ++
          [(t, false), (t, true)] := by
      rw [subtree_eq hwf ht, marks, List.flatMap_append, List.flatMap_assoc]
      rfl
    -- the pushes of this node, put in the order of those marks
    have hperm : ((t, false) :: ((tree.childrenOf t).map (·, false) ++ [(t, true)] ++ inner)).Perm
        ((tree.childrenOf t).map (·, false) ++ inner ++ [(t, false), (t, true)]) := by
      rw [List.append_assoc, List.append_assoc]
      refine (List.Perm.cons _ (List.perm_append_comm.append_left _)).trans ?_
      rw [← List.append_assoc, ← List.append_assoc]
      exact List.perm_middle.symm
    rw [hmarks]
    exact hperm.subperm.trans (hsub.append (List.Subperm.refl _))

/-- A part of a list without repeats has none. -/
theorem nodup_of_subperm {α : Type} {as bs : List α} (h : as.Subperm bs) (hbs : bs.Nodup) :
    as.Nodup := by
  obtain ⟨cs, hperm, hsublist⟩ := h
  exact hperm.nodup_iff.mp (hbs.sublist hsublist)

/-- The loop gives the native child list and pushes only descendants, none of them twice. -/
theorem drain_mounted (hwf : tree.WellFormed) {t : Tag} (ht : tree.contains t = true) :
    ∃ pushed, (∀ steps, tree.size ≤ steps →
        drain tree.visitMounted id steps (tree.childrenOf t) (tree.childrenOf t) [] =
          .ok (tree.nativeViews t, pushed)) ∧
      pushed.Nodup ∧ ∀ x ∈ pushed, tree.Ancestor t x := by
  have hbelow := fun c (hc : c ∈ tree.childrenOf t) => clears_offered hwf (hwf.contains_child hc)
  obtain ⟨inner, hclears, hsub⟩ := Clears.siblings hbelow
  rw [List.map_id', ← nativeViews_eq hwf ht] at hclears
  rw [List.map_id'] at hsub
  have hsubtree := subtree_eq hwf ht
  have hlength := length_subtree hwf ht
  have hsize := length_subtree_le_size hwf ht
  -- each node below is pushed once at most, so the steps for the whole tree are enough
  refine ⟨_, fun steps hsteps => hclears.drain_eq ?_, ?_, fun x hx => ?_⟩
  · have := hsub.length_le
    omega
  · have hnodup := nodup_subtree hwf ht
    rw [hsubtree] at hnodup
    exact nodup_of_subperm hsub (hnodup.sublist (List.sublist_append_left _ _))
  · obtain ⟨c, hc, hxc⟩ := List.mem_flatMap.mp (hsub.subset hx)
    exact ancestor_iff_child.mpr
      ⟨c, hwf.link.mp hc, (mem_subtree hwf (hwf.contains_child hc)).mp hxc⟩

/-- The two entries of a node differ in their marks, so marking makes no repeats. -/
theorem nodup_marks {tags : List Tag} (h : tags.Nodup) : (marks tags).Nodup := by
  refine List.pairwise_flatMap.mpr ⟨fun tag _ => by simp, h.imp fun {a b} hne => ?_⟩
  simp [hne]

/-- Every node has two entries. -/
theorem length_marks (tags : List Tag) : (marks tags).length = 2 * tags.length := by
  simp [marks, Nat.mul_comm]

/-- The loop gives the post-order and pushes only nodes of the subtree, each of them at most once
without and once with its mark. -/
theorem drain_marked (hwf : tree.WellFormed) {t : Tag} (ht : tree.contains t = true) :
    ∃ pushed, (∀ steps, 2 * tree.size ≤ steps →
        drain tree.visitMarked Prod.fst steps [(t, false)] [(t, false)] [] =
          .ok (tree.subtree t, pushed)) ∧
      pushed.Nodup ∧ ∀ entry ∈ pushed, tree.InSubtree t entry.1 := by
  obtain ⟨inner, hclears, hsub⟩ := clears_subtree hwf ht
  have hsize := length_subtree_le_size hwf ht
  refine ⟨_, fun steps hsteps => hclears.drain_eq ?_, ?_, fun entry hentry => ?_⟩
  · have hle := hsub.length_le
    rw [length_marks] at hle
    exact Nat.le_trans hle (by omega)
  · exact nodup_of_subperm hsub (nodup_marks (nodup_subtree hwf ht))
  · obtain ⟨x, hx, hmark⟩ := List.mem_flatMap.mp (hsub.subset hentry)
    rw [← mem_subtree hwf ht]
    rcases List.mem_pair.mp hmark with rfl | rfl <;> exact hx

/-- The loop gives the native child list, in fewer steps than there are nodes. -/
theorem mountedLoop_eq (hwf : tree.WellFormed) {t : Tag} (ht : tree.contains t = true) :
    tree.mountedLoop tree.size (tree.childrenOf t) [] = .ok (tree.nativeViews t) := by
  obtain ⟨pushed, hdrain, -⟩ := drain_mounted hwf ht
  rw [mountedLoop_eq_drain _ _ (tree.childrenOf t), hdrain _ (Nat.le_refl _)]
  rfl

/-- The loop gives the post-order, in two steps for each node at most. -/
theorem postOrderLoop_eq (hwf : tree.WellFormed) {t : Tag} (ht : tree.contains t = true) :
    tree.postOrderLoop (2 * tree.size) [(t, false)] [] = .ok (tree.subtree t) := by
  obtain ⟨pushed, hdrain, -⟩ := drain_marked hwf ht
  rw [postOrderLoop_eq_drain _ _ [(t, false)], hdrain _ (Nat.le_refl _)]
  rfl

end ShadowMount.Tree
