import ShadowMount.Proofs.Children.Parking
import ShadowMount.Proofs.Mount.Destroy

/-!
# Emptying positions

The first pass over the tree takes children out, from the highest position down. A moved child only
loses its parent; a removed one goes with its subtree. `Emptied` says what became of every node,
and composes along a schedule because the subtrees of siblings are disjoint.

* **`Emptied.append`** — two stretches of the pass, one after the other.
* **`detachAll_ok`** — the pass never fails on positions that descend and lie in the list.
-/

namespace ShadowMount

namespace Tree

variable {κ : Type} {tree mid after : Tree κ} {parent : Tag}

/-- What emptying positions below `parent` makes of a tree: the children `removed` are gone with
their subtrees, the children `loose` have no parent, `list` is left to the parent, and everything
else is as before. -/
structure Emptied (tree : Tree κ) (parent : Tag) (list loose removed : List Tag)
    (after : Tree κ) : Prop where
  /-- The subtrees of removed children are not registered any more. -/
  gone : ∀ {x r}, r ∈ removed → tree.InSubtree r x → after.get? x = none
  /-- The parent has another child list and is otherwise as before. -/
  at_parent : ∃ above, tree.get? parent = some above ∧
    after.get? parent = some { above with children := list }
  /-- A detached child has lost its parent and nothing else. -/
  at_loose : ∀ {x}, x ∈ loose → after.get? x =
    (tree.get? x).map fun node => { node with parent := none }
  /-- What is neither detached nor below a removed child is as before. -/
  kept : ∀ {x}, x ≠ parent → x ∉ loose → (∀ r ∈ removed, ¬ tree.InSubtree r x) →
    after.get? x = tree.get? x
  roots : after.roots = tree.roots
  poisoned : after.poisoned = tree.poisoned

/-- The nodes of the removed subtrees, one subtree after the other. -/
def swept (tree : Tree κ) (removed : List Tag) : List Tag := removed.flatMap tree.subtree

/-- The parent does not lie below its own child. -/
theorem not_inSubtree_parent (hwf : tree.WellFormed) {r : Tag} (hr : tree.parentOf? r = some parent) :
    ¬ tree.InSubtree r parent :=
  fun hsub => hwf.not_ancestor_of_inSubtree hsub (.parent hr)

/-- A node is swept exactly if it lies below a removed child. -/
theorem mem_swept (hwf : tree.WellFormed) {removed : List Tag}
    (hcontained : ∀ r ∈ removed, tree.contains r = true) {x : Tag} :
    x ∈ tree.swept removed ↔ ∃ r ∈ removed, tree.InSubtree r x := by
  rw [swept, List.mem_flatMap]
  exact exists_congr fun r => and_congr_right fun hr => mem_subtree hwf (hcontained r hr)

/-- What is swept below different children of one node comes with every node before its
ancestors. -/
theorem pairwise_swept (hwf : tree.WellFormed) {removed : List Tag}
    (hchild : ∀ c ∈ removed, tree.parentOf? c = some parent) (hnodup : removed.Nodup) :
    (tree.swept removed).Pairwise fun x y => ¬ tree.InSubtree x y := by
  have hcontained : ∀ c ∈ removed, tree.contains c = true := by
    intro c hc
    obtain ⟨node, hget, -⟩ := get?_of_parentOf? (hchild c hc)
    exact contains_of_get? hget
  refine List.pairwise_flatMap.mpr ⟨fun c hc => pairwise_subtree hwf (hcontained c hc), ?_⟩
  -- `x` lies below one child and `y` below another one
  refine hnodup.imp_of_mem fun {a b} ha hb hne x hx y hy hxy => ?_
  exact hwf.siblings_disjoint (hchild a ha) (hchild b hb) hne
    (((mem_subtree hwf (hcontained a ha)).mp hx).trans hxy)
    ((mem_subtree hwf (hcontained b hb)).mp hy)

namespace Emptied

variable {list loose removed : List Tag}

/-- Parents are as before, but for detached and removed children. The parent's own record has
another child list only. -/
theorem parentOf?_eq (h : tree.Emptied parent list loose removed after) {x : Tag} (hx : x ∉ loose)
    (hkept : ∀ r ∈ removed, ¬ tree.InSubtree r x) : after.parentOf? x = tree.parentOf? x := by
  by_cases hparent : x = parent
  · subst hparent
    obtain ⟨above, habove, hafter⟩ := h.at_parent
    rw [parentOf?_of_get? habove, parentOf?_of_get? hafter]
  · rw [parentOf?, parentOf?, h.kept hparent hx hkept]

/-- No link is new. -/
theorem parentOf?_some (h : tree.Emptied parent list loose removed after) {x p : Tag}
    (hp : after.parentOf? x = some p) : tree.parentOf? x = some p := by
  obtain ⟨node, hget, hnode⟩ := get?_of_parentOf? hp
  have hkept : ∀ r ∈ removed, ¬ tree.InSubtree r x := by
    intro r hr hsub
    rw [h.gone hr hsub] at hget
    cases hget
  by_cases hx : x ∈ loose
  · rw [h.at_loose hx] at hget
    obtain ⟨old, -, rfl⟩ := Option.map_eq_some_iff.mp hget
    cases hnode
  · rw [← h.parentOf?_eq hx hkept]
    exact hp

/-- Below a sibling of the emptied positions, subtrees are as before. -/
theorem inSubtree_iff (h : tree.Emptied parent list loose removed after) (hwf : tree.WellFormed)
    (hchild : ∀ c ∈ loose ++ removed, tree.parentOf? c = some parent) {r y x : Tag}
    (hr : tree.parentOf? r = some parent) (hnot : r ∉ loose ++ removed)
    (hy : tree.InSubtree r y) : after.InSubtree y x ↔ tree.InSubtree y x := by
  -- what lies below a sibling is in no way of the emptied positions
  have hdisjoint : ∀ {c z}, c ∈ loose ++ removed → tree.Ancestor y z → ¬ tree.InSubtree c z := by
    intro c z hc hz
    exact hwf.siblings_disjoint hr (hchild c hc) (fun heq => hnot (heq ▸ hc)) (hy.trans (.inr hz))
  constructor
  · exact fun hsub => hsub.imp_right fun hanc => hanc.mono h.parentOf?_some
  · refine fun hsub => hsub.transport fun z hz => h.parentOf?_eq ?_ ?_
    · intro hmem
      exact hdisjoint (List.mem_append_left _ hmem) hz (.refl z)
    · intro c hc
      exact hdisjoint (List.mem_append_right _ hc) hz

/-- No node is new. -/
theorem contains (h : tree.Emptied parent list loose removed after) {x : Tag}
    (hx : after.contains x = true) : tree.contains x = true := by
  obtain ⟨above, habove, -⟩ := h.at_parent
  by_cases hparent : x = parent
  · exact hparent ▸ contains_of_get? habove
  -- detached, as before, or gone
  by_cases hloose : x ∈ loose
  · rwa [Tree.contains, h.at_loose hloose, Option.isSome_map] at hx
  by_cases hkept : ∀ r ∈ removed, ¬ tree.InSubtree r x
  · rwa [Tree.contains, h.kept hparent hloose hkept] at hx
  · push Not at hkept
    obtain ⟨r, hr, hsub⟩ := hkept
    rw [Tree.contains, h.gone hr hsub] at hx
    cases hx

/-- A node below a sibling of the emptied positions is left alone. -/
theorem get?_sibling (h : tree.Emptied parent list loose removed after) (hwf : tree.WellFormed)
    (hchild : ∀ c ∈ loose ++ removed, tree.parentOf? c = some parent) {r x : Tag}
    (hr : tree.parentOf? r = some parent) (hnot : r ∉ loose ++ removed)
    (hx : tree.InSubtree r x) : after.get? x = tree.get? x := by
  have hapart : ∀ c ∈ loose ++ removed, ¬ tree.InSubtree c x := fun c hc =>
    hwf.siblings_disjoint hr (hchild c hc) (fun heq => hnot (heq ▸ hc)) hx
  -- below another child, so neither detached nor removed nor the parent itself
  refine h.kept ?_ (fun hmem => hapart x (List.mem_append_left _ hmem) (.refl x))
    fun c hc => hapart c (List.mem_append_right _ hc)
  rintro rfl
  exact not_inSubtree_parent hwf hr hx

/-- What is swept below siblings afterwards is swept from the tree before, views included. -/
theorem swept_eq (h : tree.Emptied parent list loose removed mid) (hwf : tree.WellFormed)
    (hwf' : mid.WellFormed) (hchild : ∀ c ∈ loose ++ removed, tree.parentOf? c = some parent)
    {removed' : List Tag} (hchild' : ∀ c ∈ removed', tree.parentOf? c = some parent)
    (hnew : ∀ c ∈ removed', c ∉ loose ++ removed) :
    mid.swept removed' = tree.swept removed' ∧
      (tree.swept removed').filter mid.createdAt = (tree.swept removed').filter tree.createdAt := by
  have hsame : ∀ r ∈ removed', ∀ x, tree.InSubtree r x → mid.get? x = tree.get? x :=
    fun r hr x hx => h.get?_sibling hwf hchild (hchild' r hr) (hnew r hr) hx
  have hcontained : ∀ r ∈ removed', tree.contains r = true := by
    intro r hr
    obtain ⟨node, hget, -⟩ := get?_of_parentOf? (hchild' r hr)
    exact contains_of_get? hget
  constructor
  -- the walk below a removed child reads child lists only, all of them as before
  · refine List.flatMap_congr fun r hr => ?_
    refine subtree_congr hwf hwf' ?_ (size_le_of_contains fun x => h.contains) fun x hx => ?_
    · rw [Tree.contains, hsame r hr r (.refl r)]
      exact hcontained r hr
    · rw [children, children, node, node, hsame r hr x hx]
  · refine List.filter_congr fun x hx => ?_
    obtain ⟨r, hr, hrx⟩ := (mem_swept hwf hcontained).mp hx
    rw [createdAt, createdAt, hsame r hr x hrx]

/-- Two stretches of emptying, one after the other. -/
theorem append {list' loose' removed' : List Tag}
    (h : tree.Emptied parent list loose removed mid)
    (h' : mid.Emptied parent list' loose' removed' after) (hwf : tree.WellFormed)
    (hchild : ∀ c ∈ loose ++ removed, tree.parentOf? c = some parent)
    (hchild' : ∀ c ∈ loose' ++ removed', tree.parentOf? c = some parent)
    (hnew : ∀ c ∈ loose' ++ removed', c ∉ loose ++ removed) :
    tree.Emptied parent list' (loose ++ loose') (removed ++ removed') after := by
  -- the second stretch works on subtrees the first left as they were
  have hsub : ∀ {c x}, c ∈ loose' ++ removed' → (mid.InSubtree c x ↔ tree.InSubtree c x) :=
    fun hc => h.inSubtree_iff hwf hchild (hchild' _ hc) (hnew _ hc) (.refl _)
  have hapart : ∀ {c c' x}, c ∈ loose ++ removed → c' ∈ loose' ++ removed' →
      tree.InSubtree c' x → ¬ tree.InSubtree c x := by
    intro c c' x hc hc' hx
    exact hwf.siblings_disjoint (hchild' c' hc') (hchild c hc) (fun heq => hnew c' hc' (heq ▸ hc)) hx
  -- what the first stretch loosened or removed is out of reach of the second
  have hsettled : ∀ {c x}, c ∈ loose ++ removed → tree.InSubtree c x →
      after.get? x = mid.get? x := by
    intro c x hc hx
    refine h'.kept ?_ (fun hmem => ?_) fun c' hc' hsubc => ?_
    · rintro rfl
      exact not_inSubtree_parent hwf (hchild c hc) hx
    · exact hapart hc (List.mem_append_left _ hmem) (.refl x) hx
    · have hc' := List.mem_append_right loose' hc'
      exact hapart hc hc' ((hsub hc').mp hsubc) hx
  -- the four parts in turn: gone, the parent, detached, as before
  refine ⟨?_, ?_, ?_, ?_, h'.roots.trans h.roots, h'.poisoned.trans h.poisoned⟩
  · intro x r hr hx
    rcases List.mem_append.mp hr with hr | hr
    -- removed by the first stretch: the second does not bring it back
    · rw [hsettled (List.mem_append_right _ hr) hx, h.gone hr hx]
    -- removed by the second stretch, from a subtree that is as it was at the start
    · exact h'.gone hr ((hsub (List.mem_append_right _ hr)).mpr hx)
  · obtain ⟨above, habove, hmid⟩ := h.at_parent
    obtain ⟨above', habove', hafter⟩ := h'.at_parent
    rw [hmid] at habove'
    cases habove'
    exact ⟨above, habove, hafter⟩
  · intro x hx
    rcases List.mem_append.mp hx with hx | hx
    · rw [hsettled (List.mem_append_left _ hx) (.refl x), h.at_loose hx]
    -- detached by the second stretch, and not touched by the first
    · have hx' := List.mem_append_left removed' hx
      have hne : x ≠ parent := by
        rintro rfl
        exact not_inSubtree_parent hwf (hchild' x hx') (.refl x)
      have hkept : ∀ c ∈ removed, ¬ tree.InSubtree c x := fun c hc =>
        hapart (List.mem_append_right _ hc) hx' (.refl x)
      rw [h'.at_loose hx, h.kept hne (fun hmem => hnew x hx' (List.mem_append_left _ hmem)) hkept]
  · intro x hne hloose hkept
    rw [List.mem_append, not_or] at hloose
    have hkept' : ∀ c ∈ removed', ¬ mid.InSubtree c x := by
      intro c hc hsubc
      exact hkept c (List.mem_append_right _ hc) ((hsub (List.mem_append_right _ hc)).mp hsubc)
    rw [h'.kept hne hloose.2 hkept', h.kept hne hloose.1 fun c hc =>
      hkept c (List.mem_append_left _ hc)]

end Emptied

/-! ## Single positions

What becomes of the nodes when one position is emptied, by taking the child out or by destroying its
subtree. `Emptied` is stated against the tree before the pass, so that a second stretch can be added
behind the first one. -/

section Position

variable {index : Nat} {child : Tag} {above node : Node κ}

/-- What stands in the child list of a node has it as parent. -/
theorem WellFormed.child_parent (hwf : tree.WellFormed) (habove : tree.get? parent = some above)
    (hchild : above.children[index]? = some child) : tree.parentOf? child = some parent := by
  refine hwf.link.mp ?_
  rw [childrenOf_of_get? habove]
  exact List.mem_of_getElem? hchild

/-- Detaching a child empties its position. -/
theorem emptied_unlinked (hwf : tree.WellFormed) (habove : tree.get? parent = some above)
    (hchild : above.children[index]? = some child) (hnode : tree.get? child = some node) :
    tree.Emptied parent (above.children.eraseIdx index) [child] []
      (tree.unlinked parent child index above node) := by
  have hne := hwf.child_ne_parent (hwf.child_parent habove hchild)
  refine ⟨nofun, ⟨above, habove, ?_⟩, ?_, ?_, rfl, rfl⟩
  · rw [get?_unlinked, if_neg hne, if_pos rfl]
  · intro x hx
    rw [List.mem_singleton.mp hx, get?_unlinked, if_pos rfl, hnode, Option.map_some]
  · intro x hparent hx _
    rw [get?_unlinked, if_neg (fun heq => hx (List.mem_singleton.mpr heq.symm)),
      if_neg (fun heq => hparent heq.symm)]

/-- Below a detached child, subtrees are as before. -/
theorem inSubtree_unlinked_iff (hwf : tree.WellFormed) (habove : tree.get? parent = some above)
    (hchild : above.children[index]? = some child) (hnode : tree.get? child = some node)
    {y x : Tag} (hy : tree.InSubtree child y) :
    (tree.unlinked parent child index above node).InSubtree y x ↔ tree.InSubtree y x := by
  have hemptied := emptied_unlinked hwf habove hchild hnode
  constructor
  · exact fun hsub => hsub.imp_right fun hanc => hanc.mono hemptied.parentOf?_some
  · refine fun hsub => hsub.transport fun z hz => hemptied.parentOf?_eq ?_ nofun
    intro hmem
    rw [List.mem_singleton.mp hmem] at hz
    exact hwf.not_ancestor_of_inSubtree hy hz

/-- Detaching a child and destroying it empties its position. -/
theorem emptied_destroyed (hwf : tree.WellFormed) (habove : tree.get? parent = some above)
    (hchild : above.children[index]? = some child) {members : List Tag}
    (hmem : ∀ x, x ∈ members ↔ tree.InSubtree child x) :
    tree.Emptied parent (above.children.eraseIdx index) [] [child]
      ((tree.unlinked parent child index above node).withoutSubtree child members) := by
  have hparent := hwf.child_parent habove hchild
  have hne := hwf.child_ne_parent hparent
  have hloose : (tree.unlinked parent child index above node).parentOf? child = none := by
    rw [parentOf?_unlinked habove, if_pos rfl]
  -- so that leaving the list of roots does nothing
  have hnotroot : child ∉ tree.roots := by
    intro hroot
    rw [hwf.root_parentless hroot] at hparent
    cases hparent
  refine ⟨?_, ⟨above, habove, ?_⟩, nofun, ?_, List.erase_of_not_mem hnotroot,
    poisoned_withoutSubtree⟩
  · intro x r hr hx
    rw [List.mem_singleton.mp hr] at hx
    rw [get?_withoutSubtree_of_parentless hloose, if_pos ((hmem x).mpr hx)]
  · have hnot : parent ∉ members := fun h => not_inSubtree_parent hwf hparent ((hmem _).mp h)
    rw [get?_withoutSubtree_of_parentless hloose, if_neg hnot, get?_unlinked, if_neg hne, if_pos rfl]
  · intro x hx _ hkept
    have hnot : x ∉ members := fun h => hkept child (List.mem_singleton.mpr rfl) ((hmem x).mp h)
    have hxchild : child ≠ x := by
      rintro rfl
      exact hnot ((hmem _).mpr (.refl _))
    rw [get?_withoutSubtree_of_parentless hloose, if_neg hnot, get?_unlinked, if_neg hxchild,
      if_neg (fun heq => hx heq.symm)]

end Position

end Tree

/-! ## The pass

By induction on the steps that are left. The positions descend, so the entries before them have not
moved and the next position still holds the child that it held at first; and a child yet to come
lies in none of the subtrees destroyed so far. -/

/-- The child that a step only detaches, where `children` is the list before the batch. -/
def DetachStep.loosened? (children : List Tag) : DetachStep → Option Tag
  | move index _ => some (children.getD index 0)
  | remove _ | collision _ => none

/-- The position that a step empties for good. -/
def DetachStep.removedPosition? : DetachStep → Option Nat
  | remove index => some index
  | move _ _ | collision _ => none

/-- The child that a step destroys. -/
def DetachStep.removed? (children : List Tag) : DetachStep → Option Tag
  | remove index => some (children.getD index 0)
  | move _ _ | collision _ => none

namespace Children

open MountM

variable {κ : Type} {parent : Tag} {children : List Tag}

/-- A position below the one before passes the check. -/
theorem checkDescending_ok {scene : Scene κ} {previous : Option Nat} {index : Nat}
    (h : ∀ p ∈ previous, index < p) : checkDescending previous index scene = .ok () scene := by
  cases previous with
  | none => rfl
  | some previous =>
    have hlt := h previous rfl
    show (if previous ≤ index then throw _ else pure () : MountM κ Unit) scene = _
    rw [if_neg (by omega)]
    rfl

/-- Detaching one child and destroying it. -/
theorem destroyChild_ok {tree : Tree κ} {above : Node κ} {index : Nat} {child : Tag}
    (mount : MountState κ) (log : List Log.Line) (hwf : tree.WellFormed) (hflags : tree.FlagsSound)
    (habove : tree.get? parent = some above) (hchild : above.children[index]? = some child) :
    ∃ unlinked mid members log', Tree.detachAt parent index tree = .ok child unlinked ∧
      Mount.destroySubtree child ⟨unlinked, mount, log⟩ = .ok members
        ⟨mid, mount.scheduledAll tree.isRoot (members.filter tree.createdAt), log'⟩ ∧
      mid.WellFormed ∧ mid.FlagsSound ∧
      tree.Emptied parent (above.children.eraseIdx index) [] [child] mid ∧
      members = tree.subtree child := by
  obtain ⟨node, hnode, -⟩ := hwf.get?_child habove (List.mem_of_getElem? hchild)
  have hwf' := hwf.unlinked habove hchild hnode
  -- detaching keeps the flags sound, as no flag depends on who the parent is unless the parent
  -- forces it
  have hflags' : (tree.unlinked parent child index above node).FlagsSound :=
    hflags.unlinked hwf habove hnode
  have hcontained : (tree.unlinked parent child index above node).contains child = true := by
    rw [Tree.contains_unlinked habove hnode, Tree.contains_of_get? hnode]
  obtain ⟨members, log', hpost, hdestroy⟩ := Mount.destroySubtree_ok mount log hwf' hcontained
  obtain ⟨members', hpost', hmem, -⟩ := Tree.postOrder_spec hwf' hcontained
  rw [hpost] at hpost'
  cases hpost'
  -- the swept nodes are those below the child in the tree before, and so are their flags
  have hbelow : ∀ x, x ∈ members ↔ tree.InSubtree child x := fun x =>
    (hmem x).trans (Tree.inSubtree_unlinked_iff hwf habove hchild hnode (.refl _))
  have hcreated : ∀ x, (tree.unlinked parent child index above node).createdAt x =
      tree.createdAt x := by
    intro x
    rw [Tree.unlinked, Tree.createdAt_store, Tree.createdAt_store]
    split
    · next heq => rw [← heq, Tree.createdAt_of_get? hnode]
    · split
      · next heq => rw [← heq, Tree.createdAt_of_get? habove]
      · rfl
  have hfilter : members.filter (tree.unlinked parent child index above node).createdAt =
      members.filter tree.createdAt := List.filter_congr fun x _ => hcreated x
  rw [hfilter] at hdestroy
  refine ⟨_, _, members, log', Tree.detachAt_of_index hwf habove hchild hnode, hdestroy,
    hwf'.withoutSubtree hmem, hflags'.withoutSubtree hwf' hmem,
    Tree.emptied_destroyed hwf habove hchild hbelow, ?_⟩
  -- detaching the child changes no list below it
  rw [← Tree.subtree_of_postOrder hpost]
  have hsize : (tree.unlinked parent child index above node).size = tree.size :=
    Tree.size_eq_of_contains (Tree.contains_unlinked habove hnode)
  refine Tree.subtree_congr hwf hwf' hcontained (Nat.le_of_eq hsize) fun x hx => ?_
  have hne : parent ≠ x := by
    rintro rfl
    exact Tree.not_inSubtree_parent hwf (hwf.child_parent habove hchild) hx
  rw [Tree.children, Tree.children, Tree.node, Tree.node, Tree.get?_unlinked]
  by_cases hxchild : child = x
  · rw [if_pos hxchild, ← hxchild, hnode]
    rfl
  · rw [if_neg hxchild, if_neg hne]

/-- A schedule that can be carried out below `parent`, whose node is `above`: its positions descend
and hold what they held in `children`, the list before the batch. -/
structure Emptiable (tree : Tree κ) (parent : Tag) (above : Node κ) (children : List Tag)
    (steps : List DetachStep) : Prop where
  wellFormed : tree.WellFormed
  flagsSound : tree.FlagsSound
  found : tree.get? parent = some above
  descending : steps.Pairwise fun a b => b.index < a.index
  held : ∀ step ∈ steps, above.children[step.index]? = some (children.getD step.index 0)
  no_collision : ∀ index, .collision index ∉ steps

namespace Emptiable

variable {tree mid after : Tree κ} {above : Node κ} {step : DetachStep} {rest : List DetachStep}

/-- The first position holds what it held before the batch. -/
theorem child_held (h : Emptiable tree parent above children (step :: rest)) :
    above.children[step.index]? = some (children.getD step.index 0) :=
  h.held step (List.mem_cons_self ..)

/-- It holds a child of the parent. -/
theorem child_parent (h : Emptiable tree parent above children (step :: rest)) :
    tree.parentOf? (children.getD step.index 0) = some parent :=
  h.wellFormed.child_parent h.found h.child_held

/-- What the later steps take out are other children of the parent. -/
theorem later_child (h : Emptiable tree parent above children (step :: rest)) {c : Tag}
    (hc : c ∈ rest.filterMap (DetachStep.loosened? children) ++
      rest.filterMap (DetachStep.removed? children)) :
    tree.parentOf? c = some parent ∧ c ≠ children.getD step.index 0 := by
  -- of the later steps, moves detach and removals destroy what they hold
  obtain ⟨later, hlater, rfl⟩ : ∃ later ∈ rest, c = children.getD later.index 0 := by
    rcases List.mem_append.mp hc with hc | hc
    · obtain ⟨later, hmem, heq⟩ := List.mem_filterMap.mp hc
      cases later with
      | move index entry => exact ⟨_, hmem, (Option.some.inj heq).symm⟩
      | remove index => cases heq
      | collision index => cases heq
    · obtain ⟨later, hmem, heq⟩ := List.mem_filterMap.mp hc
      cases later with
      | move index entry => cases heq
      | remove index => exact ⟨_, hmem, (Option.some.inj heq).symm⟩
      | collision index => cases heq
  have hheld := h.held later (List.mem_cons_of_mem _ hlater)
  refine ⟨h.wellFormed.child_parent h.found hheld, fun heq => ?_⟩
  have hnodup : above.children.Nodup := by
    rw [← Tree.childrenOf_of_get? h.found]
    exact h.wellFormed.nodup parent
  -- the positions descend, and a child is listed once
  have hlt := (List.pairwise_cons.mp h.descending).1 later hlater
  obtain ⟨hlater_lt, -⟩ := List.getElem?_eq_some_iff.mp hheld
  have hindex : later.index = step.index :=
    (List.getElem?_inj hlater_lt hnodup).mp (by rw [hheld, heq, h.child_held])
  omega

/-- After the first step the rest can be carried out. -/
theorem tail (h : Emptiable tree parent above children (step :: rest)) (hwf : mid.WellFormed)
    (hflags : mid.FlagsSound)
    (hfound : mid.get? parent = some { above with children := above.children.eraseIdx step.index }) :
    Emptiable mid parent { above with children := above.children.eraseIdx step.index } children
      rest := by
  obtain ⟨hhead, hdesc⟩ := List.pairwise_cons.mp h.descending
  refine ⟨hwf, hflags, hfound, hdesc, fun later hlater => ?_, fun index hmem => ?_⟩
  -- the later positions lie below the one emptied, where the list is as it was
  · show (above.children.eraseIdx step.index)[later.index]? = _
    rw [List.getElem?_eraseIdx_of_lt (hhead later hlater)]
    exact h.held later (List.mem_cons_of_mem _ hlater)
  · exact h.no_collision index (List.mem_cons_of_mem _ hmem)

/-- The first step and what follows it, one after the other. The step takes out one child, be it
loosened or removed. -/
theorem chain (h : Emptiable tree parent above children (step :: rest))
    {list list' loose removed : List Tag}
    (hstep : loose ++ removed = [children.getD step.index 0]) (hwf' : mid.WellFormed)
    (hemptied : tree.Emptied parent list loose removed mid)
    (hrest : mid.Emptied parent list' (rest.filterMap (DetachStep.loosened? children))
      (rest.filterMap (DetachStep.removed? children)) after) :
    tree.Emptied parent list' (loose ++ rest.filterMap (DetachStep.loosened? children))
        (removed ++ rest.filterMap (DetachStep.removed? children)) after ∧
      (mid.swept (rest.filterMap (DetachStep.removed? children))).filter mid.createdAt =
        (tree.swept (rest.filterMap (DetachStep.removed? children))).filter tree.createdAt := by
  -- the first step takes out a child, and the later ones take out others
  have hchild : ∀ c ∈ loose ++ removed, tree.parentOf? c = some parent := by
    intro c hc
    rw [hstep] at hc
    rw [List.mem_singleton.mp hc]
    exact h.child_parent
  have hnew : ∀ c ∈ rest.filterMap (DetachStep.loosened? children) ++
      rest.filterMap (DetachStep.removed? children), c ∉ loose ++ removed := by
    intro c hc hmem
    rw [hstep] at hmem
    exact (h.later_child hc).2 (List.mem_singleton.mp hmem)
  refine ⟨hemptied.append hrest h.wellFormed hchild (fun c hc => (h.later_child hc).1) hnew, ?_⟩
  obtain ⟨hswept, hcreated⟩ := hemptied.swept_eq h.wellFormed hwf' hchild
    (fun c hc => (h.later_child (List.mem_append_right _ hc)).1)
    (fun c hc => hnew c (List.mem_append_right _ hc))
  rw [hswept, hcreated]

end Emptiable

/-- Emptying positions that descend and lie in the list of the parent. -/
theorem detachAll_ok : ∀ {steps : List DetachStep} (previous : Option Nat) (moves : MovePlan)
    {tree : Tree κ} {above : Node κ} (mount : MountState κ) (log : List Log.Line),
    Emptiable tree parent above children steps → (∀ p ∈ previous, ∀ step ∈ steps, step.index < p) →
      ∃ after log', detachAll parent previous moves steps ⟨tree, mount, log⟩ =
          .ok (moves.parkAll children steps) ⟨after, mount.scheduledAll tree.isRoot
            ((tree.swept (steps.filterMap (DetachStep.removed? children))).filter tree.createdAt),
            log'⟩ ∧
        after.WellFormed ∧ after.FlagsSound ∧
        tree.Emptied parent ((steps.map DetachStep.index).foldl List.eraseIdx above.children)
          (steps.filterMap (DetachStep.loosened? children))
          (steps.filterMap (DetachStep.removed? children)) after
  -- nothing to do
  | [], _, moves, tree, above, mount, log, h, _ =>
    ⟨tree, log, rfl, h.wellFormed, h.flagsSound,
      ⟨nofun, ⟨above, h.found, h.found⟩, nofun, fun _ _ _ => rfl, rfl, rfl⟩⟩
  -- a schedule of a valid batch has no collisions
  | .collision index :: _, _, _, _, _, _, _, h, _ =>
    absurd (List.mem_cons_self ..) (h.no_collision index)
  | .move index entry :: rest, previous, moves, tree, above, mount, log, h, hprevious => by
    have hwf := h.wellFormed
    have hheld := h.child_held
    obtain ⟨node, hnode, -⟩ := hwf.get?_child h.found (List.mem_of_getElem? hheld)
    have hcheck : checkDescending previous index ⟨tree, mount, log⟩ = .ok () ⟨tree, mount, log⟩ :=
      checkDescending_ok fun p hp => hprevious p hp _ (List.mem_cons_self ..)
    have hdetach := Tree.detachAt_of_index hwf h.found hheld hnode
    have hemptied := Tree.emptied_unlinked hwf h.found hheld hnode
    obtain ⟨above', habove', hfound⟩ := hemptied.at_parent
    rw [h.found] at habove'
    cases habove'
    have hwfMid := hwf.unlinked h.found hheld hnode
    obtain ⟨after, log', hrun, hwf', hflags', hrest⟩ :=
      detachAll_ok (some index) (moves.park entry (children.getD index 0)) mount log
        (h.tail hwfMid (h.flagsSound.unlinked hwf h.found hnode) hfound)
        (by
          rintro p ⟨⟩ later hlater
          exact (List.pairwise_cons.mp h.descending).1 later hlater)
    -- a moved child is loosened and nothing is swept
    obtain ⟨hboth, hcreated⟩ := h.chain rfl hwfMid hemptied hrest
    refine ⟨after, log', ?_, hwf', hflags', hboth⟩
    rw [hcreated] at hrun
    unfold detachAll
    rw [bind_of_ok hcheck, bind_of_ok (onTree_of_ok hdetach)]
    exact hrun
  | .remove index :: rest, previous, moves, tree, above, mount, log, h, hprevious => by
    have hwf := h.wellFormed
    have hcheck : checkDescending previous index ⟨tree, mount, log⟩ = .ok () ⟨tree, mount, log⟩ :=
      checkDescending_ok fun p hp => hprevious p hp _ (List.mem_cons_self ..)
    obtain ⟨unlinked, mid, members, log₁, hdetach, hdestroy, hwfMid, hflagsMid, hemptied, rfl⟩ :=
      destroyChild_ok mount log hwf h.flagsSound h.found h.child_held
    obtain ⟨above', habove', hfound⟩ := hemptied.at_parent
    rw [h.found] at habove'
    cases habove'
    obtain ⟨after, log', hrun, hwf', hflags', hrest⟩ :=
      detachAll_ok (some index) moves _ log₁ (h.tail hwfMid hflagsMid hfound)
        (by
          rintro p ⟨⟩ later hlater
          exact (List.pairwise_cons.mp h.descending).1 later hlater)
    -- a removed child is swept before those of the later steps
    obtain ⟨hboth, hcreated⟩ := h.chain rfl hwfMid hemptied hrest
    have hroots : mid.isRoot = tree.isRoot := by
      funext x
      rw [Tree.isRoot, Tree.isRoot, hemptied.roots]
    have hsplit : tree.swept ((.remove index :: rest).filterMap (DetachStep.removed? children)) =
        tree.subtree (children.getD index 0) ++
          tree.swept (rest.filterMap (DetachStep.removed? children)) := List.flatMap_cons
    refine ⟨after, log', ?_, hwf', hflags', hboth⟩
    rw [hcreated, hroots] at hrun
    unfold detachAll
    rw [bind_of_ok hcheck, bind_of_ok (onTree_of_ok hdetach), bind_of_ok hdestroy, hrun, hsplit,
      List.filter_append, MountState.scheduledAll_append]
    rfl

end Children

end ShadowMount
