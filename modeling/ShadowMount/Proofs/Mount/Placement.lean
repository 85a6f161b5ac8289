import ShadowMount.Proofs.Mount.Itinerary

/-!
# Frames inside native parents

The frame of a view is relative to its native parent: the positions of the nodes in between are
added up. A reconciliation adds them on its way down, and everything else on the way up. In exact
arithmetic both come to the same frame, and that frame has a description of its own.

* **`Coordinate.Exact`** — what is asked of exact arithmetic. Fractions have it.
* **`Tree.Positioned`** — the frame of a node inside its native parent, by the sum over the nodes in
  between.
* **`Tree.KeepsPlaces`** — trees that agree on the positions of their nodes.
* **`Tree.OffsetBelow`** — the offset that both directions compute; `OffsetBelow.child` is one step
  down, `offsetBelow_of_offset` the sum on the way up.
* **`WellFormed.positioned_itinerary`**, **`mem_viewItinerary_iff`** — all frames on itineraries are
  these frames.
-/

namespace ShadowMount

/-- Exact arithmetic: positions can be added in any order, and a coordinate equals itself. -/
class Coordinate.Exact (κ : Type) [Coordinate κ] : Prop where
  add_assoc : ∀ a b c : κ, a + b + c = a + (b + c)
  add_comm : ∀ a b : κ, a + b = b + a
  zero_add : ∀ a : κ, 0 + a = a
  beq_self : ∀ a : κ, (a == a) = true

instance : Coordinate Rat where
  zero := 0
  ofCount n := n
  text := toString

instance : Coordinate.Exact Rat where
  add_assoc := Rat.add_assoc
  add_comm := Rat.add_comm
  zero_add := Rat.zero_add
  beq_self _ := BEq.rfl

/-- Zero is neutral on the right too. -/
theorem Coordinate.Exact.add_zero {κ : Type} [Coordinate κ] [Exact κ] (a : κ) : a + 0 = a := by
  rw [add_comm, zero_add]

/-- In exact arithmetic every frame equals itself, so the frame last sent is recognised. -/
theorem Frame.same_refl {κ : Type} [Coordinate κ] [Coordinate.Exact κ] (frame : Frame κ) :
    frame.same frame = true := by
  simp [same, Coordinate.Exact.beq_self]

namespace Tree

variable {κ : Type} {tree : Tree κ}

/-- `Between tree a c l`: `l` lists the ancestors of `c` strictly below its ancestor `a`, nearest
first. -/
inductive Between (tree : Tree κ) (a : Tag) : Tag → List Tag → Prop
  | parent {c : Tag} : tree.parentOf? c = some a → Between tree a c []
  | beyond {c q : Tag} {l : List Tag} : tree.parentOf? c = some q → Between tree a q l →
      Between tree a c (q :: l)

/-- What `Between` is told of is an ancestor. -/
theorem Between.ancestor {a c : Tag} {l : List Tag} (h : tree.Between a c l) :
    tree.Ancestor a c := by
  induction h with
  | parent hparent => exact .parent hparent
  | beyond hparent _ ih => exact .step hparent ih

/-- The nodes in between are determined, as links do not go in circles. -/
theorem Between.unique (hwf : tree.WellFormed) {a c : Tag} {l l' : List Tag}
    (h : tree.Between a c l) (h' : tree.Between a c l') : l = l' := by
  induction h generalizing l' with
  | parent hparent =>
    cases h' with
    | parent => rfl
    -- the nearer list is empty, so the parent is the ancestor itself and nothing is below it
    | beyond hparent' hrest =>
      obtain rfl := Option.some.inj (hparent.symm.trans hparent')
      exact absurd hrest.ancestor (hwf.not_ancestor_self _)
  | beyond hparent hrest ih =>
    cases h' with
    | parent hparent' =>
      obtain rfl := Option.some.inj (hparent.symm.trans hparent')
      exact absurd hrest.ancestor (hwf.not_ancestor_self _)
    | beyond hparent' hrest' =>
      obtain rfl := Option.some.inj (hparent.symm.trans hparent')
      rw [ih hrest']

variable [Coordinate κ]

/-- The sum of one coordinate of the positions of some nodes. -/
def totalOf (tree : Tree κ) (axis : Frame κ → κ) (tags : List Tag) : κ :=
  (tags.filterMap fun tag => (tree.get? tag).map fun node => axis node.frame).sum

/-- Adding the nodes up, one node at a time. -/
theorem totalOf_cons (axis : Frame κ → κ) {tag : Tag} {node : Node κ}
    (hget : tree.get? tag = some node) (tags : List Tag) :
    tree.totalOf axis (tag :: tags) = axis node.frame + tree.totalOf axis tags := by
  rw [totalOf, List.filterMap_cons, hget]
  exact List.sum_cons

/-- The frame of a node inside its native parent: the position of the node, moved by the positions
of the nodes in between. -/
structure Positioned (tree : Tree κ) (tag parent : Tag) (frame : Frame κ) : Prop where
  nativeParent : tree.NativeParent tag parent
  frame_eq : ∃ node between, tree.get? tag = some node ∧ tree.Between parent tag between ∧
    frame = node.frame.shift (tree.totalOf Frame.x between) (tree.totalOf Frame.y between)

/-- A node has one position. -/
theorem Positioned.unique (hwf : tree.WellFormed) {tag a b : Tag} {frame other : Frame κ}
    (h : tree.Positioned tag a frame) (h' : tree.Positioned tag b other) :
    a = b ∧ frame = other := by
  -- the native parent, the record and the nodes in between are each determined
  obtain rfl := h.nativeParent.unique hwf h'.nativeParent
  obtain ⟨node, between, hget, hbetween, rfl⟩ := h.frame_eq
  obtain ⟨node', between', hget', hbetween', rfl⟩ := h'.frame_eq
  obtain rfl := Option.some.inj (hget.symm.trans hget')
  obtain rfl := hbetween.unique hwf hbetween'
  exact ⟨rfl, rfl⟩

/-! ## Trees with the same positions

Positions depend on links, on the mount flags and on the frames of the nodes. Trees that agree on
these agree on all positions. -/

/-- Every node keeps its parent, its frame and whether it mounts. Child lists may be reordered and
there may be more nodes: no position depends on that. -/
def KeepsPlaces (tree after : Tree κ) : Prop :=
  ∀ x node, tree.get? x = some node → ∃ node', after.get? x = some node' ∧
    node'.parent = node.parent ∧ node'.frame = node.frame ∧ node'.mounts = node.mounts

namespace KeepsPlaces

variable {after : Tree κ}

omit [Coordinate κ]

/-- Parents are kept. -/
theorem parentOf? (h : tree.KeepsPlaces after) {x : Tag} (hx : tree.contains x = true) :
    after.parentOf? x = tree.parentOf? x := by
  obtain ⟨node, hget⟩ := contains_iff.mp hx
  obtain ⟨node', hget', hparent, -, -⟩ := h x node hget
  rw [parentOf?_of_get? hget', parentOf?_of_get? hget, hparent]

/-- Mount flags are kept. -/
theorem mountsAt (h : tree.KeepsPlaces after) {x : Tag} (hx : tree.contains x = true) :
    after.mountsAt x = tree.mountsAt x := by
  obtain ⟨node, hget⟩ := contains_iff.mp hx
  obtain ⟨node', hget', -, -, hmounts⟩ := h x node hget
  rw [mountsAt_of_get? hget', mountsAt_of_get? hget, hmounts]

/-- Native parents are kept: they are found along parents, by mount flags. -/
theorem nativeParent (h : tree.KeepsPlaces after) (hwf : tree.WellFormed) {tag parent : Tag}
    (hp : tree.NativeParent tag parent) : after.NativeParent tag parent := by
  have htag := hp.ancestor.contains
  have habove : ∀ {x}, tree.Ancestor x tag → tree.contains x = true := hwf.contains_ancestor
  refine ⟨hp.1.transport (fun x hx => h.parentOf? ?_) fun x hx _ hnot => ?_, ?_⟩
  · rcases hx with rfl | hx
    · exact htag
    · exact habove hx
  · rw [h.mountsAt (habove hx), hnot]
  · rw [h.mountsAt (habove hp.ancestor), hp.2]

/-- The nodes in between are kept, and so are their positions. -/
theorem between [Coordinate κ] (h : tree.KeepsPlaces after) (hwf : tree.WellFormed) {a c : Tag}
    {l : List Tag} (hl : tree.Between a c l) : after.Between a c l ∧
      ∀ axis, after.totalOf axis l = tree.totalOf axis l := by
  induction hl with
  | parent hparent =>
    exact ⟨.parent ((h.parentOf? (Ancestor.parent hparent).contains).trans hparent), fun _ => rfl⟩
  | beyond hparent _ ih =>
    obtain ⟨hbetween, htotal⟩ := ih
    obtain ⟨node, hget⟩ := contains_iff.mp (hwf.contains_parent hparent)
    obtain ⟨node', hget', -, hframe, -⟩ := h _ node hget
    refine ⟨.beyond ((h.parentOf? (Ancestor.parent hparent).contains).trans hparent) hbetween,
      fun axis => ?_⟩
    rw [totalOf_cons axis hget', totalOf_cons axis hget, hframe, htotal]

/-- A position, once described, is that of the later tree. -/
theorem positioned [Coordinate κ] (h : tree.KeepsPlaces after) (hwf : tree.WellFormed)
    {tag parent : Tag} {frame : Frame κ} (hpositioned : tree.Positioned tag parent frame) :
    after.Positioned tag parent frame := by
  obtain ⟨node, between, hget, hbetween, rfl⟩ := hpositioned.frame_eq
  obtain ⟨node', hget', -, hframe, -⟩ := h tag node hget
  obtain ⟨hbetween', htotal⟩ := h.between hwf hbetween
  refine ⟨h.nativeParent hwf hpositioned.nativeParent, node', between, hget', hbetween', ?_⟩
  rw [hframe, htotal, htotal]

end KeepsPlaces

omit [Coordinate κ] in
/-- Views that are created do not move anything. -/
theorem Grown.keepsPlaces {after : Tree κ} (h : tree.Grown after) :
    tree.KeepsPlaces after ∧ after.KeepsPlaces tree := by
  refine ⟨fun x node hget => ?_, fun x node hget => ?_⟩
  · have hget' := h.node x
    rw [hget, Option.map_some] at hget'
    exact ⟨_, hget', rfl, rfl, rfl⟩
  · rw [h.node, Option.map_eq_some_iff] at hget
    obtain ⟨node', hget', rfl⟩ := hget
    exact ⟨node', hget', rfl, rfl, rfl⟩

/-- While views are created, the frames that describe positions are the same from both sides. -/
theorem Grown.positioned_iff {after : Tree κ} (h : tree.Grown after) (hwf : tree.WellFormed)
    {tag parent : Tag} {frame : Frame κ} :
    after.Positioned tag parent frame ↔ tree.Positioned tag parent frame :=
  ⟨h.keepsPlaces.2.positioned (h.sameLinks.wellFormed hwf), h.keepsPlaces.1.positioned hwf⟩

/-! ## Offsets, from above and from below

A reconciliation carries an offset downwards and adds the position of each node that it passes. Read
from below this is the sum over the nodes between the native parent and the node; exact addition
makes the two sums equal. -/

/-- `(dx, dy)` is the position of the parent node of `tag` inside the native parent of `tag`. -/
structure OffsetBelow (tree : Tree κ) (tag parent : Tag) (dx dy : κ) : Prop where
  nativeParent : tree.NativeParent tag parent
  sums : ∃ between, tree.Between parent tag between ∧ dx = tree.totalOf Frame.x between ∧
    dy = tree.totalOf Frame.y between

/-- The offset of a node's parent gives the frame of the node. -/
theorem OffsetBelow.positioned {tag parent : Tag} {dx dy : κ} {node : Node κ}
    (h : tree.OffsetBelow tag parent dx dy) (hget : tree.get? tag = some node) :
    tree.Positioned tag parent (node.frame.shift dx dy) := by
  obtain ⟨between, hbetween, rfl, rfl⟩ := h.sums
  exact ⟨h.nativeParent, node, between, hget, hbetween, rfl⟩

/-- Right below a node that mounts nothing is in between. -/
theorem offsetBelow_mounting {tag child : Tag} (hparent : tree.parentOf? child = some tag)
    (hmounts : tree.mountsAt tag = true) : tree.OffsetBelow child tag 0 0 :=
  ⟨⟨.parent hparent, hmounts⟩, [], .parent hparent, rfl, rfl⟩

omit [Coordinate κ] in
/-- If each list answers a visit to a view with one to its frame, so do all of them together. -/
theorem exists_frame_flatMap {x : Tag} {tags : List Tag} {each : Tag → List (Visit κ)}
    (heach : ∀ c, .view x ∈ each c → ∃ parent frame, .frame x parent frame ∈ each c)
    (h : .view x ∈ tags.flatMap each) :
    ∃ parent frame, .frame x parent frame ∈ tags.flatMap each := by
  obtain ⟨c, hc, hview⟩ := List.mem_flatMap.mp h
  obtain ⟨parent, frame, hframe⟩ := heach c hview
  exact ⟨parent, frame, List.mem_flatMap.mpr ⟨c, hc, hframe⟩⟩

/-- Every view that is visited is sent its frame, but for that of a node with nothing above it. -/
theorem exists_frame_of_view : ∀ {steps : Nat} {tag : Tag} {dx dy : κ} {above : Option Tag}
    {x : Tag}, (above = none → tree.mountsAt tag = true ∧ x ≠ tag) →
    .view x ∈ tree.itinerary steps tag dx dy above → ∃ parent frame,
      .frame x parent frame ∈ tree.itinerary steps tag dx dy above
  | 0, _, _, _, _, _, _, h => nomatch h
  | steps + 1, tag, dx, dy, above, x, habove, h => by
    -- below the first node there is always a view above
    have hbelow : ∀ {dx dy : κ} {a c : Tag}, .view x ∈ tree.itinerary steps c dx dy (some a) →
        ∃ parent frame, .frame x parent frame ∈ tree.itinerary steps c dx dy (some a) :=
      fun hview => exists_frame_of_view nofun hview
    cases hget : tree.get? tag with
    | none =>
      rw [itinerary, hget] at h
      cases h
    | some node =>
      have hmountsAt := mountsAt_of_get? hget
      cases hmounts : node.mounts with
      | false =>
        -- a node that does not mount passes on what is above it, which must be there
        cases above with
        | none =>
          rw [(habove rfl).1, hmounts] at hmountsAt
          cases hmountsAt
        | some a =>
          rw [itinerary_of_unmounting hget hmounts] at h ⊢
          exact exists_frame_flatMap (fun c => hbelow) h
      | true =>
        rw [itinerary_of_mounting hget hmounts] at h ⊢
        -- the view is the node's own or lies below
        rcases List.mem_cons.mp h with heq | h
        · cases heq
          cases above with
          | none => exact absurd rfl (habove rfl).2
          | some a => exact ⟨a, node.frame.shift dx dy, by simp⟩
        · have hview : .view x ∈
              (tree.childrenOf tag).flatMap (tree.itinerary steps · 0 0 (some tag)) := by
            simpa using h
          obtain ⟨parent, frame, hframe⟩ := exists_frame_flatMap (fun c => hbelow) hview
          exact ⟨parent, frame, List.mem_cons_of_mem _ (List.mem_append_right _
            (List.mem_append_left _ hframe))⟩

/-- The itinerary of a subtree has the frame of every node of it that mounts, but for that of a top
with nothing above it. -/
theorem WellFormed.exists_frame_itinerary (hwf : tree.WellFormed) {dx dy : κ} {above : Option Tag}
    {x t : Tag} (hx : tree.contains x = true)
    (habove : above = none → tree.mountsAt x = true ∧ t ≠ x) (hsub : tree.InSubtree x t)
    (hmounts : tree.mountsAt t = true) :
    ∃ parent frame, .frame t parent frame ∈ tree.itinerary tree.budget x dx dy above := by
  obtain ⟨hviews, -⟩ := hwf.views_itinerary dx dy above hx
  obtain ⟨visit, hvisit, hview⟩ := List.mem_filterMap.mp ((hviews t).mpr ⟨hsub, hmounts⟩)
  -- the only visit that creates the view is that to the view
  obtain rfl : visit = .view t := by
    cases visit with
    | view => exact congrArg _ (Option.some.inj hview)
    | frame | children => cases hview
  exact exists_frame_of_view habove hvisit

/-- A frame on an itinerary is that of its node, moved by an offset. Whatever holds of an offset
right below a node that mounts, and from one node to the next past those that do not mount, holds
there. -/
theorem WellFormed.frame_itinerary (hwf : tree.WellFormed) {R : Tag → Tag → κ → κ → Prop}
    (hskip : ∀ {tag a child : Tag} {dx dy : κ} {node : Node κ}, R tag a dx dy →
      tree.get? tag = some node → node.mounts = false → tree.parentOf? child = some tag →
        R child a (dx + node.frame.x) (dy + node.frame.y))
    (hbelow : ∀ {tag child : Tag}, tree.parentOf? child = some tag → tree.mountsAt tag = true →
      R child tag 0 0) : ∀ {steps : Nat} {tag : Tag} {dx dy : κ} {above : Option Tag}
    {x parent : Tag} {frame : Frame κ}, (∀ a ∈ above, R tag a dx dy) →
      .frame x parent frame ∈ tree.itinerary steps tag dx dy above →
        ∃ node dx' dy', tree.get? x = some node ∧ R x parent dx' dy' ∧
          frame = node.frame.shift dx' dy'
  | 0, _, _, _, _, _, _, _, _, h => nomatch h
  | steps + 1, tag, dx, dy, above, x, parent, frame, habove, h => by
    cases hget : tree.get? tag with
    | none =>
      rw [itinerary, hget] at h
      cases h
    | some node =>
      cases hmounts : node.mounts with
      -- a node that does not mount adds its position to the offset
      | false =>
        rw [itinerary_of_unmounting hget hmounts] at h
        obtain ⟨c, hc, h⟩ := List.mem_flatMap.mp h
        exact hwf.frame_itinerary hskip hbelow
          (fun a ha => hskip (habove a ha) hget hmounts (hwf.link.mp hc)) h
      | true =>
        rw [itinerary_of_mounting hget hmounts, List.mem_cons, List.mem_append, List.mem_append,
          List.mem_singleton] at h
        -- the frame is the node's own or lies below, where the offset starts over
        rcases h with h | h | h | h
        · cases h
        · obtain ⟨a, ha, heq⟩ := List.mem_map.mp h
          cases heq
          exact ⟨node, dx, dy, hget, habove parent (Option.mem_toList.mp ha), rfl⟩
        · obtain ⟨c, hc, h⟩ := List.mem_flatMap.mp h
          refine hwf.frame_itinerary hskip hbelow (fun a ha => ?_) h
          cases ha
          exact hbelow (hwf.link.mp hc) ((mountsAt_of_get? hget).trans hmounts)
        · cases h

/-- The frames on an itinerary are relative to native parents. -/
theorem WellFormed.nativeParent_itinerary (hwf : tree.WellFormed) {steps : Nat} {tag : Tag}
    {dx dy : κ} {above : Option Tag} {x parent : Tag} {frame : Frame κ}
    (habove : ∀ a ∈ above, tree.NativeParent tag a)
    (h : .frame x parent frame ∈ tree.itinerary steps tag dx dy above) :
    tree.NativeParent x parent := by
  -- the offset is of no interest here, so the relation is about the native parent alone
  obtain ⟨-, -, -, -, hparent, -⟩ := hwf.frame_itinerary
    (R := fun tag a _ _ => tree.NativeParent tag a)
    (fun hnative hget hmounts hparent =>
      (nativeParent_beyond_iff hparent ((mountsAt_of_get? hget).trans hmounts)).mpr hnative)
    (fun hparent hmounts => ⟨.parent hparent, hmounts⟩) habove h
  exact hparent

variable [Coordinate.Exact κ]

/-- One step down past a node that does not mount. -/
theorem OffsetBelow.child {tag parent child : Tag} {dx dy : κ} {node : Node κ}
    (h : tree.OffsetBelow tag parent dx dy) (hget : tree.get? tag = some node)
    (hmounts : node.mounts = false) (hparent : tree.parentOf? child = some tag) :
    tree.OffsetBelow child parent (dx + node.frame.x) (dy + node.frame.y) := by
  obtain ⟨between, hbetween, rfl, rfl⟩ := h.sums
  have hskip : tree.mountsAt tag = false := (mountsAt_of_get? hget).trans hmounts
  refine ⟨(nativeParent_beyond_iff hparent hskip).mpr h.nativeParent, tag :: between,
    .beyond hparent hbetween, ?_, ?_⟩
  -- the node passed by is the first in between, and it is added last
  · rw [totalOf_cons _ hget, Coordinate.Exact.add_comm]
  · rw [totalOf_cons _ hget, Coordinate.Exact.add_comm]

/-- The sum on the way up. -/
theorem sumOffsets_eq (hwf : tree.WellFormed) {tag : Tag} {l : List Tag}
    (h : tree.Lineage tag l) : ∀ {parent : Tag} {steps : Nat} (dx dy : κ),
      tree.NativeParent tag parent → l.length ≤ steps → ∃ between,
        tree.Between parent tag between ∧ tree.sumOffsets steps (tree.parentOf? tag) (dx, dy) =
          .ok (dx + tree.totalOf Frame.x between, dy + tree.totalOf Frame.y between) := by
  -- induction on the way up; the running total is part of what is shown
  induction h with
  | top _ hnone =>
    intro parent steps dx dy hnative _
    obtain ⟨q, hq, -⟩ := hnative.ancestor.parent_inSubtree
    rw [hnone] at hq
    cases hq
  | @up tag q l hparent hrest ih =>
    intro parent steps dx dy hnative hsteps
    rw [List.length_cons] at hsteps
    have hpos := hrest.length_pos
    obtain ⟨steps, rfl⟩ : ∃ k, steps = k + 1 := ⟨steps - 1, by omega⟩
    obtain ⟨node, hget⟩ := contains_iff.mp (hwf.contains_parent hparent)
    rw [hparent, sumOffsets, node_of_get? hget, ok_bind]
    -- at the first node that mounts the sum ends, and before that one more node is in between
    cases hmounts : node.mounts with
    | true =>
      obtain rfl : parent = q :=
        hnative.unique hwf ⟨.parent hparent, (mountsAt_of_get? hget).trans hmounts⟩
      refine ⟨[], .parent hparent, ?_⟩
      show Except.ok (dx, dy) = .ok (dx + 0, dy + 0)
      rw [Coordinate.Exact.add_zero, Coordinate.Exact.add_zero]
    | false =>
      have hskip : tree.mountsAt q = false := (mountsAt_of_get? hget).trans hmounts
      have habove := (nativeParent_beyond_iff hparent hskip).mp hnative
      obtain ⟨between, hbetween, hsum⟩ :=
        @ih parent steps (dx + node.frame.x) (dy + node.frame.y) habove (by omega)
      refine ⟨q :: between, .beyond hparent hbetween, ?_⟩
      rw [if_neg Bool.false_ne_true, ← parentOf?_of_get? hget, hsum, totalOf_cons _ hget,
        totalOf_cons _ hget, Coordinate.Exact.add_assoc, Coordinate.Exact.add_assoc]

/-- What the sum on the way up computes is the offset. -/
theorem offsetBelow_of_offset (hwf : tree.WellFormed) {tag parent : Tag} {dx dy : κ}
    (hnative : tree.NativeParent tag parent)
    (hoffset : tree.offsetInNativeParent tag = .ok (dx, dy)) :
    tree.OffsetBelow tag parent dx dy := by
  have ht := hnative.ancestor.contains
  obtain ⟨l, hl⟩ := hwf.exists_lineage ht
  obtain ⟨node, hget⟩ := contains_iff.mp ht
  have hlen := hl.length_le_size hwf
  obtain ⟨between, hbetween, hsum⟩ :=
    -- the way up is no longer than the tree, so the budget suffices
    sumOffsets_eq hwf hl 0 0 hnative (show l.length ≤ tree.budget by rw [budget]; omega)
  rw [offsetInNativeParent, node_of_get? hget, ok_bind, ← parentOf?_of_get? hget, hsum,
    Coordinate.Exact.zero_add, Coordinate.Exact.zero_add] at hoffset
  cases hoffset
  exact ⟨hnative, between, hbetween, rfl, rfl⟩

/-! ## Frames on itineraries

The frames that a reconciliation computes are the positions inside native parents, for the itinerary
of a subtree as for that of a view. -/

/-- Every frame on an itinerary is the frame of its node. -/
theorem WellFormed.positioned_itinerary (hwf : tree.WellFormed) {steps : Nat} {tag : Tag}
    {dx dy : κ} {above : Option Tag} {x parent : Tag} {frame : Frame κ}
    (habove : ∀ a ∈ above, tree.OffsetBelow tag a dx dy)
    (h : .frame x parent frame ∈ tree.itinerary steps tag dx dy above) :
    tree.Positioned x parent frame := by
  obtain ⟨node, dx', dy', hget, hoffset, rfl⟩ :=
    hwf.frame_itinerary OffsetBelow.child offsetBelow_mounting habove h
  exact hoffset.positioned hget

/-- The frame computed on the way up describes the position. -/
theorem positioned_nativeFrame (hwf : tree.WellFormed) {tag parent : Tag} {frame : Frame κ}
    (hnative : tree.NativeParent tag parent) (hframe : tree.nativeFrame tag = .ok frame) :
    tree.Positioned tag parent frame := by
  have ht := hnative.ancestor.contains
  obtain ⟨node, hget⟩ := contains_iff.mp ht
  obtain ⟨⟨dx, dy⟩, hoffset⟩ := offsetInNativeParent_ok hwf ht
  rw [nativeFrame_of_offset hget hoffset] at hframe
  cases hframe
  exact (offsetBelow_of_offset hwf hnative hoffset).positioned hget

/-- A node with a native parent has a position, whatever its links. -/
theorem NativeParent.exists_positioned (hwf : tree.WellFormed) {tag parent : Tag}
    (hnative : tree.NativeParent tag parent) : ∃ frame, tree.Positioned tag parent frame := by
  obtain ⟨frame, hframe⟩ := nativeFrame_ok hwf hnative.ancestor.contains
  exact ⟨frame, positioned_nativeFrame hwf hnative hframe⟩

/-- The refresh of a view computes its frame, if it has a native parent. -/
theorem mem_viewItinerary_iff (hwf : tree.WellFormed) {tag x parent : Tag} {frame : Frame κ}
    (ht : tree.contains tag = true) : .frame x parent frame ∈ tree.viewItinerary tag ↔
      x = tag ∧ tree.Positioned tag parent frame := by
  -- a refresh sends a frame exactly if there is a native parent
  rcases nativeParent_cases hwf ht with ⟨p, hquery, hp⟩ | ⟨hquery, hnone⟩
  · obtain ⟨computed, hframe⟩ := nativeFrame_ok hwf ht
    have hpositioned := positioned_nativeFrame hwf hp hframe
    rw [viewItinerary_of_parent hwf hp hframe]
    constructor
    · intro h
      rcases List.mem_cons.mp h with heq | h
      · cases heq
        exact ⟨rfl, hpositioned⟩
      · cases List.mem_singleton.mp h
    · rintro ⟨rfl, h⟩
      obtain ⟨rfl, rfl⟩ := h.unique hwf hpositioned
      exact List.mem_cons_self ..
  · refine ⟨fun h => ?_, fun h => absurd h.2.nativeParent (hnone parent)⟩
    rw [viewItinerary, hquery] at h
    simp at h

end Tree

end ShadowMount
