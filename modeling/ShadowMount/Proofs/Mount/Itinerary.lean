import ShadowMount.Proofs.Mount.Escalate

/-!
# Itineraries

Reconciliation visits the nodes of a subtree in an order that the tree alone determines: whether a
view is created, a frame or a child list sent at a visit depends on what was sent before, but which
visits are made does not. The list of visits is the itinerary. What a reconciliation does is then
read off a list, with no recursion over the tree.

* **`Tree.itinerary`** — the visits of a reconciliation, read off the tree. It stays the same while
  views are created (`Grown.itinerary`), reaches exactly the nodes that mount (`itinerary_inside`,
  `mem_itinerary`), views before those below them (`pairwise_itinerary`).
* **`Mount.Journey`** — visits made one after the other; `reconcile_travels` says that reconciling is
  the journey along the itinerary, `reconcileBelow_journey` and `refreshView_journey` the same of the
  other requests.
* **`Journey.createdAt_iff`**, **`Journey.creates`** — the views that a journey creates, and in which
  order.
* **`Journey.current`**, **`Journey.eq_of_current`** — after a journey everything visited is as it
  should be, and a journey that finds it so changes nothing.
-/

namespace ShadowMount

/-- One stop of a reconciliation. -/
inductive Visit (κ : Type) where
  /-- Create the view of a node, unless it exists. -/
  | view (tag : Tag)
  /-- Send the frame of a view inside its native parent, if it changed. -/
  | frame (tag parent : Tag) (frame : Frame κ)
  /-- Send the native child list of a view, if it changed. -/
  | children (tag : Tag)

namespace Visit

variable {κ : Type}

/-- The node that is visited. -/
def tag : Visit κ → Tag
  | view tag | frame tag .. | children tag => tag

/-- The view that is created unless it exists. -/
def view? : Visit κ → Option Tag
  | view tag => some tag
  | _ => none

/-- The frame that is computed. -/
def frame? : Visit κ → Option (Frame κ)
  | frame _ _ computed => some computed
  | _ => none

/-- The order of visits: views before those below them, and the frame of a view after any other
visit that would replace it. -/
def Precedes (tree : Tree κ) : Visit κ → Visit κ → Prop
  | view x, view y => ¬ tree.InSubtree y x
  | frame x .., view y | frame x .., frame y .. => x ≠ y
  | _, _ => True

/-- Visits to nodes of which the later is not above or at the earlier are in order, whatever they
are. -/
theorem Precedes.of_apart {tree : Tree κ} {a b : Visit κ} (h : ¬ tree.InSubtree b.tag a.tag) :
    Precedes tree a b := by
  cases a <;> cases b <;> first | exact h | exact trivial | exact fun heq => h (.inl heq)

/-- A visit to a child list may come last. -/
theorem Precedes.concat_children {tree : Tree κ} {visits : List (Visit κ)}
    (h : visits.Pairwise (Precedes tree)) (tag : Tag) :
    (visits ++ [children tag]).Pairwise (Precedes tree) := by
  refine List.pairwise_append.mpr ⟨h, List.pairwise_singleton .., fun a _ b hb => ?_⟩
  rw [List.mem_singleton.mp hb]
  cases a <;> exact trivial

end Visit

namespace Tree

variable {κ : Type} [Coordinate κ] {tree : Tree κ}

/-- The visits that bring a subtree up to date, in order, with so many steps allowed on the way
down. -/
def itinerary (tree : Tree κ) :
    (steps : Nat) → (tag : Tag) → (dx dy : κ) → (above : Option Tag) → List (Visit κ)
  | 0, _, _, _, _ => []
  | steps + 1, tag, dx, dy, above =>
    match tree.get? tag with
    | none => []
    | some node =>
      if node.mounts then
        .view tag :: (above.toList.map (Visit.frame tag · (node.frame.shift dx dy)) ++
          (node.children.flatMap (tree.itinerary steps · 0 0 (some tag)) ++ [.children tag]))
      else
        node.children.flatMap
          (tree.itinerary steps · (dx + node.frame.x) (dy + node.frame.y) above)

section Shape

variable {steps : Nat} {tag : Tag} {dx dy : κ} {above : Option Tag} {node : Node κ}

/-- At a node that mounts: its view, its frame if something is above, what is below it, its
children. -/
theorem itinerary_of_mounting (hget : tree.get? tag = some node) (hmounts : node.mounts = true) :
    tree.itinerary (steps + 1) tag dx dy above =
      .view tag :: (above.toList.map (Visit.frame tag · (node.frame.shift dx dy)) ++
        ((tree.childrenOf tag).flatMap (tree.itinerary steps · 0 0 (some tag)) ++
          [.children tag])) := by
  rw [itinerary, hget, childrenOf_of_get? hget]
  exact if_pos hmounts

/-- At a node that does not mount: what is below it, with its offset added. -/
theorem itinerary_of_unmounting (hget : tree.get? tag = some node) (hmounts : node.mounts = false) :
    tree.itinerary (steps + 1) tag dx dy above = (tree.childrenOf tag).flatMap
      (tree.itinerary steps · (dx + node.frame.x) (dy + node.frame.y) above) := by
  rw [itinerary, hget, childrenOf_of_get? hget]
  exact if_neg (by rw [hmounts]; exact Bool.false_ne_true)

end Shape

/-- Creating views does not change an itinerary. -/
theorem Grown.itinerary {a b : Tree κ} (h : a.Grown b) : ∀ {steps : Nat} {tag : Tag} {dx dy : κ}
    {above : Option Tag}, b.itinerary steps tag dx dy above = a.itinerary steps tag dx dy above
  | 0, _, _, _, _ => rfl
  | steps + 1, tag, dx, dy, above => by
    -- stated for all children at once, as the recursion passes through `flatMap`
    have hbelow : ∀ c dx dy above,
        b.itinerary steps c dx dy above = a.itinerary steps c dx dy above :=
      fun c dx dy above => h.itinerary
    rw [Tree.itinerary, Tree.itinerary, h.node]
    cases a.get? tag with
    | none => rfl
    -- the flag, all that may differ of the record, is not read
    | some node => simp only [Option.map_some, hbelow]

omit [Coordinate κ] in
/-- Creating views does not change which ancestor is the first that mounts. -/
theorem Grown.firstMounting {a b : Tree κ} (h : a.Grown b) : ∀ {steps : Nat} {start : Option Tag},
    b.firstMounting steps start = a.firstMounting steps start
  | 0, none | _ + 1, none | 0, some _ => rfl
  | steps + 1, some tag => by
    rw [Tree.firstMounting, Tree.firstMounting, Tree.node, Tree.node, h.node]
    cases a.get? tag with
    | none => rfl
    | some node => exact congrArg (ite _ _) h.firstMounting

omit [Coordinate κ] in
/-- Creating views does not change native parents. -/
theorem Grown.nativeParent_eq {a b : Tree κ} (h : a.Grown b) (tag : Tag) :
    b.nativeParent tag = a.nativeParent tag := by
  rw [Tree.nativeParent, Tree.nativeParent, h.sameLinks.budget, Tree.node, Tree.node, h.node]
  cases a.get? tag with
  | none => rfl
  | some node => exact h.firstMounting

/-- Creating views does not change the sum of offsets on the way up. -/
theorem Grown.sumOffsets {a b : Tree κ} (h : a.Grown b) : ∀ {steps : Nat} {start : Option Tag}
    {total : κ × κ}, b.sumOffsets steps start total = a.sumOffsets steps start total
  | 0, none, _ | _ + 1, none, _ | 0, some _, _ => rfl
  | steps + 1, some tag, total => by
    rw [Tree.sumOffsets, Tree.sumOffsets, Tree.node, Tree.node, h.node]
    cases a.get? tag with
    | none => rfl
    | some node => exact congrArg (ite _ _) h.sumOffsets

/-- Creating views does not change positions. -/
theorem Grown.offsetInNativeParent {a b : Tree κ} (h : a.Grown b) (tag : Tag) :
    b.offsetInNativeParent tag = a.offsetInNativeParent tag := by
  rw [Tree.offsetInNativeParent, Tree.offsetInNativeParent, h.sameLinks.budget, Tree.node,
    Tree.node, h.node]
  cases a.get? tag with
  | none => rfl
  | some node => exact h.sumOffsets

/-- An itinerary stays inside the subtree, and visits nodes that mount. -/
theorem WellFormed.itinerary_inside (hwf : tree.WellFormed) : ∀ {steps : Nat} {tag : Tag}
    {dx dy : κ} {above : Option Tag} {visit : Visit κ},
      visit ∈ tree.itinerary steps tag dx dy above →
        tree.InSubtree tag visit.tag ∧ tree.mountsAt visit.tag = true
  | 0, _, _, _, _, _, h => nomatch h
  | steps + 1, tag, dx, dy, above, visit, h => by
    cases hget : tree.get? tag with
    | none =>
      rw [itinerary, hget] at h
      cases h
    | some node =>
      -- what is visited below a child lies below the node
      have hchild : ∀ {dx dy : κ} {above : Option Tag},
          visit ∈ (tree.childrenOf tag).flatMap (tree.itinerary steps · dx dy above) →
            tree.InSubtree tag visit.tag ∧ tree.mountsAt visit.tag = true := by
        intro dx dy above hmem
        obtain ⟨c, hc, hmem⟩ := List.mem_flatMap.mp hmem
        obtain ⟨hsub, hmounts⟩ := hwf.itinerary_inside hmem
        exact ⟨(InSubtree.child (hwf.link.mp hc) (.refl tag)).trans hsub, hmounts⟩
      cases hmounts : node.mounts with
      | false =>
        rw [itinerary_of_unmounting hget hmounts] at h
        exact hchild h
      | true =>
        have hself : tree.InSubtree tag tag ∧ tree.mountsAt tag = true :=
          ⟨.refl tag, (mountsAt_of_get? hget).trans hmounts⟩
        rw [itinerary_of_mounting hget hmounts, List.mem_cons, List.mem_append, List.mem_append,
          List.mem_singleton] at h
        -- the view, its frame, what is below, and the child list
        rcases h with rfl | h | h | rfl
        · exact hself
        · obtain ⟨p, -, rfl⟩ := List.mem_map.mp h
          exact hself
        · exact hchild h
        · exact hself

/-- An itinerary reaches every node of the subtree that mounts. -/
theorem WellFormed.mem_itinerary (hwf : tree.WellFormed) : ∀ {steps : Nat} {tag : Tag} {dx dy : κ}
    {above : Option Tag} {l : List Tag} {x : Tag}, tree.Lineage tag l →
      tree.size < steps + l.length → tree.InSubtree tag x → tree.mountsAt x = true →
        .view x ∈ tree.itinerary steps tag dx dy above ∧
          .children x ∈ tree.itinerary steps tag dx dy above
  | 0, _, _, _, _, _, _, hl, hsteps, _, _ => by
    -- a lineage is no longer than the tree, so the budget is not spent here
    have := hl.length_le_size hwf
    omega
  | steps + 1, tag, dx, dy, above, l, x, hl, hsteps, hx, hxmounts => by
    obtain ⟨node, hget⟩ := contains_iff.mp hl.contains
    have hmountsAt := mountsAt_of_get? hget
    -- a node strictly below is reached through the child it lies below
    have hchild : tree.Ancestor tag x → ∀ {dx dy : κ} {above : Option Tag},
        .view x ∈ (tree.childrenOf tag).flatMap (tree.itinerary steps · dx dy above) ∧
          .children x ∈ (tree.childrenOf tag).flatMap (tree.itinerary steps · dx dy above) := by
      intro hanc dx dy above
      obtain ⟨c, hc, hsub⟩ := ancestor_iff_child.mp hanc
      have hc := hwf.link.mpr hc
      obtain ⟨hview, hchildren⟩ := @mem_itinerary hwf steps c dx dy above _ x
        (hwf.lineage_child hl hc) (by rw [List.length_cons]; omega) hsub hxmounts
      exact ⟨List.mem_flatMap.mpr ⟨c, hc, hview⟩, List.mem_flatMap.mpr ⟨c, hc, hchildren⟩⟩
    cases hmounts : node.mounts with
    | false =>
      rw [itinerary_of_unmounting hget hmounts]
      -- the node itself does not mount, so it is not the one looked for
      rcases hx with rfl | hanc
      · rw [hmountsAt, hmounts] at hxmounts
        cases hxmounts
      · exact hchild hanc
    | true =>
      rw [itinerary_of_mounting hget hmounts]
      rcases hx with rfl | hanc
      · simp
      · obtain ⟨hview, hchildren⟩ := @hchild hanc 0 0 (some tag)
        exact ⟨.tail _ (List.mem_append_right _ (List.mem_append_left _ hview)),
          .tail _ (List.mem_append_right _ (List.mem_append_left _ hchildren))⟩

/-- The itineraries of nodes in disjoint subtrees, one after the other. -/
theorem WellFormed.pairwise_itineraries (hwf : tree.WellFormed) {steps : Nat} {dx dy : κ}
    {above : Option Tag} {tags : List Tag}
    (heach : ∀ c ∈ tags, (tree.itinerary steps c dx dy above).Pairwise (Visit.Precedes tree))
    (happart : tags.Pairwise fun c d => ∀ x, tree.InSubtree c x → ¬ tree.InSubtree d x) :
    (tags.flatMap (tree.itinerary steps · dx dy above)).Pairwise (Visit.Precedes tree) := by
  refine List.pairwise_flatMap.mpr ⟨heach, happart.imp fun {c d} happart a ha b hb => ?_⟩
  obtain ⟨ha, -⟩ := hwf.itinerary_inside ha
  obtain ⟨hb, -⟩ := hwf.itinerary_inside hb
  exact .of_apart fun hsub => happart _ ha (hb.trans hsub)

/-- The visits of an itinerary are in order. -/
theorem WellFormed.pairwise_itinerary (hwf : tree.WellFormed) : ∀ {steps : Nat} {tag : Tag}
    {dx dy : κ} {above : Option Tag},
      (tree.itinerary steps tag dx dy above).Pairwise (Visit.Precedes tree)
  | 0, _, _, _, _ => .nil
  | steps + 1, tag, dx, dy, above => by
    cases hget : tree.get? tag with
    | none =>
      rw [itinerary, hget]
      exact .nil
    | some node =>
      -- the itineraries of the children are in order, as siblings have disjoint subtrees
      have hbelow : ∀ {dx dy : κ} {above : Option Tag},
          ((tree.childrenOf tag).flatMap (tree.itinerary steps · dx dy above)).Pairwise
            (Visit.Precedes tree) := by
        intro dx dy above
        refine hwf.pairwise_itineraries (fun c _ => hwf.pairwise_itinerary) ?_
        refine (hwf.nodup tag).imp_of_mem fun {c d} hc hd hne x => ?_
        exact hwf.siblings_disjoint (hwf.link.mp hc) (hwf.link.mp hd) hne
      cases hmounts : node.mounts with
      | false =>
        rw [itinerary_of_unmounting hget hmounts]
        exact hbelow
      | true =>
        rw [itinerary_of_mounting hget hmounts]
        -- what is visited below lies strictly below
        have hstrict : ∀ {visit : Visit κ},
            visit ∈ (tree.childrenOf tag).flatMap (tree.itinerary steps · 0 0 (some tag)) →
              ¬ tree.InSubtree visit.tag tag := by
          intro visit hmem hsub
          obtain ⟨c, hc, hmem⟩ := List.mem_flatMap.mp hmem
          obtain ⟨hin, -⟩ := hwf.itinerary_inside hmem
          exact hwf.not_ancestor_of_inSubtree (hin.trans hsub) (.parent (hwf.link.mp hc))
        -- the child list comes last, which is always in order
        have hrest : ((tree.childrenOf tag).flatMap (tree.itinerary steps · 0 0 (some tag)) ++
            [Visit.children tag]).Pairwise (Visit.Precedes tree) :=
          Visit.Precedes.concat_children hbelow tag
        -- a visit to the node itself is in order with all that is below it and with its child list
        have hfirst : ∀ (visit : Visit κ), visit.tag = tag → ∀ later ∈
            (tree.childrenOf tag).flatMap (tree.itinerary steps · 0 0 (some tag)) ++
              [Visit.children tag], Visit.Precedes tree visit later := by
          intro visit htag later hlater
          rcases List.mem_append.mp hlater with hlater | hlater
          · exact .of_apart (htag ▸ hstrict hlater)
          · rw [List.mem_singleton.mp hlater]
            cases visit <;> exact trivial
        -- first the view, before the frame and before everything else
        refine List.pairwise_cons.mpr ⟨fun later hlater => ?_, ?_⟩
        · rcases List.mem_append.mp hlater with hlater | hlater
          · obtain ⟨p, -, rfl⟩ := List.mem_map.mp hlater
            exact trivial
          · exact hfirst _ rfl later hlater
        -- then the frame, if there is one
        · refine List.pairwise_append.mpr ⟨?_, hrest, fun a ha => ?_⟩
          · cases above <;> simp
          · obtain ⟨p, -, rfl⟩ := List.mem_map.mp ha
            exact hfirst _ rfl

end Tree

namespace Tree

variable {κ : Type} [Coordinate κ] {tree : Tree κ} {tag : Tag}

/-- The frame of a node inside its native parent. -/
def nativeFrame (tree : Tree κ) (tag : Tag) : Except UiError (Frame κ) := do
  let (dx, dy) ← tree.offsetInNativeParent tag
  return (← tree.node tag).frame.shift dx dy

/-- The visits that refresh a single view: to its frame, unless it is a root or nothing is above it,
and to its child list. -/
def viewItinerary (tree : Tree κ) (tag : Tag) : List (Visit κ) :=
  let frames := if tree.isRoot tag then []
    else match tree.nativeParent tag, tree.nativeFrame tag with
      | .ok (some parent), .ok frame => [.frame tag parent frame]
      | _, _ => []
  frames ++ [.children tag]

/-- The native frame, from the record and the offset. -/
theorem nativeFrame_of_offset {node : Node κ} {dx dy : κ} (hget : tree.get? tag = some node)
    (hoffset : tree.offsetInNativeParent tag = .ok (dx, dy)) :
    tree.nativeFrame tag = .ok (node.frame.shift dx dy) := by
  rw [nativeFrame, hoffset, ok_bind, node_of_get? hget]
  rfl

/-- Every registered node of a well-formed tree has a native frame. -/
theorem nativeFrame_ok (hwf : tree.WellFormed) (ht : tree.contains tag = true) :
    ∃ frame, tree.nativeFrame tag = .ok frame := by
  obtain ⟨node, hget⟩ := contains_iff.mp ht
  obtain ⟨⟨dx, dy⟩, hoffset⟩ := offsetInNativeParent_ok hwf ht
  exact ⟨_, nativeFrame_of_offset hget hoffset⟩

/-- The itinerary of a single view that has one above it. -/
theorem viewItinerary_of_parent {parent : Tag} {frame : Frame κ} (hwf : tree.WellFormed)
    (hparent : tree.NativeParent tag parent) (hframe : tree.nativeFrame tag = .ok frame) :
    tree.viewItinerary tag = [.frame tag parent frame, .children tag] := by
  rw [viewItinerary, hwf.not_root_of_nativeParent hparent, nativeParent_eq_some hwf hparent, hframe]
  rfl

/-- A refresh visits one node, and creates no view. -/
theorem tag_of_mem_viewItinerary {visit : Visit κ} (h : visit ∈ tree.viewItinerary tag) :
    visit.tag = tag ∧ visit.view? = none := by
  rw [viewItinerary, List.mem_append, List.mem_singleton] at h
  rcases h with h | rfl
  · split at h
    · cases h
    · split at h
      · rw [List.mem_singleton.mp h]
        exact ⟨rfl, rfl⟩
      · cases h
  · exact ⟨rfl, rfl⟩

/-- Creating views does not change native frames. -/
theorem Grown.nativeFrame {a b : Tree κ} (h : a.Grown b) (tag : Tag) :
    b.nativeFrame tag = a.nativeFrame tag := by
  rw [Tree.nativeFrame, Tree.nativeFrame, h.offsetInNativeParent, Tree.node, Tree.node, h.node]
  cases a.get? tag <;> rfl

end Tree

/-- The views on the itinerary of a subtree are those of the nodes that mount, each once and none
before one above it. -/
theorem Tree.WellFormed.views_itinerary {κ : Type} [Coordinate κ] {tree : Tree κ}
    (hwf : tree.WellFormed) {tag : Tag} (dx dy : κ) (above : Option Tag)
    (ht : tree.contains tag = true) :
    let views := (tree.itinerary tree.budget tag dx dy above).filterMap Visit.view?
    (∀ x, x ∈ views ↔ tree.InSubtree tag x ∧ tree.mountsAt x = true) ∧
      views.Pairwise fun x y => ¬ tree.InSubtree y x := by
  refine ⟨fun x => ⟨fun hx => ?_, fun ⟨hsub, hmounts⟩ => ?_⟩, ?_⟩
  -- a visit to a view is a visit inside the subtree, to a node that mounts
  · obtain ⟨visit, hvisit, hview⟩ := List.mem_filterMap.mp hx
    cases visit with
    | view tag =>
      cases hview
      exact hwf.itinerary_inside hvisit
    | frame | children => cases hview
  -- the budget suffices to reach every node, whatever its depth
  · obtain ⟨l, hl⟩ := hwf.exists_lineage ht
    have hpos := hl.length_pos
    obtain ⟨hview, -⟩ := @WellFormed.mem_itinerary _ _ _ hwf tree.budget tag dx dy above l x hl
      (by rw [budget]; omega) hsub hmounts
    exact List.mem_filterMap.mpr ⟨_, hview, rfl⟩
  -- of the order of visits, the clause for two views is the one needed
  · refine hwf.pairwise_itinerary.filterMap _ fun a b hab x hx y hy => ?_
    cases a <;> cases hx
    cases b <;> cases hy
    exact hab

/-! ## Journeys

A visit creates a view, sends a frame or sends a child list. What it does depends on what was sent
before, and there is one such outcome for every scene; a journey makes visits one after the other.
-/

namespace MountState

variable {κ : Type}

/-- Remembering what is remembered changes nothing. -/
theorem remember_sent {state : MountState κ} {tag : Tag} (h : tag ∈ state.sentStates) :
    state.remember tag (state.sent tag) = state := by
  have hsame : state.sentStates.insert tag (state.sent tag) = state.sentStates := by
    -- inserting the value found under a key, at that key and at any other
    refine Std.ExtTreeMap.ext_getElem? fun other => ?_
    rw [Std.ExtTreeMap.getElem?_insert]
    split
    · next heq =>
      obtain rfl := Std.LawfulEqCmp.eq_of_compare heq
      obtain ⟨sent, hsent⟩ :=
        Option.isSome_iff_exists.mp (Std.ExtTreeMap.mem_iff_isSome_getElem?.mp h)
      -- at that key: it is present, so what `sent` finds is the stored value and no default
      rw [MountState.sent, hsent]
      rfl
    · rfl
  rw [remember, hsame]

end MountState

namespace Mount

open MountM

variable {κ : Type} [Coordinate κ] {scene mid done : Scene κ} {visit : Visit κ}
  {visits rest : List (Visit κ)}

/-- What a visit makes of a scene. -/
inductive Visits : Visit κ → Scene κ → Scene κ → Prop
  /-- The view exists. -/
  | kept {scene : Scene κ} {tag : Tag} (h : scene.tree.createdAt tag = true) :
      Visits (.view tag) scene scene
  /-- The view is created. -/
  | created {scene : Scene κ} {tag : Tag} {node : Node κ} (hget : scene.tree.get? tag = some node)
      (hcreated : node.created = false) : Visits (.view tag) scene (withView scene tag node)
  /-- The frame is sent, unless it is the one last sent. -/
  | frame {scene : Scene κ} (tag parent : Tag) (frame : Frame κ) :
      Visits (.frame tag parent frame) scene
        { scene with mount := scene.mount.frameSent tag parent frame }
  /-- The child list is sent, unless it is the one last sent. -/
  | children {scene : Scene κ} {tag : Tag} {children : List Tag}
      (h : scene.tree.nativeChildren tag = .ok children) :
      Visits (.children tag) scene { scene with mount := scene.mount.childrenSent tag children }

/-- Visits, one after the other. -/
inductive Journey : List (Visit κ) → Scene κ → Scene κ → Prop
  | nil (scene : Scene κ) : Journey [] scene scene
  | cons {visit : Visit κ} {rest : List (Visit κ)} {scene mid done : Scene κ}
      (h : Visits visit scene mid) (hrest : Journey rest mid done) :
      Journey (visit :: rest) scene done

/-- Journeys compose. -/
theorem Journey.append (h : Journey visits scene mid) (hrest : Journey rest mid done) :
    Journey (visits ++ rest) scene done := by
  induction h with
  | nil => exact hrest
  | cons hvisit _ ih => exact .cons hvisit (ih hrest)

/-- A visit is a journey of its own. -/
theorem Journey.single (h : Visits visit scene done) : Journey [visit] scene done :=
  .cons h (.nil done)

/-- A visit to a node that mounts at most creates a view. -/
theorem Visits.grown (h : Visits visit scene done)
    (hmounts : scene.tree.mountsAt visit.tag = true) : scene.tree.Grown done.tree := by
  cases h with
  | kept => exact .refl _
  | created hget => exact Tree.grown_store hget ((Tree.mountsAt_of_get? hget).symm.trans hmounts)
  | frame => exact .refl _
  | children => exact .refl _

/-- A journey to nodes that mount creates views, and does nothing else to the tree. -/
theorem Journey.grown (h : Journey visits scene done)
    (hmounts : ∀ visit ∈ visits, scene.tree.mountsAt visit.tag = true) :
    scene.tree.Grown done.tree := by
  induction h with
  | nil => exact .refl _
  | cons hvisit _ ih =>
    have hgrown := hvisit.grown (hmounts _ (List.mem_cons_self ..))
    -- the later nodes mount in the tree the first visit leaves, too
    refine hgrown.trans (ih fun later hlater => ?_)
    exact (hgrown.mountsAt _).trans (hmounts later (List.mem_cons_of_mem _ hlater))

/-! ## Reconciliation is a journey

By induction on the budget, which on a sound tree is not spent. A node that does not mount hands its
position on to its children; one that mounts is visited, and its children start anew from its own
position. -/

/-- Making sure of a view is the visit to it. -/
theorem materialize_visits {tag : Tag} {found : Node κ} (hget : scene.tree.get? tag = some found) :
    ∃ mid, materialize tag scene = .ok () mid ∧ Visits (.view tag) scene mid := by
  cases hcreated : found.created with
  | true =>
    exact ⟨scene, materialize_of_created hget hcreated,
      .kept ((Tree.createdAt_of_get? hget).trans hcreated)⟩
  | false => exact ⟨_, materialize_of_uncreated hget hcreated, .created hget hcreated⟩

/-- Reconciling with so many steps allowed is the journey along the itinerary. -/
def Travels (κ : Type) [Coordinate κ] (steps : Nat) : Prop :=
  ∀ (tag : Tag) (dx dy : κ) (above : Option Tag) {scene : Scene κ} {l : List Tag},
    scene.tree.WellFormed → scene.tree.Lineage tag l → scene.tree.size < steps + l.length →
      ∃ done, reconcile steps tag dx dy above scene = .ok () done ∧
        Journey (scene.tree.itinerary steps tag dx dy above) scene done

/-- The loop over siblings: their itineraries, one after the other. -/
theorem Travels.forM {steps : Nat} (h : Travels κ steps) (dx dy : κ) (above : Option Tag)
    {l : List Tag} : ∀ {cs : List Tag} {scene : Scene κ}, scene.tree.WellFormed →
      (∀ c ∈ cs, scene.tree.Lineage c (c :: l)) → scene.tree.size < steps + (l.length + 1) →
        ∃ done, cs.forM (fun child => reconcile steps child dx dy above) scene = .ok () done ∧
          Journey (cs.flatMap (scene.tree.itinerary steps · dx dy above)) scene done
  | [], scene, _, _, _ => ⟨scene, rfl, .nil scene⟩
  | c :: cs, scene, hwf, hlineage, hsize => by
    obtain ⟨mid, hfirst, hjourney⟩ :=
      h c dx dy above hwf (hlineage c (List.mem_cons_self ..)) hsize
    -- the first sibling's journey only creates views, so the others' itineraries are as before
    have hgrown := hjourney.grown fun visit hvisit => (hwf.itinerary_inside hvisit).2
    obtain ⟨done, hrest, hjourney'⟩ := h.forM dx dy above (hgrown.sameLinks.wellFormed hwf)
      (fun x hx => hgrown.sameLinks.lineage (hlineage x (List.mem_cons_of_mem _ hx)))
      (by rw [hgrown.sameLinks.size]; exact hsize)
    refine ⟨done, ?_, ?_⟩
    · show (reconcile steps c dx dy above >>= fun _ => cs.forM _) scene = _
      rw [bind_of_ok hfirst]
      exact hrest
    -- the rest travels in the new tree, along the itineraries of the old one
    · rw [List.flatMap_cons]
      simp only [hgrown.itinerary] at hjourney'
      exact hjourney.append hjourney'

/-- What is below a node that mounts, and then its child list. -/
theorem Travels.mounting {steps : Nat} (h : Travels κ steps) {tag : Tag} {scene : Scene κ}
    {l : List Tag} (hwf : scene.tree.WellFormed) (hl : scene.tree.Lineage tag l)
    (hsize : scene.tree.size < steps + (l.length + 1)) :
    ∃ done, (do
        (scene.tree.childrenOf tag).forM fun child => reconcile steps child 0 0 (some tag)
        sendChildren tag : MountM κ Unit) scene = .ok () done ∧
      Journey ((scene.tree.childrenOf tag).flatMap (scene.tree.itinerary steps · 0 0 (some tag)) ++
        [.children tag]) scene done := by
  obtain ⟨mid, hloop, hjourney⟩ := h.forM 0 0 (some tag) hwf
    (fun c hc => hwf.lineage_child hl hc) hsize
  -- the journey below only creates views
  have hgrown := hjourney.grown fun visit hvisit => by
    obtain ⟨c, -, hvisit⟩ := List.mem_flatMap.mp hvisit
    exact (hwf.itinerary_inside hvisit).2
  have hlinks := hgrown.sameLinks
  -- so the children of the view can be listed when it is done
  obtain ⟨children, hchildren, -⟩ := Tree.nativeChildren_spec (hlinks.wellFormed hwf)
    ((hlinks.contains tag).trans hl.contains)
  refine ⟨_, ?_, hjourney.append (.single (.children hchildren))⟩
  rw [bind_of_ok hloop]
  exact sendChildren_of_ok hchildren

/-- Reconciling is the journey along the itinerary. The induction is on the budget; the lineage
shows that it is never spent. -/
theorem reconcile_travels : ∀ steps, Travels κ steps
  | 0, tag, _, _, _, scene, l, hwf, hl, hsteps => by
    have := hl.length_le_size hwf
    omega
  | steps + 1, tag, dx, dy, above, scene, l, hwf, hl, hsteps => by
    have ih : Travels κ steps := reconcile_travels steps
    obtain ⟨found, hget⟩ := Tree.contains_iff.mp hl.contains
    unfold reconcile
    rw [bind_of_ok (node_of_get? hget), ← Tree.childrenOf_of_get? hget]
    cases hmounts : found.mounts with
    | true =>
      -- the first stop is the view
      obtain ⟨made, hmake, hvisit⟩ := materialize_visits hget
      have hgrown := hvisit.grown ((Tree.mountsAt_of_get? hget).trans hmounts)
      have hlinks := hgrown.sameLinks
      have hwf' := hlinks.wellFormed hwf
      have hsize : made.tree.size < steps + (l.length + 1) := by
        rw [hlinks.size]
        omega
      -- both recursions read the old tree's itinerary, which the new view does not change
      rw [if_pos rfl, bind_of_ok hmake, Tree.itinerary_of_mounting hget hmounts,
        ← hlinks.children]
      simp only [← hgrown.itinerary]
      cases above with
      -- a root has no frame to visit
      | none =>
        obtain ⟨done, hrest, hjourney⟩ := ih.mounting hwf' (hlinks.lineage hl) hsize
        exact ⟨done, hrest, .cons hvisit hjourney⟩
      -- else the frame is the second stop
      | some parent =>
        obtain ⟨done, hrest, hjourney⟩ := @Travels.mounting _ _ _ ih tag
          { made with mount := made.mount.frameSent tag parent (found.frame.shift dx dy) } l hwf'
          (hlinks.lineage hl) hsize
        exact ⟨done, hrest, .cons hvisit (.cons (.frame ..) hjourney)⟩
    -- nothing is done at a node that does not mount, and its children travel with a larger offset
    | false =>
      rw [if_neg Bool.false_ne_true, Tree.itinerary_of_unmounting hget hmounts]
      exact ih.forM _ _ above hwf (fun c hc => hwf.lineage_child hl hc) (by omega)

/-- Bringing a subtree up to date is the journey along its itinerary. -/
theorem reconcileSubtree_journey (hwf : scene.tree.WellFormed) {tag : Tag} (dx dy : κ)
    (above : Option Tag) (ht : scene.tree.contains tag = true) :
    ∃ done, reconcileSubtree tag dx dy above scene = .ok () done ∧
      Journey (scene.tree.itinerary scene.tree.budget tag dx dy above) scene done := by
  obtain ⟨l, hl⟩ := hwf.exists_lineage ht
  refine reconcile_travels _ tag dx dy above hwf hl ?_
  have := hl.length_pos
  rw [Tree.budget]
  omega

/-- Bringing the subtree of a node below a view up to date: the same journey, and then a visit to
the children of the view above. -/
theorem reconcileBelow_journey (hwf : scene.tree.WellFormed) {tag parent : Tag} {dx dy : κ}
    (hparent : scene.tree.NativeParent tag parent)
    (hoffset : scene.tree.offsetInNativeParent tag = .ok (dx, dy)) :
    ∃ done, reconcileBelow tag parent scene = .ok () done ∧
      Journey (scene.tree.itinerary scene.tree.budget tag dx dy (some parent) ++
        [.children parent]) scene done := by
  obtain ⟨mid, hreconcile, hjourney⟩ :=
    reconcileSubtree_journey hwf dx dy (some parent) hparent.ancestor.contains
  -- the children of the view above can be listed in the tree the journey leaves
  have hlinks := (hjourney.grown fun visit hvisit => (hwf.itinerary_inside hvisit).2).sameLinks
  obtain ⟨children, hchildren, -⟩ := Tree.nativeChildren_spec (hlinks.wellFormed hwf)
    ((hlinks.contains parent).trans (hwf.contains_ancestor hparent.ancestor))
  refine ⟨_, ?_, hjourney.append (.single (.children hchildren))⟩
  rw [reconcileBelow, bind_of_ok (query_of_ok hoffset)]
  show (reconcileSubtree tag dx dy (some parent) >>= fun _ => sendChildren parent) scene = _
  rw [bind_of_ok hreconcile]
  exact sendChildren_of_ok hchildren

/-- Refreshing an existing view is a journey to its frame and its child list. -/
theorem refreshView_journey (hwf : scene.tree.WellFormed) {tag : Tag}
    (ht : scene.tree.contains tag = true) : ∃ done, refreshView tag scene = .ok () done ∧
      Journey (scene.tree.viewItinerary tag) scene done := by
  obtain ⟨children, hchildren, -⟩ := Tree.nativeChildren_spec hwf ht
  unfold refreshView Tree.viewItinerary
  rw [get_bind]
  cases hroot : scene.tree.isRoot tag with
  -- a root: only its children
  | true => exact ⟨_, sendChildren_of_ok hchildren, .single (.children hchildren)⟩
  | false =>
    rcases Tree.nativeParent_cases hwf ht with ⟨p, hquery, hp⟩ | ⟨hquery, -⟩
    -- below another view: the frame, from the position in the tree as it is, and then the children
    · obtain ⟨found, hget⟩ := Tree.contains_iff.mp ht
      obtain ⟨⟨dx, dy⟩, hoffset⟩ := Tree.offsetInNativeParent_ok hwf ht
      rw [hquery, Tree.nativeFrame_of_offset hget hoffset]
      refine ⟨_, ?_, .cons (.frame tag p (found.frame.shift dx dy)) (.single (.children hchildren))⟩
      show (query (·.nativeParent tag) >>= _ : MountM κ Unit) scene = _
      rw [bind_of_ok (query_of_ok hquery)]
      show (query (·.offsetInNativeParent tag) >>= _ : MountM κ Unit) scene = _
      rw [bind_of_ok (query_of_ok hoffset)]
      show (node tag >>= _ : MountM κ Unit) scene = _
      rw [bind_of_ok (node_of_get? hget), bind_of_ok (sendFrame_apply ..)]
      exact sendChildren_of_ok hchildren
    -- below no view: only its children
    · rw [hquery]
      refine ⟨_, ?_, .single (.children hchildren)⟩
      show (query (·.nativeParent tag) >>= _ : MountM κ Unit) scene = _
      rw [bind_of_ok (query_of_ok hquery)]
      exact sendChildren_of_ok hchildren

/-! ## What a journey does

Facts about single visits, added up along the list: the views that are created, the operations that
are enqueued, and what stays as it was. -/

/-- After a visit there is one view more at most: the one visited. -/
theorem Visits.createdAt_iff (h : Visits visit scene done) (x : Tag) :
    done.tree.createdAt x = true ↔ scene.tree.createdAt x = true ∨ visit.view? = some x := by
  cases h with
  -- the visited view was there
  | kept hview =>
    refine ⟨.inl, ?_⟩
    rintro (h | h)
    · exact h
    · cases h
      exact hview
  -- the visited view is new
  | @created _ tag node hget hcreated =>
    show (scene.tree.store tag { node with created := true }).createdAt x = true ↔ _
    rw [Tree.createdAt_store, Visit.view?, Option.some.injEq]
    split
    · next heq => exact ⟨fun _ => .inr heq, fun _ => rfl⟩
    · next hne => exact ⟨.inl, fun h => h.resolve_right hne⟩
  | frame => simp [Visit.view?]
  | children => simp [Visit.view?]

/-- The views that exist after a journey are those that were there and those visited. -/
theorem Journey.createdAt_iff (h : Journey visits scene done) (x : Tag) :
    done.tree.createdAt x = true ↔
      scene.tree.createdAt x = true ∨ x ∈ visits.filterMap Visit.view? := by
  induction h with
  | nil => simp
  | @cons visit rest _ _ _ hvisit _ ih =>
    -- first the visited view, then those of the rest
    rw [ih, hvisit.createdAt_iff, or_assoc, List.mem_filterMap, List.mem_filterMap]
    simp

/-- A journey without visits to views leaves the tree as it is. -/
theorem Journey.tree_eq (h : Journey visits scene done)
    (hviews : ∀ visit ∈ visits, visit.view? = none) : done.tree = scene.tree := by
  induction h with
  | nil => rfl
  | cons hvisit _ ih =>
    obtain ⟨hfirst, hrest⟩ := List.forall_mem_cons.mp hviews
    rw [ih hrest]
    -- of the visits that create no view, none touches the tree
    cases hvisit <;> first | rfl | cases hfirst

/-- What a visit enqueues: at most one operation, which creates the view unless it exists, or is the
frame that the visit is about. -/
theorem Visits.posts (h : Visits visit scene done) : ∃ operations,
    done.mount.queue = scene.mount.queue ++ operations ∧ operations.length ≤ 1 ∧
    operations.filterMap Operation.created? =
      visit.view?.toList.filter (scene.tree.createdAt · = false) ∧
    ∀ x parent frame, .setFrame x parent frame ∈ operations → visit = .frame x parent frame := by
  cases h with
  -- a view that exists enqueues nothing
  | kept hview => exact ⟨[], by simp, by simp, by simp [Visit.view?, hview], nofun⟩
  -- one create, of a node that had no view
  | created hget hcreated =>
    refine ⟨_, rfl, Nat.le_refl 1, ?_, ?_⟩
    · simp [Visit.view?, Operation.created?, Tree.createdAt_of_get? hget, hcreated]
    · simp
  | frame tag parent frame =>
    dsimp only
    unfold MountState.frameSent
    split
    -- the frame is the one last sent
    · exact ⟨[], by simp, by simp, rfl, nofun⟩
    -- the one operation is about the frame visited
    · refine ⟨_, rfl, Nat.le_refl 1, rfl, fun x parent frame hmem => ?_⟩
      cases List.mem_singleton.mp hmem
      rfl
  -- child lists are neither creates nor frames
  | children =>
    dsimp only
    unfold MountState.childrenSent
    split
    · exact ⟨[], (List.append_nil _).symm, by simp, rfl, nofun⟩
    · exact ⟨_, rfl, Nat.le_refl 1, rfl, by simp⟩

/-- A journey enqueues the creates of the visited views that did not exist, in the order of the
visits. -/
theorem Journey.creates (h : Journey visits scene done)
    (hnodup : (visits.filterMap Visit.view?).Nodup) : ∃ operations,
      done.mount.queue = scene.mount.queue ++ operations ∧ operations.filterMap Operation.created? =
        (visits.filterMap Visit.view?).filter (scene.tree.createdAt · = false) := by
  induction h with
  | nil => exact ⟨[], by simp, rfl⟩
  | @cons visit rest scene mid _ hvisit _ ih =>
    -- the views visited are that of the first visit, if it is to a view, and those of the rest
    have hsplit : (visit :: rest).filterMap Visit.view? =
        visit.view?.toList ++ rest.filterMap Visit.view? := by
      rw [List.filterMap_cons]
      cases visit.view? <;> rfl
    rw [hsplit, List.nodup_append] at hnodup
    obtain ⟨first, hfirst, -, hfirstMade, -⟩ := hvisit.posts
    obtain ⟨later, hlater, hlaterMade⟩ := ih hnodup.2.1
    refine ⟨first ++ later, by rw [hlater, hfirst, List.append_assoc], ?_⟩
    rw [List.filterMap_append, hfirstMade, hlaterMade, hsplit, List.filter_append]
    -- no view is visited twice, so the first visit does not change what the later ones create
    refine congrArg _ (List.filter_congr fun x hx => decide_eq_decide.mpr ?_)
    have hsame : mid.tree.createdAt x = true ↔ scene.tree.createdAt x = true := by
      rw [hvisit.createdAt_iff]
      refine or_iff_left fun hview => ?_
      exact hnodup.2.2 x (by rw [hview]; exact List.mem_singleton_self x) x hx rfl
    rw [Bool.eq_false_iff, Bool.eq_false_iff, ne_eq, ne_eq, hsame]

/-- No visit touches the fixtures or the log. -/
theorem Visits.kept_rest (h : Visits visit scene done) :
    done.mount.fixtures = scene.mount.fixtures ∧ done.log = scene.log := by
  cases h with
  | kept => exact ⟨rfl, rfl⟩
  | created => exact ⟨rfl, rfl⟩
  | frame => exact ⟨MountState.fixtures_frameSent .., rfl⟩
  | children => exact ⟨MountState.fixtures_childrenSent .., rfl⟩

/-- Nor does a journey. -/
theorem Journey.kept_rest (h : Journey visits scene done) :
    done.mount.fixtures = scene.mount.fixtures ∧ done.log = scene.log := by
  induction h with
  | nil => exact ⟨rfl, rfl⟩
  | cons hvisit _ ih =>
    exact ⟨ih.1.trans hvisit.kept_rest.1, ih.2.trans hvisit.kept_rest.2⟩

/-! ## What is sent last

What is remembered for a view after a journey is decided by the last visit that concerns the view.
On an itinerary there is one frame and one child list for each view, so the last visit is the only
one. -/

/-- The frame last sent for a view is changed by visits to the view or its frame alone. -/
theorem Visits.sent_frame (h : Visits visit scene done) {x : Tag} (hview : visit.view? ≠ some x)
    (hframe : ∀ parent frame, visit ≠ .frame x parent frame) :
    (done.mount.sent x).frame = (scene.mount.sent x).frame := by
  cases h with
  | kept => rfl
  | created =>
    show ((scene.mount.createSent _ _).sent x).frame = _
    -- another view was created
    rw [MountState.sent_createSent, if_neg fun heq => hview (congrArg some heq)]
  | frame tag parent frame =>
    -- another frame was sent
    have hne : tag ≠ x := fun heq => hframe parent frame (heq ▸ rfl)
    dsimp only
    unfold MountState.frameSent
    split
    · rfl
    · show ((scene.mount.remember tag _).sent x).frame = _
      rw [MountState.sent_remember, if_neg hne]
  | children => exact MountState.sent_childrenSent_frame ..

/-- After the visit to a frame that equals itself, it is the one last sent. -/
theorem Visits.frame_sent {x parent : Tag} {frame : Frame κ}
    (h : Visits (.frame x parent frame) scene done) (hsame : frame.same frame = true) :
    (done.mount.sent x).frame.any (·.same frame) = true := by
  cases h
  dsimp only
  unfold MountState.frameSent
  split
  -- it was so before, and nothing is written
  · next hsent => exact hsent
  -- it is written
  · show ((scene.mount.remember x _).sent x).frame.any _ = true
    rw [MountState.sent_remember, if_pos rfl]
    exact hsame

/-- Visits that may come after a frame leave it as it was last sent. -/
theorem Journey.sent_frame_kept {tree : Tree κ} {x parent : Tag} {frame : Frame κ}
    (h : Journey visits scene done)
    (hlater : ∀ later ∈ visits, Visit.Precedes tree (.frame x parent frame) later) :
    (done.mount.sent x).frame = (scene.mount.sent x).frame := by
  induction h with
  | nil => rfl
  | @cons visit _ _ _ _ hvisit _ ih =>
    rw [ih fun later hmem => hlater later (List.mem_cons_of_mem _ hmem)]
    -- the first of the later visits is neither to the view nor to its frame
    have hfirst := hlater visit (List.mem_cons_self ..)
    refine hvisit.sent_frame ?_ ?_
    · intro hview
      cases visit with
      | view y => exact hfirst (Option.some.inj hview).symm
      | frame | children => cases hview
    · rintro parent frame rfl
      exact hfirst rfl

/-- A frame that equals itself is the one last sent, once its visit was made. -/
theorem Journey.frame_sent {tree : Tree κ} (h : Journey visits scene done)
    (horder : visits.Pairwise (Visit.Precedes tree)) {x parent : Tag} {frame : Frame κ}
    (hmem : .frame x parent frame ∈ visits) (hsame : frame.same frame = true) :
    (done.mount.sent x).frame.any (·.same frame) = true := by
  induction h with
  | nil => cases hmem
  | cons hvisit hrest ih =>
    obtain ⟨hfirst, horder⟩ := List.pairwise_cons.mp horder
    rcases List.mem_cons.mp hmem with rfl | hmem
    -- the visit in question: what comes later keeps the frame
    · rw [hrest.sent_frame_kept hfirst]
      exact hvisit.frame_sent hsame
    · exact ih horder hmem

/-- The memory of a view stays, and a visit to its child list makes one. -/
theorem Visits.knows (h : Visits visit scene done) {x : Tag}
    (hx : x ∈ scene.mount.sentStates ∨ visit = .children x) : x ∈ done.mount.sentStates := by
  -- remembering adds a key and removes none
  have hremember : ∀ {tag : Tag} {sent : SentState κ}, x ∈ scene.mount.sentStates ∨ tag = x →
      x ∈ (scene.mount.remember tag sent).sentStates := by
    intro tag sent hx
    refine Std.ExtTreeMap.mem_insert.mpr (hx.symm.imp_left fun heq => ?_)
    exact heq ▸ Std.ReflCmp.compare_self
  cases h with
  | kept => exact hx.resolve_right nofun
  | created => exact hremember (hx.imp_right nofun)
  | frame tag parent frame =>
    dsimp only
    unfold MountState.frameSent
    split
    · exact hx.resolve_right nofun
    · exact hremember (hx.imp_right nofun)
  | children =>
    have hx := hx.imp_right Visit.children.inj
    dsimp only
    unfold MountState.childrenSent
    split <;> exact hremember hx

/-- What was sent for a view is known once its child list was visited. -/
theorem Journey.knows (h : Journey visits scene done) {x : Tag}
    (hx : x ∈ scene.mount.sentStates ∨ .children x ∈ visits) : x ∈ done.mount.sentStates := by
  induction h with
  | nil => exact hx.resolve_right nofun
  | cons hvisit _ ih =>
    rw [List.mem_cons, ← or_assoc] at hx
    refine ih (hx.imp_left fun hx => hvisit.knows (hx.imp_right Eq.symm))

/-! ## Journeys that change nothing

A visit changes nothing if its view is there and it would send what was sent last. After a journey
all its visits are of this kind, unless a frame differs from itself. -/

/-- A visit finds everything as it should be. -/
def Current (scene : Scene κ) : Visit κ → Prop
  | .view tag => scene.tree.createdAt tag = true
  | .frame tag _ frame => (scene.mount.sent tag).frame.any (·.same frame) = true
  | .children tag => tag ∈ scene.mount.sentStates ∧
      scene.tree.nativeChildren tag = .ok (scene.mount.sent tag).children

/-- A visit that finds everything as it should be changes nothing. -/
theorem Visits.eq_of_current (h : Visits visit scene done) (hcurrent : Current scene visit) :
    done = scene := by
  cases h with
  | kept => rfl
  -- a view that exists is not created
  | created hget hcreated =>
    rw [Current, Tree.createdAt_of_get? hget, hcreated] at hcurrent
    cases hcurrent
  | frame tag parent frame =>
    rw [Current] at hcurrent
    rw [MountState.frameSent, if_pos hcurrent]
  -- the list in the memory is the one that would be sent, and there is a memory to find it in
  | children hchildren =>
    obtain ⟨hknown, hsent⟩ := hcurrent
    rw [hchildren] at hsent
    rw [MountState.childrenSent, if_pos (Except.ok.inj hsent).symm, MountState.remember_sent hknown]

/-- A journey on which everything is as it should be changes nothing. -/
theorem Journey.eq_of_current (h : Journey visits scene done)
    (hcurrent : ∀ visit ∈ visits, Current scene visit) : done = scene := by
  induction h with
  | nil => rfl
  -- the first visit changes nothing, so the later ones are current where they are made
  | cons hvisit _ ih =>
    obtain rfl := hvisit.eq_of_current (hcurrent _ (List.mem_cons_self ..))
    exact ih fun later hlater => hcurrent later (List.mem_cons_of_mem _ hlater)

/-- After a journey everything visited is as it should be, if the frames equal themselves and the
child lists were settled. -/
theorem Journey.current {tree : Tree κ} (h : Journey visits scene done)
    (horder : visits.Pairwise (Visit.Precedes tree))
    (hsame : ∀ frame ∈ visits.filterMap Visit.frame?, frame.same frame = true)
    (hchildren : ∀ tag, .children tag ∈ visits →
      done.tree.nativeChildren tag = .ok (done.mount.sent tag).children) :
    ∀ visit ∈ visits, Current done visit := by
  -- one kind of visit at a time
  rintro (tag | ⟨tag, parent, frame⟩ | tag) hmem
  · exact (h.createdAt_iff tag).mpr (.inr (List.mem_filterMap.mpr ⟨_, hmem, rfl⟩))
  · exact h.frame_sent horder hmem (hsame frame (List.mem_filterMap.mpr ⟨_, hmem, rfl⟩))
  · exact ⟨h.knows (.inr hmem), hchildren tag hmem⟩

end Mount

end ShadowMount
