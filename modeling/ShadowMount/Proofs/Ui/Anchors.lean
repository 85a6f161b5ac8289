import ShadowMount.Proofs.Ui.Transactions

/-!
# Anchored views

Views hang from roots: the node of a view is attached, and every node above it that mounts has a
view too. So a view always has its native parent, and where a node is promoted below a node without
a view, there is no view yet that could lose its place.

* **`Tree.Anchored`** — the invariant.
* **`Effect.anchored`** — no command breaks it.
-/

namespace ShadowMount

namespace Tree

variable {κ : Type} {tree after : Tree κ}

/-! ## Single nodes -/

/-- A change of the frame or the properties of a node changes no flag. -/
theorem flags_update {t : Tag} {node : Node κ} (hget : tree.get? t = some node) (frame : Frame κ)
    (props : Props) (x : Tag) :
    (tree.store t { node with frame, props }).createdAt x = tree.createdAt x ∧
      (tree.store t { node with frame, props }).mountsAt x = tree.mountsAt x := by
  rw [createdAt_store, mountsAt_store]
  by_cases heq : t = x
  · rw [if_pos heq, if_pos heq, ← heq, createdAt_of_get? hget, mountsAt_of_get? hget]
    exact ⟨rfl, rfl⟩
  · rw [if_neg heq, if_neg heq]
    exact ⟨rfl, rfl⟩

/-- Native parents are found as before when parents are and the registered nodes mount as before. -/
theorem NativeParent.transport (hwf : tree.WellFormed) {c p : Tag} (h : tree.NativeParent c p)
    (hparent : ∀ x, after.parentOf? x = tree.parentOf? x)
    (hmounts : ∀ x, tree.contains x = true → after.mountsAt x = tree.mountsAt x) :
    after.NativeParent c p := by
  refine ⟨h.1.transport (fun x _ => hparent x) fun x hx _ hnot => ?_, ?_⟩
  · rw [hmounts x (hwf.contains_ancestor hx), hnot]
  · rw [hmounts p (hwf.contains_ancestor h.ancestor), h.2]

/-- What a new node without links makes of a tree. -/
structure Registered (tree : Tree κ) (tag : Tag) (after : Tree κ) : Prop where
  /-- The tag was not in use. -/
  free : tree.contains tag = false
  /-- The tag is registered now, and nothing else changes there. -/
  contains : ∀ t, after.contains t = (decide (tag = t) || tree.contains t)
  /-- No node has another parent. -/
  parent : ∀ t, after.parentOf? t = tree.parentOf? t
  /-- The other nodes keep their views. -/
  created : ∀ {t}, tag ≠ t → after.createdAt t = tree.createdAt t
  /-- The other nodes mount as before. -/
  mounts : ∀ {t}, tag ≠ t → after.mountsAt t = tree.mountsAt t

/-- A node without links is registered. It has no parent before, as the tag was not in use. -/
theorem registered_store {node : Node κ} (hfresh : node.IsFresh)
    (hfree : tree.contains node.tag = false) :
    tree.Registered node.tag (tree.store node.tag node) where
  free := hfree
  contains := fun t => contains_store ..
  parent := fun t => by
    rw [parentOf?_store]
    split
    · next heq => rw [← heq, hfresh.parentless, parentOf?, get?_of_free hfree, Option.bind_none]
    · rfl
  created := fun hne => (createdAt_store ..).trans (if_neg hne)
  mounts := fun hne => (mountsAt_store ..).trans (if_neg hne)

/-- A root is registered. -/
theorem registered_withRootNode [Coordinate κ] {tag : Tag} {viewClass : String} {width height : κ}
    (hfree : tree.contains tag = false) :
    tree.Registered tag (tree.withRootNode tag viewClass width height) := by
  -- a new root differs from another new node in the list of roots alone
  have h := registered_store (rootNode_isFresh tag viewClass width height) hfree
  exact ⟨h.free, h.contains, h.parent, h.created, h.mounts⟩

namespace Registered

variable {tag : Tag}

/-- A registered node is not the new one. -/
theorem ne_of_contains (h : tree.Registered tag after) {t : Tag} (ht : tree.contains t = true) :
    tag ≠ t := by
  rintro rfl
  rw [h.free] at ht
  cases ht

/-- No view is lost. -/
theorem createdAt_mono (h : tree.Registered tag after) {t : Tag} (ht : tree.createdAt t = true) :
    after.createdAt t = true :=
  (h.created (h.ne_of_contains (contains_of_createdAt ht))).trans ht

/-- Ancestors stay ancestors. -/
theorem ancestor (h : tree.Registered tag after) {a c : Tag} (ha : tree.Ancestor a c) :
    after.Ancestor a c :=
  ha.transport fun x _ => h.parent x

/-- Native parents stay native parents: the new node is above nothing. -/
theorem nativeParent (h : tree.Registered tag after) (hwf : tree.WellFormed) {c p : Tag}
    (hp : tree.NativeParent c p) : after.NativeParent c p :=
  hp.transport hwf h.parent fun _ hx => h.mounts (h.ne_of_contains hx)

end Registered

/-! ## Anchors

The invariant and the four ways in which a tree changes: nodes are changed without a change of
views, a node gets its view, a node is registered, subtrees are cut off. -/

/-- Every view belongs to an attached node, and the nodes above it that mount have views. -/
structure Anchored (tree : Tree κ) : Prop where
  /-- A view hangs from a root. -/
  attached : ∀ {t}, tree.createdAt t = true → tree.Attached t
  /-- The mounting nodes above a view have views. -/
  above : ∀ {a c}, tree.createdAt c = true → tree.Ancestor a c → tree.mountsAt a = true →
    tree.createdAt a = true

/-- The roots and what is below them depend on links alone. -/
theorem SameLinks.attached (h : tree.SameLinks after) {t : Tag} (ht : tree.Attached t) :
    after.Attached t := by
  obtain ⟨r, hr, hsub⟩ := ht
  exact ⟨r, by rwa [h.roots], h.inSubtree_iff.mpr hsub⟩

namespace Anchored

/-- An empty tree has no views. -/
theorem empty : (Tree.empty : Tree κ).Anchored :=
  ⟨fun {t} h => by simp [createdAt, get?, Tree.empty] at h,
    fun {a c} h => by simp [createdAt, get?, Tree.empty] at h⟩

/-- The native parent of a view exists. -/
theorem nativeParent (h : tree.Anchored) {c p : Tag} (hc : tree.createdAt c = true)
    (hp : tree.NativeParent c p) : tree.createdAt p = true :=
  h.above hc hp.ancestor hp.2

/-- There is no view below a node whose native parent is without one. -/
theorem not_createdAt_below (h : tree.Anchored) {t p c : Tag} (hp : tree.NativeParent t p)
    (hnone : tree.createdAt p = false) (hc : tree.InSubtree t c) : tree.createdAt c = false := by
  -- the native parent lies above the whole subtree, so a view in it would give the parent one
  refine Bool.eq_false_iff.mpr fun hview => ?_
  have hanc : tree.Ancestor p c := by
    rcases hc with rfl | hc
    · exact hp.ancestor
    · exact hp.ancestor.trans hc
  rw [h.above hview hanc hp.2] at hnone
  cases hnone

/-- A change of nodes that keeps links, views and the mounting nodes above views. -/
theorem congr (h : tree.Anchored) (hlinks : tree.SameLinks after)
    (hcreated : ∀ t, after.createdAt t = tree.createdAt t)
    (hmounts : ∀ {a c}, tree.createdAt c = true → tree.Ancestor a c →
      after.mountsAt a = tree.mountsAt a) : after.Anchored := by
  -- attachment and ancestors are read off links, the rest is assumed to be as before
  refine ⟨fun {t} ht => ?_, fun {a c} hc ha hmount => ?_⟩
  · rw [hcreated] at ht
    exact hlinks.attached (h.attached ht)
  · rw [hcreated] at hc ⊢
    rw [hlinks.ancestor_iff] at ha
    rw [hmounts hc ha] at hmount
    exact h.above hc ha hmount

/-- A node gets its view below a view. The node may start to mount at the same time. -/
theorem withView (h : tree.Anchored) (hlinks : tree.SameLinks after) {t p : Tag}
    (hp : tree.NativeParent t p) (habove : tree.createdAt p = true)
    (hcreated : ∀ x, after.createdAt x = if t = x then true else tree.createdAt x)
    (hmounts : ∀ x, t ≠ x → after.mountsAt x = tree.mountsAt x) : after.Anchored := by
  refine ⟨fun {x} hx => hlinks.attached ?_, fun {a c} hc ha hmount => ?_⟩
  · rw [hcreated] at hx
    split at hx
    · next heq => exact heq ▸ (h.attached habove).below hp.ancestor
    · exact h.attached hx
  · rw [hcreated] at hc ⊢
    rw [hlinks.ancestor_iff] at ha
    -- the node itself has its view now, and every other ancestor mounts as before
    by_cases hat : t = a
    · rw [if_pos hat]
    · rw [if_neg hat]
      rw [hmounts a hat] at hmount
      split at hc
      · next heq =>
        -- what mounts above the new view is its native parent or lies above it
        subst heq
        rcases hp.1.mounting_ancestor ha hmount with rfl | ha'
        · exact habove
        · exact h.above habove ha' hmount
      · exact h.above hc ha hmount

/-- A new node has a view only if it is a root. -/
theorem registered (h : tree.Anchored) (hwf : tree.WellFormed) {t : Tag}
    (hregistered : tree.Registered t after) (hroots : ∀ r ∈ tree.roots, r ∈ after.roots)
    (hnew : after.createdAt t = true → t ∈ after.roots) : after.Anchored := by
  refine ⟨fun {x} hx => ?_, fun {a c} hc ha hmount => ?_⟩
  -- the new node is attached as a root; the others hang where they hung
  · by_cases hxt : t = x
    · subst hxt
      exact ⟨t, hnew hx, .refl t⟩
    · rw [hregistered.created hxt] at hx
      obtain ⟨r, hr, hsub⟩ := h.attached hx
      exact ⟨r, hroots r hr, hsub.imp_right hregistered.ancestor⟩
  · -- neither the descendant nor the ancestor is new
    have hanc : tree.Ancestor a c := ha.transport fun x _ => (hregistered.parent x).symm
    have hat := hregistered.ne_of_contains (hwf.contains_ancestor hanc)
    rw [hregistered.created (hregistered.ne_of_contains hanc.contains)] at hc
    rw [hregistered.mounts hat] at hmount
    rw [hregistered.created hat]
    exact h.above hc hanc hmount

/-- Cutting off whole subtrees keeps the anchors: a view that stays has kept every node above it. -/
theorem trimmed (h : tree.Anchored) (hwf : tree.WellFormed) {gone : List Tag}
    (htrimmed : tree.Trimmed gone after) : after.Anchored := by
  refine ⟨fun {x} hx => ?_, fun {a c} hc ha hmount => ?_⟩
  · obtain ⟨hnot, hview⟩ := htrimmed.createdAt_iff.mp hx
    exact htrimmed.attached hwf (h.attached hview) hnot
  · obtain ⟨hnot, hview⟩ := htrimmed.createdAt_iff.mp hc
    -- what is above it now was above it before, and has been kept
    have hattached := h.attached hview
    have hanc := htrimmed.ancestor_before hwf hattached hnot ha
    have hkept := htrimmed.ancestor_kept hnot hanc
    rw [htrimmed.mounts (hattached.ancestor hwf hanc) hkept] at hmount
    rw [htrimmed.created hkept]
    exact h.above hview hanc hmount

end Anchored

end Tree

/-! ## Steps

Every step and every command is one of these ways. -/

section Effects

variable {κ : Type} [Coordinate κ] {scene done : Scene κ}

/-- A step of a pass makes views below views only. -/
theorem Mount.Step.anchored (h : Mount.Step scene done) (hanchored : scene.tree.Anchored) :
    done.tree.Anchored := by
  cases h with
  | @create tree mount log tag parent node hget hmounts hcreated hparent habove =>
    refine hanchored.withView (Tree.sameLinks_store hget rfl rfl rfl) hparent habove
      (fun x => Tree.createdAt_store ..) fun x hx => ?_
    rw [Tree.mountsAt_store, if_neg hx]
  | frame => exact hanchored
  | children => exact hanchored
  | note => exact hanchored

/-- A climb promotes nodes that are above no view, before it makes their views. -/
theorem Mount.Rise.anchored (h : Mount.Rise scene done) (hanchored : scene.tree.Anchored) :
    done.tree.Anchored := by
  cases h with
  | step h => exact h.anchored hanchored
  | @promote tree mount log tag parent node hget hparent habove =>
    refine hanchored.congr (Tree.sameLinks_promote hget) (Tree.createdAt_promote hget)
      fun {a c} hc ha => ?_
    -- the promoted node is above no view
    have hne : tag ≠ a := by
      rintro rfl
      rw [hanchored.not_createdAt_below hparent habove (.inr ha)] at hc
      cases hc
    rw [Tree.mountsAt_store, if_neg hne]
  | @insert tree mount log tag parent node children hget hpromotable hcreated hparent habove =>
    -- promotion and view come together here, in one change of the node
    show ((tree.store tag node.promote).store tag
      { node.promote with created := true }).Anchored
    rw [Tree.store_store]
    refine hanchored.withView ?_ hparent habove (fun x => Tree.createdAt_store ..) fun x hx => ?_
    · exact Tree.sameLinks_store hget node.tag_promote node.parent_promote node.children_promote
    · rw [Tree.mountsAt_store, if_neg hx]

/-- A touch of a command keeps the anchors. -/
theorem Touch.anchored (h : Touch scene done) (hanchored : scene.tree.Anchored) :
    done.tree.Anchored := by
  cases h with
  | rise h => exact h.anchored hanchored
  | post => exact hanchored
  | props => exact hanchored
  | @data tree mount log tag node hget frame props =>
    have hsame := Tree.flags_update hget frame props
    exact hanchored.congr (Tree.sameLinks_store hget rfl rfl rfl) (fun t => (hsame t).1)
      fun {a c} _ _ => (hsame a).2

/-- Touches keep the anchors. -/
theorem Touches.anchored (h : Touches scene done) (hanchored : scene.tree.Anchored) :
    done.tree.Anchored := by
  induction h with
  | refl => exact hanchored
  | tail _ htouch ih => exact htouch.anchored ih

/-- No view is lost between commands. -/
theorem Touch.createdAt_mono (h : Touch scene done) {tag : Tag}
    (hview : scene.tree.createdAt tag = true) : done.tree.createdAt tag = true := by
  cases h with
  | rise h => exact h.kept.created hview
  | post => exact hview
  | props => exact hview
  | data hget frame props => exact (Tree.flags_update hget frame props tag).1.trans hview

/-- No command breaks the anchoring of views. -/
theorem Effect.anchored {managers : Managers} {registration : Registration} {removals : List Tag}
    (h : Effect managers registration removals scene done) (hwf : scene.tree.WellFormed)
    (hanchored : scene.tree.Anchored) : done.tree.Anchored := by
  cases h with
  | addRoot hfree =>
    exact hanchored.registered hwf (Tree.registered_withRootNode hfree)
      (fun r hr => Tree.mem_withRoot.mpr (.inl hr)) fun _ => Tree.mem_withRoot.mpr (.inr rfl)
  | create hfresh hcreated hfree =>
    refine hanchored.registered hwf (Tree.registered_store hfresh hfree) (fun r hr => hr)
      fun hview => ?_
    rw [Tree.createdAt_store, if_pos rfl, hcreated] at hview
    cases hview
  | trim htrimmed => exact hanchored.trimmed hwf htrimmed
  | active h => exact Touches.anchored h.touches hanchored

/-- The views of every reachable user interface are anchored. -/
theorem Ui.Reachable.anchored {ui : Ui κ} (h : ui.Reachable) : ui.scene.tree.Anchored :=
  h.invariant (P := fun _ tree => tree.Anchored) (fun _ => .empty)
    (fun heffect hsound hanchored => heffect.anchored hsound.wellFormed hanchored)
    Touches.anchored

end Effects

end ShadowMount
