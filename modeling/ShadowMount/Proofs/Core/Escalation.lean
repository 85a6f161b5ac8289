import ShadowMount.Proofs.Core.Quiescence

/-!
# Outcome and effect of an escalation

An escalation climbs from native parent to native parent until it finds a view. If there is none,
it fails and every promotion is taken back. Otherwise the topmost node without a view is reconciled
first, which gives a view to everything in its subtree that mounts; what follows on the way back
down finds all views in place.

* **`Tree.Summit`** — the topmost node without a view on the way up.
* **`Mount.Surfaced`** — the views that journeys through a region create; `Surfaced.andThen` puts
  two of them together.
* **`Mount.escalateWithin_outcome`** — the climb: it fails on barren ground, refreshes a view that
  exists, or raises everything below the summit. `Mount.Outcome.of_nativeParent` is one step of it.
* **`Mount.escalation_exact`** — when an escalation fails, and that a failure changes nothing.
* **`Mount.escalation_effect`** — what an escalation that creates a view changes, and that a second
  one changes nothing.
-/

namespace ShadowMount

namespace Tree

variable {κ : Type} {tree : Tree κ}

/-- Neither a node nor any of its ancestors has a view. -/
def Barren (tree : Tree κ) (tag : Tag) : Prop :=
  ∀ a, tree.InSubtree a tag → tree.createdAt a = false

/-- `Summit tree t u`: on the way from `t` from native parent to native parent, `u` is the last node
without a view, and the first one with a view comes next. -/
inductive Summit (tree : Tree κ) : Tag → Tag → Prop
  | top {t p : Tag} (hview : tree.createdAt t = false) (hparent : tree.NativeParent t p)
      (habove : tree.createdAt p = true) : Summit tree t t
  | up {t p u : Tag} (hview : tree.createdAt t = false) (hparent : tree.NativeParent t p)
      (hrest : Summit tree p u) : Summit tree t u

/-- The summit is the node itself or lies above it. -/
theorem Summit.inSubtree {t u : Tag} (h : tree.Summit t u) : tree.InSubtree u t := by
  induction h with
  | top => exact .refl _
  | up _ hparent _ ih => exact ih.trans (.inr hparent.ancestor)

/-- What has a summit has no view, and some ancestor has one. -/
theorem Summit.view_above {t u : Tag} (h : tree.Summit t u) : tree.createdAt t = false ∧
    ∃ a, tree.Ancestor a t ∧ tree.createdAt a = true := by
  induction h with
  | top hview hparent habove => exact ⟨hview, _, hparent.ancestor, habove⟩
  | up hview hparent _ ih =>
    obtain ⟨-, a, ha, habove⟩ := ih
    exact ⟨hview, a, ha.trans hparent.ancestor, habove⟩

/-- A promotion does not change what lies above the promoted node. -/
theorem Summit.of_promote (hwf : tree.WellFormed) {t x u : Tag} {node : Node κ}
    (hget : tree.get? t = some node) (h : (tree.store t node.promote).Summit x u)
    (hx : tree.InSubtree x t) : tree.Summit x u := by
  induction h with
  | top hview hparent habove =>
    rw [createdAt_promote hget] at hview habove
    exact .top hview ((nativeParent_promote_iff hwf hget hx).mp hparent) habove
  | up hview hparent _ ih =>
    rw [createdAt_promote hget] at hview
    have hparent := (nativeParent_promote_iff hwf hget hx).mp hparent
    exact .up hview hparent (ih (InSubtree.trans (.inr hparent.ancestor) hx))

/-- A view above a node hides nothing that is above the node's native parent. -/
theorem Barren.of_parent (hflags : tree.FlagsSound) {t p : Tag} (hview : tree.createdAt t = false)
    (hparent : tree.NativeParent t p) (h : tree.Barren p) : tree.Barren t := by
  rintro a (rfl | ha)
  · exact hview
  · cases hcreated : tree.createdAt a with
    | false => rfl
    | true =>
      have habove := hparent.1.mounting_ancestor ha (hflags.mountsAt_of_createdAt hcreated)
      exact hcreated.symm.trans (h a habove)

/-- Without a native parent there is nothing above that mounts, and so nothing that has a view. -/
theorem Barren.of_unparented (hflags : tree.FlagsSound) {t : Tag}
    (hview : tree.createdAt t = false) (hnone : ∀ p, ¬ tree.NativeParent t p) : tree.Barren t := by
  rintro a (rfl | ha)
  · exact hview
  · cases hcreated : tree.createdAt a with
    | false => rfl
    | true =>
      obtain ⟨p, hp⟩ := ha.exists_nativeParent (hflags.mountsAt_of_createdAt hcreated)
      exact absurd hp (hnone p)

end Tree

namespace Mount

open MountM

variable {κ : Type} [Coordinate κ] {scene mid done : Scene κ} {tag parent : Tag}

/-- What a journey through a region does beside frames and child lists: it gives a view to each node
of the region that mounts and has none, in an order that goes down. -/
structure Surfaced (scene : Scene κ) (region : Tag → Prop) (done : Scene κ) : Prop where
  /-- Nothing changes in the tree but which nodes have views. -/
  grown : scene.tree.Grown done.tree
  /-- The views afterwards are those of before and those of the region. -/
  created : ∀ x, done.tree.createdAt x = true ↔
    scene.tree.createdAt x = true ∨ region x ∧ scene.tree.mountsAt x = true
  /-- Each new view is created, and no node after one below it. -/
  creates : ∃ operations, done.mount.queue = scene.mount.queue ++ operations ∧
    (∀ x, x ∈ operations.filterMap Operation.created? ↔
      region x ∧ scene.tree.mountsAt x = true ∧ scene.tree.createdAt x = false) ∧
    (operations.filterMap Operation.created?).Pairwise fun x y => ¬ scene.tree.InSubtree y x
  /-- Neither drops nor configuration change. -/
  fixtures : done.mount.fixtures = scene.mount.fixtures

/-- A journey surfaces a region if its visits meet the mounting nodes of the region, from the top
down. -/
theorem Journey.surfaced {visits : List (Visit κ)} {region : Tag → Prop}
    (h : Journey visits scene done)
    (hmounts : ∀ visit ∈ visits, scene.tree.mountsAt visit.tag = true)
    (hviews : ∀ x, x ∈ visits.filterMap Visit.view? ↔ region x ∧ scene.tree.mountsAt x = true)
    (horder : (visits.filterMap Visit.view?).Pairwise fun x y => ¬ scene.tree.InSubtree y x) :
    Surfaced scene region done := by
  -- an order from the top down meets no node twice
  have hnodup : (visits.filterMap Visit.view?).Nodup :=
    horder.imp fun hnot heq => hnot (.inl heq)
  obtain ⟨operations, hqueue, hmade⟩ := h.creates hnodup
  refine ⟨h.grown hmounts, fun x => ?_, ⟨operations, hqueue, fun x => ?_, ?_⟩, h.kept_rest.1⟩
  · rw [h.createdAt_iff, hviews]
  · rw [hmade, List.mem_filter, hviews, decide_eq_true_eq, and_assoc]
  · rw [hmade]
    exact horder.filter _

omit [Coordinate κ] in
/-- Two journeys: the second one finds all views in place, unless the first one has made none. -/
theorem Surfaced.andThen {first second region : Tag → Prop} (h : Surfaced scene first mid)
    (hsecond : Surfaced mid second done) (hnested : ∀ x y, first x → second y → first y)
    (hregion : ∀ x, region x ↔ first x ∨ second x) : Surfaced scene region done := by
  obtain ⟨earlier, hearlier, hmade, horder⟩ := h.creates
  obtain ⟨later, hlater, hmade', horder'⟩ := hsecond.creates
  have hmounts := h.grown.mountsAt
  refine ⟨h.grown.trans hsecond.grown, fun x => ?_, ⟨earlier ++ later, ?_, fun x => ?_, ?_⟩,
    hsecond.fixtures.trans h.fixtures⟩
  -- the views are those of the first region and those of the second
  · rw [hsecond.created, h.created, hmounts, hregion, or_and_right, or_assoc]
  · rw [hlater, hearlier, List.append_assoc]
  -- what the second journey creates had no view after the first, so it is new in both regions
  · rw [List.filterMap_append, List.mem_append, hmade, hmade', hmounts, hregion,
      ← Bool.not_eq_true, ← Bool.not_eq_true, h.created]
    tauto
  -- the creates of the first come before those of the second; if the regions overlap, the first has
  -- left the second nothing to create in the overlap
  · rw [List.filterMap_append]
    refine List.pairwise_append.mpr ⟨horder, ?_, fun x hx y hy => ?_⟩
    · exact horder'.imp fun hnot hsub => hnot (h.grown.sameLinks.inSubtree_iff.mpr hsub)
    · obtain ⟨hin, -, -⟩ := (hmade x).mp hx
      obtain ⟨hin', hmounts', hview⟩ := (hmade' y).mp hy
      rw [← Bool.not_eq_true, h.created] at hview
      exact absurd (.inr ⟨hnested x y hin hin', hmounts y ▸ hmounts'⟩) hview

/-- Refreshing a view creates none. -/
theorem refreshView_surfaced (hwf : scene.tree.WellFormed) (hflags : scene.tree.FlagsSound)
    (hview : scene.tree.createdAt tag = true) : ∃ done, refreshView tag scene = .ok () done ∧
      Surfaced scene (fun _ => False) done := by
  obtain ⟨done, hok, hjourney⟩ := refreshView_journey hwf (Tree.contains_of_createdAt hview)
  -- a visit of a view that is there sends a frame and a child list, and creates nothing
  have hnone : (scene.tree.viewItinerary tag).filterMap Visit.view? = [] :=
    List.filterMap_eq_nil_iff.mpr fun visit hvisit => (Tree.tag_of_mem_viewItinerary hvisit).2
  refine ⟨done, hok, hjourney.surfaced (fun visit hvisit => ?_) ?_ ?_⟩
  · rw [(Tree.tag_of_mem_viewItinerary hvisit).1]
    exact hflags.mountsAt_of_createdAt hview
  · simp [hnone]
  · rw [hnone]
    exact .nil

/-- Reconciling a subtree below a view gives views to its nodes that mount, and leaves the frame and
the child list of its top as they should be. -/
theorem reconcileBelow_surfaced (hwf : scene.tree.WellFormed)
    (hparent : scene.tree.NativeParent tag parent) (hview : scene.tree.createdAt parent = true)
    (hmounts : scene.tree.mountsAt tag = true) :
    ∃ done, reconcileBelow tag parent scene = .ok () done ∧
      Surfaced scene (scene.tree.InSubtree tag) done ∧ Current done (.children tag) ∧
      ∀ frame, done.tree.nativeFrame tag = .ok frame → frame.same frame = true →
        Current done (.frame tag parent frame) := by
  have ht := hparent.ancestor.contains
  obtain ⟨found, hget⟩ := Tree.contains_iff.mp ht
  obtain ⟨⟨dx, dy⟩, hoffset⟩ := Tree.offsetInNativeParent_ok hwf ht
  -- two descriptions of the same run: what it settles, and which visits it consists of
  obtain ⟨done, hok, hrun, hsettled⟩ := reconcileBelow_ok hwf hparent hview
  obtain ⟨done', hok', hjourney⟩ := reconcileBelow_journey hwf hparent hoffset
  obtain rfl : done' = done := (EStateM.Result.ok.inj (hok'.symm.trans hok)).2
  have hgrown := Run.grown hrun
  obtain ⟨hviews, horder⟩ := hwf.views_itinerary dx dy (some parent) ht
  -- the last visit sends the child list of the view above, and creates nothing
  have hconcat : (scene.tree.itinerary scene.tree.budget tag dx dy (some parent) ++
      [Visit.children parent]).filterMap Visit.view? =
        (scene.tree.itinerary scene.tree.budget tag dx dy (some parent)).filterMap Visit.view? := by
    rw [List.filterMap_append]
    exact List.append_nil _
  obtain ⟨l, hl⟩ := hwf.exists_lineage ht
  have hpos := hl.length_pos
  obtain ⟨-, hchildren⟩ := @Tree.WellFormed.mem_itinerary _ _ _ hwf scene.tree.budget tag dx dy
    (some parent) l tag hl (by rw [Tree.budget]; omega) (.refl tag) hmounts
  refine ⟨done', hok, hjourney.surfaced (fun visit hvisit => ?_) ?_ ?_,
    ⟨hjourney.knows (.inr (List.mem_append_left _ hchildren)), ?_⟩, fun frame hframe hsame => ?_⟩
  -- everything that is visited mounts
  · rcases List.mem_append.mp hvisit with hvisit | hvisit
    · exact (hwf.itinerary_inside hvisit).2
    · rw [List.mem_singleton.mp hvisit]
      exact hparent.2
  · rwa [hconcat]
  · rwa [hconcat]
  -- the top is settled, so its child list is as it should be, and so is its frame
  · exact (hsettled tag (.refl tag) ((hgrown.mountsAt tag).trans hmounts)).2
  · rw [hgrown.nativeFrame, Tree.nativeFrame_of_offset hget hoffset] at hframe
    cases hframe
    have hmem : .frame tag parent (found.frame.shift dx dy) ∈
        scene.tree.itinerary scene.tree.budget tag dx dy (some parent) := by
      rw [Tree.budget, Tree.itinerary_of_mounting hget
        ((Tree.mountsAt_of_get? hget).symm.trans hmounts)]
      simp
    exact hjourney.frame_sent (Visit.Precedes.concat_children hwf.pairwise_itinerary _)
      (List.mem_append_left _ hmem) hsame

/-! ## The climb -/

omit [Coordinate κ] in
/-- A node that mounts is not changed by the promotion on the way. -/
theorem promoted_of_mounts {found : Node κ} (hget : scene.tree.get? tag = some found)
    (hmounts : found.mounts = true) : promoted scene tag found = scene := by
  show { scene with tree := scene.tree.store tag found.promote } = scene
  rw [Node.promote_of_mounts hmounts, Tree.store_get? hget]

/-- The effect of an escalation that has created a view: beside the promotion, everything below the
summit that mounts has its view, and the frame and the child list of the node are as they should
be. -/
structure Raised (scene : Scene κ) (tag : Tag) (found : Node κ) (summit : Tag) (done : Scene κ) :
    Prop where
  /-- Everything in the subtree of the summit that mounts has its view. -/
  surfaced : Surfaced (promoted scene tag found) (scene.tree.InSubtree summit) done
  /-- The child list of the node is the one last sent. -/
  children : Current done (.children tag)
  /-- And so is its frame, unless it differs from itself. -/
  frame : ∃ parent, done.tree.NativeParent tag parent ∧ ∀ frame,
    done.tree.nativeFrame tag = .ok frame → frame.same frame = true →
      Current done (.frame tag parent frame)

/-- The outcomes of an escalation of a node that is not virtual. -/
inductive Outcome (scene : Scene κ) (tag : Tag) (found : Node κ) :
    EStateM.Result UiError (Scene κ) Bool → Prop
  | barren (top : Tag) (h : scene.tree.Barren tag) :
      Outcome scene tag found (.error (.noMountingAncestor top) scene)
  | refreshed {done : Scene κ} (hview : scene.tree.createdAt tag = true)
      (h : Surfaced scene (fun _ => False) done) : Outcome scene tag found (.ok false done)
  | raised {summit : Tag} {done : Scene κ} (hsummit : scene.tree.Summit tag summit)
      (h : Raised scene tag found summit done) : Outcome scene tag found (.ok true done)

/-- Once the native parent of a node has a view, the node gets one. -/
theorem escalateWithin_raises {steps : Nat} {found : Node κ} {flag : Bool} {region : Tag → Prop}
    {summit : Tag} (hwf : scene.tree.WellFormed) (hget : scene.tree.get? tag = some found)
    (hvirtual : found.isVirtual = false) (hcreated : found.created = false)
    (hparent : scene.tree.NativeParent tag parent)
    (hmid : escalateWithin steps parent (promoted scene tag found) = .ok flag mid)
    (hsurfaced : Surfaced (promoted scene tag found) region mid)
    (hview : mid.tree.createdAt parent = true)
    (hnested : ∀ x y, region x → scene.tree.InSubtree tag y → region y)
    (hregion : ∀ x, scene.tree.InSubtree summit x ↔ region x ∨ scene.tree.InSubtree tag x) :
    ∃ done, escalateWithin (steps + 1) tag scene = .ok true done ∧
      Raised scene tag found summit done := by
  have hkept := Tree.kept_promote hget
  have hgrown := hsurfaced.grown
  have hwf' := hgrown.sameLinks.wellFormed (hkept.links.wellFormed hwf)
  -- the escalation of the parent has left the links alone, so the node still hangs below it
  have hparent' := hgrown.nativeParent
    ((Tree.nativeParent_promote_iff hwf hget (.refl tag)).mpr hparent)
  have hmounts : mid.tree.mountsAt tag = true := by
    rw [hgrown.mountsAt]
    show (scene.tree.store tag found.promote).mountsAt tag = true
    rw [Node.isVirtual] at hvirtual
    rw [Tree.mountsAt_store, if_pos rfl, Node.mounts_promote, bne, hvirtual]
    exact Bool.or_true _
  obtain ⟨log, hlast⟩ := escalateWithin_of_success hget hvirtual hcreated
    (Tree.nativeParent_eq_some hwf hparent) hmid
  -- with a view above, the subtree of the node is reconciled; the log has one line more by then
  obtain ⟨done, hbelow, hdone, hchildren, hframe⟩ :=
    @reconcileBelow_surfaced _ _ { mid with log } tag parent hwf' hparent' hview hmounts
  have hlinks : scene.tree.SameLinks mid.tree := hkept.links.trans hgrown.sameLinks
  -- the two trees have the same links, so the region can be read in the tree of the beginning
  have hsecond : Surfaced mid (scene.tree.InSubtree tag) done := by
    rw [show scene.tree.InSubtree tag = mid.tree.InSubtree tag from
      funext fun x => propext hlinks.inSubtree_iff.symm]
    exact ⟨hdone.grown, hdone.created, hdone.creates, hdone.fixtures⟩
  exact ⟨done, hlast hbelow, hsurfaced.andThen hsecond hnested hregion, hchildren,
    parent, hdone.grown.nativeParent hparent', hframe⟩

/-- One step of the climb: what the escalation of the native parent comes to decides what that of the
node does. On the way up the node is promoted; the promotion is taken back if there is no view
above, and stands otherwise. -/
theorem Outcome.of_nativeParent {steps : Nat} {found above : Node κ} (hwf : scene.tree.WellFormed)
    (hflags : scene.tree.FlagsSound) (hget : scene.tree.get? tag = some found)
    (hvirtual : found.isVirtual = false) (hcreated : found.created = false)
    (hparent : scene.tree.NativeParent tag parent)
    (habove : (promoted scene tag found).tree.get? parent = some above)
    (ih : Outcome (promoted scene tag found) parent above
      (escalateWithin steps parent (promoted scene tag found))) :
    Outcome scene tag found (escalateWithin (steps + 1) tag scene) := by
  have hview : scene.tree.createdAt tag = false := (Tree.createdAt_of_get? hget).trans hcreated
  have hquery := Tree.nativeParent_eq_some hwf hparent
  have hlinks := (Tree.kept_promote hget).links
  have hmounts : (promoted scene tag found).tree.mountsAt parent = true :=
    ((Tree.nativeParent_promote_iff hwf hget (.refl tag)).mpr hparent).2
  generalize hclimb : escalateWithin steps parent (promoted scene tag found) = climb at ih
  cases ih with
  | barren top hbarren =>
    -- no view from the parent up, and none between it and the node: the promotion is taken back
    rw [escalateWithin_of_failure hget hvirtual hcreated ?_ hquery hclimb]
    · refine .barren top (.of_parent hflags hview hparent fun a ha => ?_)
      rw [← Tree.createdAt_promote hget]
      exact hbarren a (hlinks.inSubtree_iff.mpr ha)
    · intro hunmounted hkind
      rw [hflags.viewMounting_mounts hget hkind] at hunmounted
      cases hunmounted
  | refreshed habove hsurfaced =>
    -- the parent has a view already, so this node is the summit, and all creates lie below it
    obtain ⟨done, hok, hraised⟩ := escalateWithin_raises hwf hget hvirtual hcreated hparent hclimb
      hsurfaced (hsurfaced.grown.mono habove) (fun _ _ h => h.elim)
      (fun x => (false_or _).symm.to_iff)
    rw [hok]
    refine .raised (.top hview hparent ?_) hraised
    rwa [← Tree.createdAt_promote hget]
  | @raised summit mid hsummit hraised =>
    -- everything below the summit has its view by now, this node included; what is still to be
    -- reconciled lies below the node and so in the same region
    have hsurfaced := hraised.surfaced
    have hsame : (promoted scene tag found).tree.InSubtree summit = scene.tree.InSubtree summit :=
      funext fun x => propext hlinks.inSubtree_iff
    have habove' := (Tree.mountsAt_of_get? habove).symm.trans hmounts
    rw [promoted_of_mounts habove habove', hsame] at hsurfaced
    have hbelow : scene.tree.InSubtree summit parent := hsame ▸ hsummit.inSubtree
    have htag := hbelow.trans (.inr hparent.ancestor)
    obtain ⟨done, hok, hraised⟩ := escalateWithin_raises hwf hget hvirtual hcreated hparent hclimb
      hsurfaced ((hsurfaced.created parent).mpr (.inr ⟨hbelow, hmounts⟩))
      (fun _ _ _ h => htag.trans h)
      (fun x => (or_iff_left_of_imp fun h => htag.trans h).symm)
    rw [hok]
    exact .raised (.up hview hparent (hsummit.of_promote hwf hget (.inr hparent.ancestor))) hraised

/-- An escalation climbs until it finds a view, or fails if there is none. The lineage of the node
bounds the climb: each step goes to a native parent, whose lineage is shorter. -/
theorem escalateWithin_outcome : ∀ {steps : Nat} {tag : Tag} {scene : Scene κ} {l : List Tag}
    {found : Node κ}, scene.tree.WellFormed → scene.tree.FlagsSound → scene.tree.Lineage tag l →
    l.length ≤ steps → scene.tree.get? tag = some found → found.isVirtual = false →
      Outcome scene tag found (escalateWithin steps tag scene)
  | 0, _, _, _, _, _, _, hl, hsteps, _, _ => by
    have := hl.length_pos
    omega
  | steps + 1, tag, scene, l, found, hwf, hflags, hl, hsteps, hget, hvirtual => by
    have hview := Tree.createdAt_of_get? hget
    cases hcreated : found.created with
    | true =>
      -- the node has a view: the climb is over before it begins
      rw [hcreated] at hview
      obtain ⟨done, hrefresh, hsurfaced⟩ := refreshView_surfaced hwf hflags hview
      rw [escalateWithin_of_created hget hvirtual hcreated hrefresh]
      exact .refreshed hview hsurfaced
    | false =>
      rw [hcreated] at hview
      rcases Tree.nativeParent_cases hwf hl.contains with ⟨p, -, hp⟩ | ⟨hquery, hnone⟩
      · -- the native parent of the promoted node mounts and is no virtual node, so it can escalate
        have hkept := Tree.kept_promote hget
        have hflags' := hkept.flags hflags
        have hp' := (Tree.nativeParent_promote_iff hwf hget (.refl tag)).mpr hp
        obtain ⟨above, habove, hmounts⟩ := Tree.get?_of_mountsAt hp'.2
        obtain ⟨l', hl', hlt⟩ := hl.of_ancestor hp.ancestor
        exact .of_nativeParent hwf hflags hget hvirtual hcreated hp habove
          (escalateWithin_outcome (hkept.links.wellFormed hwf) hflags' (hkept.links.lineage hl')
            (by omega) habove (hflags'.not_virtual habove hmounts))
      · -- nothing above mounts, so nothing above has a view
        rw [escalateWithin_of_unparented hget hvirtual hcreated hquery]
        exact .barren tag (.of_unparented hflags hview hnone)

/-- The budget of the tree is enough for the climb. -/
theorem escalate_outcome (hwf : scene.tree.WellFormed) (hflags : scene.tree.FlagsSound)
    {found : Node κ} (hget : scene.tree.get? tag = some found)
    (hvirtual : found.isVirtual = false) : Outcome scene tag found (escalate tag scene) := by
  obtain ⟨l, hl⟩ := hwf.exists_lineage (Tree.contains_of_get? hget)
  exact escalateWithin_outcome hwf hflags hl (Nat.le_succ_of_le (hl.length_le_size hwf)) hget
    hvirtual

/-- An escalation that has created a view was one of a node that is there and not virtual, and has
raised everything below a summit. -/
theorem escalate_raised (hwf : scene.tree.WellFormed) (hflags : scene.tree.FlagsSound)
    (hok : escalate tag scene = .ok true done) : ∃ found summit,
      scene.tree.get? tag = some found ∧ found.isVirtual = false ∧
        scene.tree.Summit tag summit ∧ Raised scene tag found summit done := by
  cases hget : scene.tree.get? tag with
  | none =>
    rw [show escalate tag scene = _ from escalateWithin_of_missing hget] at hok
    cases hok
  | some found =>
    cases hvirtual : found.isVirtual with
    | true =>
      rw [show escalate tag scene = _ from escalateWithin_of_virtual hget hvirtual] at hok
      cases hok
    | false =>
      have hcases := escalate_outcome hwf hflags hget hvirtual
      rw [hok] at hcases
      cases hcases with
      | raised hsummit hraised => exact ⟨found, _, rfl, hvirtual, hsummit, hraised⟩

/-- What is left of a node: all but the two flags. -/
theorem Raised.node {found : Node κ} {summit : Tag} (h : Raised scene tag found summit done)
    (hget : scene.tree.get? tag = some found) (hvirtual : found.isVirtual = false) (x : Tag) :
    done.tree.get? x = (scene.tree.get? x).map fun node =>
      { node with mounts := node.mounts || x == tag, created := done.tree.createdAt x } := by
  rw [h.surfaced.grown.node, promoted, Tree.get?_store]
  split
  · next heq =>
    subst heq
    rw [hget, Option.map_some, Option.map_some, Node.promote, Node.isPromotable, hvirtual]
    cases hmounts : found.mounts with
    | true => simp [hmounts]
    | false => simp
  · next hne =>
    rw [beq_eq_false_iff_ne.mpr (Ne.symm hne)]
    simp only [Bool.or_false]

/-- A second escalation finds the view, and sends nothing unless the frame differs from itself. -/
theorem Raised.again {found : Node κ} {summit : Tag} (h : Raised scene tag found summit done)
    (hsound : scene.tree.Sound) (hget : scene.tree.get? tag = some found)
    (hvirtual : found.isVirtual = false) (hsummit : scene.tree.Summit tag summit) :
    done.tree.createdAt tag = true ∧
    ∃ again, escalate tag done = .ok false again ∧ again.tree = done.tree ∧
      ((∀ frame, done.tree.nativeFrame tag = .ok frame → frame.same frame = true) →
        again = done) := by
  have hkept := (Tree.kept_promote hget).trans h.surfaced.grown.kept
  have hwf := hkept.links.wellFormed hsound.wellFormed
  have hnode := h.node hget hvirtual tag
  rw [hget, Option.map_some] at hnode
  have hmounts : done.tree.mountsAt tag = true := by
    rw [Tree.mountsAt_of_get? hnode, beq_self_eq_true, Bool.or_true]
  rw [h.surfaced.grown.mountsAt] at hmounts
  have hview := (h.surfaced.created tag).mpr (.inr ⟨hsummit.inSubtree, hmounts⟩)
  have ht := Tree.contains_of_createdAt hview
  -- the second escalation finds the view and refreshes it
  obtain ⟨again, hrefresh, hjourney⟩ := refreshView_journey hwf ht
  refine ⟨hview, again, ?_, ?_, fun hsame => ?_⟩
  · exact escalateWithin_of_created hnode hvirtual hview hrefresh
  · exact hjourney.tree_eq fun visit hvisit => (Tree.tag_of_mem_viewItinerary hvisit).2
  -- the frame and the child list are the ones last sent, so there is nothing to be sent
  · obtain ⟨parent, hparent, hframe⟩ := h.frame
    obtain ⟨⟨dx, dy⟩, hoffset⟩ := Tree.offsetInNativeParent_ok hwf ht
    have hcomputed := Tree.nativeFrame_of_offset hnode hoffset
    rw [Tree.viewItinerary_of_parent hwf hparent hcomputed] at hjourney
    refine hjourney.eq_of_current fun visit hvisit => ?_
    rcases List.mem_cons.mp hvisit with rfl | hvisit
    · exact hframe _ hcomputed (hsame _ hcomputed)
    · rw [List.mem_singleton.mp hvisit]
      exact h.children

/-! ## Reachable trees

The outcome of the climb, read on reachable trees and in terms of the queries that they answer: when
each error occurs, what an escalation that succeeds changes, and why a second one is silent. -/

/-- The outcome of an escalation: it fails on a tag without a node, on a virtual node, and on a node
below which no view can hang, since neither it nor any of its ancestors has one. It then leaves
everything as it was. Any other node has a view afterwards, and the answer tells whether it is
new. -/
theorem escalation_exact {tree : Tree κ} (h : tree.Reachable) (mount : MountState κ)
    (log : List Log.Line) (tag : Tag) :
    let outcome := escalate tag ⟨tree, mount, log⟩
    ((∃ x failed, outcome = .error (.missing x) failed) ↔ tree.get? tag = none) ∧
    ((∃ x failed, outcome = .error (.virtualNode x) failed) ↔
      ∃ node, tree.get? tag = some node ∧ node.kind = .virtual) ∧
    ((∃ x failed, outcome = .error (.noMountingAncestor x) failed) ↔
      ∃ node, tree.get? tag = some node ∧ node.kind ≠ .virtual ∧ node.created = false ∧
        ∀ a, tree.Ancestor a tag → tree.createdAt a = false) ∧
    (∀ node, tree.get? tag = some node → node.kind ≠ .virtual →
      (node.created = true ∨ ∃ a, tree.Ancestor a tag ∧ tree.createdAt a = true) →
        ∃ done, outcome = .ok (!node.created) done ∧ done.tree.createdAt tag = true) ∧
    ∀ err failed, outcome = .error err failed → failed = ⟨tree, mount, log⟩ := by
  intro outcome
  have hsound := h.sound
  -- an escalation that answers has given the node its view, or found it
  have hmade : ∀ answer done, outcome = .ok answer done → done.tree.createdAt tag = true := by
    intro answer done hdone
    have hcases := @escalate_cases _ _ ⟨tree, mount, log⟩ hsound.wellFormed hsound.flags tag
    rw [show escalate tag ⟨tree, mount, log⟩ = _ from hdone] at hcases
    rcases hcases with ⟨err, herr⟩ | ⟨other, hok, -, hup⟩
    · cases herr
    · cases hok
      exact hup.view
  cases hget : tree.get? tag with
  | none =>
    have hout : outcome = .error (.missing tag) ⟨tree, mount, log⟩ :=
      escalateWithin_of_missing hget
    simp [hout]
  | some found =>
    by_cases hvirtual : found.isVirtual = true
    · have hout : outcome = .error (.virtualNode tag) ⟨tree, mount, log⟩ :=
        escalateWithin_of_virtual hget hvirtual
      have hkind : found.kind = .virtual := beq_iff_eq.mp hvirtual
      simp [hout, hkind]
    · have hkind : found.kind ≠ .virtual := fun hkind => hvirtual (beq_iff_eq.mpr hkind)
      have hcreatedAt := Tree.createdAt_of_get? hget
      have hcases : Outcome ⟨tree, mount, log⟩ tag found outcome := escalate_outcome
        hsound.wellFormed hsound.flags hget (Bool.not_eq_true _ ▸ hvirtual)
      generalize outcome = result at hcases hmade
      cases hcases with
      -- barren ground: the third condition holds, and the other three do not
      | barren top hbarren =>
        have hcreated : found.created = false := hcreatedAt ▸ hbarren tag (.refl tag)
        have habove : ∀ a, tree.Ancestor a tag → tree.createdAt a = false :=
          fun a ha => hbarren a (.inr ha)
        simp +contextual [hkind, hcreated, habove]
      -- the view was there, and the answer says that it is not new
      | refreshed hview =>
        have hcreated : found.created = true := hcreatedAt ▸ hview
        simp [hkind, hcreated, hmade _ _ rfl]
      -- some ancestor has a view, so the ground is not barren, and the answer says that the view is
      -- new
      | raised hsummit =>
        obtain ⟨hview, a, ha, habove⟩ := hsummit.view_above
        have hcreated : found.created = false := hcreatedAt ▸ hview
        have hnot : ¬ ∀ a, tree.Ancestor a tag → tree.createdAt a = false := by
          intro hnone
          rw [hnone a ha] at habove
          cases habove
        simp [hkind, hcreated, hnot, hmade _ _ rfl]

/-- Node 7 has an ancestor that mounts, but none with a view. -/
theorem escalation_exact_chains :
    (∃ x, escalate 7 ⟨Sample.chains, {}, []⟩ =
      .error (.noMountingAncestor x) ⟨Sample.chains, {}, []⟩) ∧
    ∀ a, Sample.chains.Ancestor a 7 → Sample.chains.createdAt a = false := by
  obtain ⟨-, -, hbarren, -, hkept⟩ := escalation_exact Sample.chains_reachable {} [] 7
  have hfails : (match escalate 7 ⟨Sample.chains, {}, []⟩ with
      | .error (.noMountingAncestor _) _ => true
      | _ => false) = true := by decide +kernel
  split at hfails
  · next x failed hrun =>
    obtain ⟨node, -, -, -, habove⟩ := hbarren.mp ⟨x, failed, hrun⟩
    exact ⟨⟨x, by rw [hrun, hkept _ _ hrun]⟩, habove⟩
  · cases hfails

/-- What an escalation that creates a view changes. Below the topmost node without a view on the way
up, everything that mounts has its view, created once and after what is above it; the node itself
mounts from now on. Nothing else in the tree changes. A second escalation finds the view, and sends
nothing unless the frame of the node differs from itself. -/
theorem escalation_effect {tree : Tree κ} (h : tree.Reachable) {mount : MountState κ}
    {log : List Log.Line} {tag : Tag} {done : Scene κ}
    (hok : escalate tag ⟨tree, mount, log⟩ = .ok true done) :
    ∃ summit, tree.Summit tag summit ∧
      (∀ x, done.tree.get? x = (tree.get? x).map fun node =>
        { node with mounts := node.mounts || x == tag, created := done.tree.createdAt x }) ∧
      done.tree.roots = tree.roots ∧ done.tree.poisoned = tree.poisoned ∧
      done.mount.fixtures = mount.fixtures ∧
      (∀ x, done.tree.createdAt x = true ↔ tree.createdAt x = true ∨
        tree.InSubtree summit x ∧ done.tree.mountsAt x = true) ∧
      done.tree.createdAt tag = true ∧
      (∃ operations, done.mount.queue = mount.queue ++ operations ∧
        let creates := operations.filterMap Operation.created?
        (∀ x, x ∈ creates ↔ tree.createdAt x = false ∧ done.tree.createdAt x = true) ∧
          creates.Nodup ∧ creates.Pairwise fun x y => ¬ tree.Ancestor y x) ∧
      ∃ again, escalate tag done = .ok false again ∧ again.tree = done.tree ∧
        ((∀ frame, done.tree.nativeFrame tag = .ok frame → frame.same frame = true) →
          again = done) := by
  have hsound := h.sound
  obtain ⟨found, summit, hget, hvirtual, hsummit, hraised⟩ :=
    escalate_raised hsound.wellFormed hsound.flags hok
  have hgrown := hraised.surfaced.grown
  have hlinks := Tree.sameLinks_promote hget
  -- the promotion changes no view, so the views can be counted from the tree of the beginning
  have hcreated : ∀ x, done.tree.createdAt x = true ↔ tree.createdAt x = true ∨
      tree.InSubtree summit x ∧ done.tree.mountsAt x = true := by
    intro x
    rw [hraised.surfaced.created, hgrown.mountsAt, promoted, Tree.createdAt_promote hget]
  obtain ⟨operations, hqueue, hmade, horder⟩ := hraised.surfaced.creates
  obtain ⟨hview, again, hagain, htree, hquiet⟩ := hraised.again hsound hget hvirtual hsummit
  refine ⟨summit, hsummit, hraised.node hget hvirtual, hgrown.roots, hgrown.poisoned,
    hraised.surfaced.fixtures, hcreated, hview, ⟨operations, hqueue, fun x => ?_, ?_, ?_⟩,
    again, hagain, htree, hquiet⟩
  -- what is created is new, and what is new lies below the summit and mounts
  · rw [hmade, hcreated, hgrown.mountsAt, promoted, Tree.createdAt_promote hget,
      ← Bool.not_eq_true]
    tauto
  · exact horder.imp fun hnot heq => hnot (.inl heq)
  · exact horder.imp fun hnot hanc => hnot (.inr (hlinks.ancestor hanc))

/-- Node 4 gets its view below node 3, which has none at first. -/
theorem escalation_effect_chains : ∃ done summit,
    escalate 4 ⟨Sample.chains, {}, []⟩ = .ok true done ∧ Sample.chains.Summit 4 summit ∧
      done.tree.createdAt 4 = true ∧
      ∃ again, escalate 4 done = .ok false again ∧ again.tree = done.tree := by
  have hworks : (match escalate 4 ⟨Sample.chains, {}, []⟩ with
      | .ok true _ => true
      | _ => false) = true := by decide +kernel
  split at hworks
  · next done hrun =>
    obtain ⟨summit, hsummit, -, -, -, -, -, hview, -, again, hagain, htree, -⟩ :=
      escalation_effect Sample.chains_reachable hrun
    exact ⟨done, summit, hrun, hsummit, hview, again, hagain, htree⟩
  · cases hworks

end Mount

end ShadowMount
