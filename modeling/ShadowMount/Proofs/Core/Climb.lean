import ShadowMount.Proofs.Core.Escalation
import ShadowMount.Proofs.Mount.Journeys

/-!
# The visits of an escalation

An escalation goes up from native parent to native parent until it meets a view. It then refreshes
this view and, on the way back, reconciles the nodes that it passed, from the top down. As with
reconciliation, the visits can be read off the tree: they depend neither on what was sent before nor
on the log.

* **`Tree.Climb`** — the way up and the visits it leads to.
* **`Climb.parts`** — the refresh of the view comes first, and all the rest is provided with the
  views it needs.
* **`Mount.escalateWithin_climbs`** — an escalation that succeeds with one mount state succeeds with
  every mount state, and is the journey along its climb, in the tree with the node promoted.
-/

namespace ShadowMount

namespace Tree

variable {κ : Type} [Coordinate κ] {tree : Tree κ} {t a p : Tag} {visits : List (Visit κ)}

/-- `Climb tree t a visits`: from `t`, going from native parent to native parent, the first view is
that of `a`. `visits` refresh it and then reconcile the nodes on the way, from the top down. -/
inductive Climb (tree : Tree κ) : Tag → Tag → List (Visit κ) → Prop
  | view {t : Tag} (hview : tree.createdAt t = true) : Climb tree t t (tree.viewItinerary t)
  | up {t p a : Tag} {visits : List (Visit κ)} (hview : tree.createdAt t = false)
      (hmounts : tree.mountsAt t = true) (hparent : tree.NativeParent t p)
      (habove : Climb tree p a visits) : Climb tree t a (visits ++ tree.refreshItinerary t)

/-- The refresh of a subtree that hangs from a view or from a node that is to get one. -/
theorem WellFormed.refreshItinerary_below (hwf : tree.WellFormed)
    (hparent : tree.NativeParent t p) : ∃ dx dy,
      tree.offsetInNativeParent t = .ok (dx, dy) ∧ tree.refreshItinerary t =
        tree.itinerary tree.budget t dx dy (some p) ++ [.children p] := by
  obtain ⟨⟨dx, dy⟩, hoffset⟩ := offsetInNativeParent_ok hwf hparent.ancestor.contains
  exact ⟨dx, dy, hoffset, refreshItinerary_of_parent (hwf.not_root_of_nativeParent hparent)
    (nativeParent_eq_some hwf hparent) hoffset⟩

/-- Below a native parent a refresh visits only nodes that mount. -/
theorem WellFormed.refreshItinerary_mounts (hwf : tree.WellFormed)
    (hparent : tree.NativeParent t p) {visit : Visit κ} (h : visit ∈ tree.refreshItinerary t) :
    tree.mountsAt visit.tag = true := by
  obtain ⟨dx, dy, -, hvisits⟩ := hwf.refreshItinerary_below hparent
  rw [hvisits, List.mem_append, List.mem_singleton] at h
  rcases h with h | rfl
  · exact (hwf.itinerary_inside h).2
  · exact hparent.2

namespace Climb

/-- A climb visits only nodes that mount: the view at its top has a node that does, and the others
mount to get theirs. -/
theorem mounts (h : tree.Climb t a visits) (hwf : tree.WellFormed) (hflags : tree.FlagsSound) :
    ∀ visit ∈ visits, tree.mountsAt visit.tag = true := by
  induction h with
  | view hview =>
    intro visit hvisit
    rw [(tag_of_mem_viewItinerary hvisit).1]
    exact hflags.mountsAt_of_createdAt hview
  | up _ _ hparent _ ih =>
    intro visit hvisit
    rcases List.mem_append.mp hvisit with hvisit | hvisit
    · exact ih visit hvisit
    · exact hwf.refreshItinerary_mounts hparent hvisit

/-- A climb starts with the refresh of the view it has met. What follows is provided with the views
that its frames need, and the node has its view at the end. -/
theorem parts (h : tree.Climb t a visits) (hwf : tree.WellFormed) : ∃ rest,
    visits = tree.viewItinerary a ++ rest ∧
    (∀ {needs : Visit κ → Tag → Prop}, Visit.OnlyFrames needs →
      Visit.Provided needs (tree.createdAt · = true) rest) ∧
    (tree.createdAt t = true ∨ t ∈ rest.filterMap Visit.view?) ∧
    tree.createdAt a = true ∧ (t = a → rest = []) := by
  induction h with
  -- the climb is over at once, and the refresh of the view is all of it
  | view hview => exact ⟨[], by simp, fun _ => .nil _, .inl hview, hview, fun _ => rfl⟩
  | @up t p a visits hview hmounts hparent habove ih =>
    -- by induction up the climb; the node itself is reconciled last
    obtain ⟨rest, rfl, hprovided, hp, ha, -⟩ := ih
    obtain ⟨dx, dy, -, hvisits⟩ := hwf.refreshItinerary_below hparent
    refine ⟨rest ++ tree.refreshItinerary t, by rw [List.append_assoc], fun hneeds => ?_, .inr ?_,
      ha, ?_⟩
    · rw [hvisits]
      -- the native parent has its view by then, which is all that the frames of this subtree need
      refine (hprovided hneeds).append (.append_same (provided_itinerary hneeds ?_)
        (.children hneeds p))
      rintro _ ⟨⟩
      exact hp
    -- the node is one of its own subtree, so its view is created if it is not there
    · have ht := hparent.ancestor.contains
      obtain ⟨hviews, -⟩ := hwf.views_itinerary dx dy (some p) ht
      rw [hvisits, List.filterMap_append, List.filterMap_append, List.mem_append, List.mem_append]
      exact .inr (.inl ((hviews t).mpr ⟨.refl t, hmounts⟩))
    · rintro rfl
      rw [hview] at ha
      cases ha

end Climb

end Tree

namespace Mount

open MountM

variable {κ : Type} [Coordinate κ] {scene done : Scene κ} {tag parent : Tag} {found : Node κ}
  {steps : Nat}

/-- The escalation of a node without a view succeeds only if that of its native parent does. -/
theorem escalateWithin_above {answer : Bool} (hget : scene.tree.get? tag = some found)
    (hvirtual : found.isVirtual = false) (hcreated : found.created = false)
    (hparent : scene.tree.nativeParent tag = .ok (some parent))
    (h : escalateWithin (steps + 1) tag scene = .ok answer done) :
    ∃ flag mid, escalateWithin steps parent (promoted scene tag found) = .ok flag mid := by
  unfold escalateWithin at h
  rw [bind_of_ok (node_of_get? hget), hvirtual, if_neg Bool.false_ne_true, hcreated,
    if_neg Bool.false_ne_true, bind_of_ok (query_of_ok hparent)] at h
  change (onTree (Tree.promote tag) >>= _ : MountM κ Bool) scene = _ at h
  rw [bind_of_ok (onTree_of_ok (Tree.promote_of_get? hget))] at h
  change (onFailure (escalateWithin steps parent) _ >>= _ : MountM κ Bool)
    (promoted scene tag found) = _ at h
  generalize hrun : onFailure (escalateWithin steps parent) _ (promoted scene tag found) = run at h
  cases run with
  | ok flag mid => exact ⟨flag, mid, ok_of_onFailure hrun⟩
  | error err failed =>
    rw [bind_of_error hrun] at h
    cases h

/-- Reconciling below a native parent, once more in terms of the tree before views were created. -/
theorem reconcileBelow_refreshes {tree : Tree κ} (hwf : tree.WellFormed)
    (hgrown : tree.Grown scene.tree) (hparent : tree.NativeParent tag parent) :
    ∃ done, reconcileBelow tag parent scene = .ok () done ∧
      Journey (tree.refreshItinerary tag) scene done := by
  have hwf' := hgrown.sameLinks.wellFormed hwf
  have hparent' := hgrown.nativeParent hparent
  obtain ⟨dx, dy, hoffset, hvisits⟩ := hwf'.refreshItinerary_below hparent'
  rw [← hgrown.refreshItinerary, hvisits]
  exact reconcileBelow_journey hwf' hparent' hoffset

/-- With so many steps allowed, the escalation of a node answers `answer` and is the journey along a
climb, whatever the mount state and the log. -/
def Climbs (steps : Nat) (tag : Tag) (tree : Tree κ) (answer : Bool) : Prop :=
  ∃ found a visits, tree.get? tag = some found ∧ found.isVirtual = false ∧
    (tree.store tag found.promote).Climb tag a visits ∧ ∀ mount log, ∃ done,
      escalateWithin steps tag ⟨tree, mount, log⟩ = .ok answer done ∧
        Journey visits ⟨tree.store tag found.promote, mount, log⟩ { done with log }

/-- The answer is the same with every mount state. -/
theorem Climbs.answer {tree : Tree κ} {mount : MountState κ} {log : List Log.Line}
    {answer other : Bool} (h : Climbs steps tag tree answer)
    (hok : escalateWithin steps tag ⟨tree, mount, log⟩ = .ok other done) :
    Climbs steps tag tree other := by
  obtain ⟨found, a, visits, hget, hvirtual, hclimb, hruns⟩ := h
  obtain ⟨done', hok', -⟩ := hruns mount log
  rw [hok'] at hok
  cases hok
  exact ⟨found, a, visits, hget, hvirtual, hclimb, hruns⟩

/-- A view that exists is refreshed. -/
theorem climbs_of_created {tree : Tree κ} (hwf : tree.WellFormed) (hflags : tree.FlagsSound)
    (hget : tree.get? tag = some found) (hvirtual : found.isVirtual = false)
    (hcreated : found.created = true) : Climbs (steps + 1) tag tree false := by
  have hsame : tree.store tag found.promote = tree := by
    rw [Node.promote_of_mounts (hflags.created_mounts hget hcreated), Tree.store_get? hget]
  refine ⟨found, tag, tree.viewItinerary tag, hget, hvirtual, ?_, fun mount log => ?_⟩
  · rw [hsame]
    exact .view ((Tree.createdAt_of_get? hget).trans hcreated)
  · obtain ⟨done, hrefresh, hjourney⟩ :=
      @refreshView_journey _ _ ⟨tree, mount, log⟩ hwf tag (Tree.contains_of_get? hget)
    rw [hsame]
    exact ⟨done, escalateWithin_of_created hget hvirtual hcreated hrefresh, hjourney.relog log⟩

/-- A node without a view is reconciled below its native parent, once that one was escalated. -/
theorem Climbs.below {tree : Tree κ} {flag : Bool} (hwf : tree.WellFormed)
    (hflags : tree.FlagsSound) (hget : tree.get? tag = some found)
    (hvirtual : found.isVirtual = false) (hcreated : found.created = false)
    (hparent : tree.NativeParent tag parent)
    (h : Climbs steps parent (tree.store tag found.promote) flag) :
    Climbs (steps + 1) tag tree true := by
  have hkept := Tree.kept_promote hget
  have hwf' := hkept.links.wellFormed hwf
  have hparent' := (Tree.nativeParent_promote_iff hwf hget (.refl tag)).mpr hparent
  obtain ⟨above, a, visits, habove, -, hclimb, hruns⟩ := h
  -- the native parent mounts already, so only the node itself is promoted
  have hsame : (tree.store tag found.promote).store parent above.promote =
      tree.store tag found.promote := by
    have hmounts := (Tree.mountsAt_of_get? habove).symm.trans hparent'.2
    rw [Node.promote_of_mounts hmounts, Tree.store_get? habove]
  rw [hsame] at hclimb hruns
  refine ⟨found, a, visits ++ (tree.store tag found.promote).refreshItinerary tag, hget, hvirtual,
    .up ?_ ?_ hparent' hclimb, fun mount log => ?_⟩
  -- the promotion makes no view, so the node has none in either tree
  · rw [Tree.createdAt_promote hget, Tree.createdAt_of_get? hget, hcreated]
  · rw [Node.isVirtual] at hvirtual
    rw [Tree.mountsAt_store, if_pos rfl, Node.mounts_promote, bne, hvirtual]
    exact Bool.or_true _
  -- from there on the run is that of the native parent, followed by the reconciliation
  · obtain ⟨mid, hmid, hjourney⟩ := hruns mount log
    obtain ⟨log', hlast⟩ := @escalateWithin_of_success _ _ ⟨tree, mount, log⟩ mid tag parent found
      steps hget hvirtual hcreated flag (Tree.nativeParent_eq_some hwf hparent) hmid
    have hgrown := hjourney.grown (hclimb.mounts hwf' (hkept.flags hflags))
    obtain ⟨done, hbelow, hjourney'⟩ :=
      @reconcileBelow_refreshes _ _ { mid with log := log' } tag parent _ hwf' hgrown hparent'
    exact ⟨done, hlast hbelow, hjourney.append (hjourney'.relog log)⟩

/-- An escalation that succeeds with one mount state succeeds with all, along the same climb. -/
theorem escalateWithin_climbs : ∀ {steps : Nat} {tag : Tag} {tree : Tree κ} {mount : MountState κ}
    {log : List Log.Line} {answer : Bool} {done : Scene κ}, tree.WellFormed → tree.FlagsSound →
    escalateWithin steps tag ⟨tree, mount, log⟩ = .ok answer done → Climbs steps tag tree answer
  | 0, _, _, _, _, _, _, _, _, h => nomatch h
  | steps + 1, tag, tree, mount, log, answer, done, hwf, hflags, h => by
    -- an escalation that fails at once is none that succeeds
    cases hget : tree.get? tag with
    | none =>
      rw [escalateWithin_of_missing hget] at h
      cases h
    | some found =>
      cases hvirtual : found.isVirtual with
      | true =>
        rw [escalateWithin_of_virtual hget hvirtual] at h
        cases h
      | false =>
        cases hcreated : found.created with
        | true => exact (climbs_of_created hwf hflags hget hvirtual hcreated).answer h
        | false =>
          rcases Tree.nativeParent_cases hwf (Tree.contains_of_get? hget) with
            ⟨p, hquery, hp⟩ | ⟨hquery, -⟩
          -- one that fails above is none either, so what happened above is a climb
          · obtain ⟨flag, mid, hmid⟩ := escalateWithin_above hget hvirtual hcreated hquery h
            have hkept := Tree.kept_promote hget
            have habove :=
              escalateWithin_climbs (hkept.links.wellFormed hwf) (hkept.flags hflags) hmid
            exact (habove.below hwf hflags hget hvirtual hcreated hp).answer h
          · rw [escalateWithin_of_unparented hget hvirtual hcreated hquery] at h
            cases h

end Mount

end ShadowMount
