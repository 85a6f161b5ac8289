import ShadowMount.Proofs.Children.Acceptance
import ShadowMount.Proofs.Mount.Itinerary

/-!
# Quiescence

Bringing a subtree up to date a second time changes nothing: the visits are the same, and each of
them finds what was sent last. The exception is a frame that differs from itself, which is sent
again and again. In single precision these are the frames with a NaN among their coordinates.

* **`Tree.refreshItinerary`** — the visits that a refresh makes, read off the tree.
* **`Mount.refreshSubtree_again`**, **`Mount.runPass_again`** — a second refresh and a second pass,
  for any kind of coordinates.
* **`Mount.refresh_quiescent`** — the two for reachable trees in single precision.
-/

namespace ShadowMount

/-- Whether a coordinate of a frame is a NaN. -/
def Frame.hasNaN (frame : Frame Float32) : Bool :=
  frame.x.isNaN || frame.y.isNaN || frame.width.isNaN || frame.height.isNaN

/-- A frame differs from itself exactly if it has a NaN. -/
theorem Frame.same_self (frame : Frame Float32) : frame.same frame = !frame.hasNaN := by
  have hself : ∀ x : Float32, Coordinate.toBEq.beq x x = !x.isNaN := by
    intro x
    show x.toModel.unpack.beq x.toModel.unpack = !x.toModel.unpack.isNaN
    cases x.toModel.unpack with
    | notANumber => rfl
    | infinity sign => cases sign <;> rfl
    | zero sign => cases sign <;> rfl
    | finite sign mantissa exponent =>
      have hcompare : (compare exponent exponent).then (compare mantissa mantissa) = .eq := by simp
      cases sign with
      | positive => exact congrArg (some · == some Ordering.eq) hcompare
      | negative => exact congrArg (some ·.swap == some Ordering.eq) hcompare
  simp [Frame.same, Frame.hasNaN, hself, Bool.and_assoc]

namespace Tree

variable {κ : Type} [Coordinate κ] {tree : Tree κ} {tag : Tag}

/-- The visits that a refresh of the subtree of a node makes. -/
def refreshItinerary (tree : Tree κ) (tag : Tag) : List (Visit κ) :=
  if tree.isRoot tag then tree.itinerary tree.budget tag 0 0 none
  else match tree.nativeParent tag, tree.offsetInNativeParent tag with
    | .ok (some parent), .ok (dx, dy) =>
      tree.itinerary tree.budget tag dx dy (some parent) ++ [.children parent]
    | _, _ => []

/-- The frames, relative to native parents, that a refresh of the subtree of a node computes. -/
def refreshFrames (tree : Tree κ) (tag : Tag) : List (Frame κ) :=
  (tree.refreshItinerary tag).filterMap Visit.frame?

/-- A root is brought up to date from the origin, with nothing above it. -/
theorem refreshItinerary_of_root (h : tree.isRoot tag = true) :
    tree.refreshItinerary tag = tree.itinerary tree.budget tag 0 0 none :=
  if_pos h

/-- Any other node is brought up to date from where its native parent draws it, and the child list
of the parent comes last. -/
theorem refreshItinerary_of_parent {parent : Tag} {dx dy : κ} (hroot : tree.isRoot tag = false)
    (hparent : tree.nativeParent tag = .ok (some parent))
    (hoffset : tree.offsetInNativeParent tag = .ok (dx, dy)) : tree.refreshItinerary tag =
      tree.itinerary tree.budget tag dx dy (some parent) ++ [.children parent] := by
  rw [refreshItinerary, hroot, hparent, hoffset]
  rfl

/-- The itinerary is a matter of links, frames and which nodes mount, and none of these changes
while views are created. -/
theorem Grown.refreshItinerary {a b : Tree κ} (h : a.Grown b) (tag : Tag) :
    b.refreshItinerary tag = a.refreshItinerary tag := by
  simp only [Tree.refreshItinerary, isRoot, h.roots, h.nativeParent_eq, h.offsetInNativeParent,
    h.sameLinks.budget, h.itinerary]
  rfl

/-- No visit of an itinerary undoes what an earlier one was for. -/
theorem WellFormed.pairwise_refreshItinerary (hwf : tree.WellFormed) :
    (tree.refreshItinerary tag).Pairwise (Visit.Precedes tree) := by
  rw [refreshItinerary]
  split
  · exact hwf.pairwise_itinerary
  · split
    · exact Visit.Precedes.concat_children hwf.pairwise_itinerary _
    · exact .nil

/-- The itineraries of the roots, one after the other; their subtrees are disjoint. -/
theorem WellFormed.pairwise_refreshItineraries (hwf : tree.WellFormed) :
    (tree.roots.flatMap tree.refreshItinerary).Pairwise (Visit.Precedes tree) := by
  have hroots : tree.roots.flatMap tree.refreshItinerary =
      tree.roots.flatMap (tree.itinerary tree.budget · 0 0 none) := by
    exact List.flatMap_congr fun root hroot => refreshItinerary_of_root (isRoot_iff.mpr hroot)
  rw [hroots]
  refine hwf.pairwise_itineraries (fun root _ => hwf.pairwise_itinerary) ?_
  -- roots have no parent, so none lies below another, and their subtrees have no node in common
  refine hwf.roots_nodup.imp_of_mem fun {a b} ha hb hne x hax hbx => ?_
  have habove : ∀ {a b : Tag}, b ∈ tree.roots → a ≠ b → ¬ tree.InSubtree a b := by
    rintro a b hb hne (heq | hanc)
    · exact hne heq.symm
    · obtain ⟨p, hp, -⟩ := hanc.parent_inSubtree
      rw [hwf.root_parentless hb] at hp
      cases hp
  rcases inSubtree_comparable hax hbx with h | h
  · exact habove hb hne h
  · exact habove ha hne.symm h

/-- The subtree of a node hangs from a root or from a view, so that a refresh need not escalate. -/
def Supported (tree : Tree κ) (tag : Tag) : Prop :=
  tag ∈ tree.roots ∨ ∃ parent, tree.NativeParent tag parent ∧ tree.createdAt parent = true

omit [Coordinate κ] in
/-- What is supported stays so while views are created. -/
theorem Grown.supported {a b : Tree κ} (h : a.Grown b) (hsupported : a.Supported tag) :
    b.Supported tag := by
  rcases hsupported with hroot | ⟨parent, hparent, hview⟩
  · exact .inl (h.roots ▸ hroot)
  · exact .inr ⟨parent, h.nativeParent hparent, h.mono hview⟩

end Tree

namespace Mount

open MountM

variable {κ : Type} [Coordinate κ] {scene done : Scene κ} {tag : Tag}

/-- The child list that is sent last is the one remembered. -/
theorem Journey.children_last {visits : List (Visit κ)} {parent : Tag}
    (h : Journey (visits ++ [.children parent]) scene done) :
    done.tree.nativeChildren parent = .ok (done.mount.sent parent).children := by
  induction visits generalizing scene with
  | nil =>
    cases h with
    | cons hvisit hrest =>
      cases hrest
      cases hvisit with
      | children hchildren =>
        rw [MountState.sent_childrenSent, if_pos rfl]
        exact hchildren
  | cons visit visits ih =>
    cases h with
    | cons _ hrest => exact ih hrest

/-- Refreshing a supported subtree makes the visits of its itinerary, and leaves every child list
sent that was visited. -/
theorem refreshSubtree_journey (hwf : scene.tree.WellFormed) (hflags : scene.tree.FlagsSound)
    (h : scene.tree.Supported tag) : ∃ done, refreshSubtree tag scene = .ok () done ∧
      Journey (scene.tree.refreshItinerary tag) scene done ∧
      scene.tree.Grown done.tree ∧ ∀ x, .children x ∈ scene.tree.refreshItinerary tag →
        done.tree.nativeChildren x = .ok (done.mount.sent x).children := by
  -- after a reconciliation every child list visited in the subtree is the one last sent
  have hsettled : ∀ {done : Scene κ} {dx dy : κ} {above : Option Tag},
      scene.tree.Grown done.tree → Settled done tag → ∀ x,
        .children x ∈ scene.tree.itinerary scene.tree.budget tag dx dy above →
          done.tree.nativeChildren x = .ok (done.mount.sent x).children := by
    intro done dx dy above hgrown hsettled x hx
    obtain ⟨hsub, hmounts⟩ := hwf.itinerary_inside hx
    exact (hsettled x (hgrown.sameLinks.inSubtree_iff.mpr hsub)
      ((hgrown.mountsAt x).trans hmounts)).2
  -- a root is reconciled by itself, and any other supported node below its native parent
  rcases h with hroot | ⟨parent, hparent, hview⟩
  · have hisRoot := Tree.isRoot_iff.mpr hroot
    have hview := hflags.root_created hroot
    obtain ⟨done, hok, hrun, hdone⟩ := @reconcileSubtree_ok _ _ scene hwf tag 0 0 none
      ⟨hflags.mountsAt_of_createdAt hview, hview⟩ (hwf.root_contained hroot)
    obtain ⟨done', hok', hjourney⟩ :=
      reconcileSubtree_journey hwf 0 0 none (hwf.root_contained hroot)
    obtain rfl : done' = done := (EStateM.Result.ok.inj (hok'.symm.trans hok)).2
    rw [Tree.refreshItinerary_of_root hisRoot]
    refine ⟨done', ?_, hjourney, Run.grown hrun, hsettled (Run.grown hrun) hdone⟩
    rw [refreshSubtree, get_bind, if_pos hisRoot]
    exact hok'
  · have hisRoot := hwf.not_root_of_nativeParent hparent
    have hquery := Tree.nativeParent_eq_some hwf hparent
    obtain ⟨⟨dx, dy⟩, hoffset⟩ := Tree.offsetInNativeParent_ok hwf hparent.ancestor.contains
    obtain ⟨done, hok, hrun, hdone⟩ := reconcileBelow_ok hwf hparent hview
    obtain ⟨done', hok', hjourney⟩ := reconcileBelow_journey hwf hparent hoffset
    obtain rfl : done' = done := (EStateM.Result.ok.inj (hok'.symm.trans hok)).2
    rw [Tree.refreshItinerary_of_parent hisRoot hquery hoffset]
    refine ⟨done', (refreshSubtree_of_parent hwf hparent hview).trans hok', hjourney,
      Run.grown hrun, fun x hx => ?_⟩
    rcases List.mem_append.mp hx with hx | hx
    · exact hsettled (Run.grown hrun) hdone x hx
    -- beside the subtree there is one more list, that of the native parent, which is sent last
    · obtain rfl := Visit.children.inj (List.mem_singleton.mp hx)
      exact hjourney.children_last

/-- A refresh that succeeds is one of a supported subtree, once the views above exist. -/
theorem refreshSubtree_supports (hwf : scene.tree.WellFormed) (hflags : scene.tree.FlagsSound)
    (h : refreshSubtree tag scene = .ok () done) :
    ∃ mid, scene.tree.Grown mid.tree ∧ mid.tree.Supported tag ∧
      refreshSubtree tag mid = .ok () done := by
  by_cases hroot : tag ∈ scene.tree.roots
  -- what is neither a root nor below a mounting node cannot be refreshed at all
  · exact ⟨scene, .refl _, .inl hroot, h⟩
  by_cases hparent : ∃ p, scene.tree.NativeParent tag p
  · obtain ⟨p, hp⟩ := hparent
    cases hview : scene.tree.createdAt p with
    | true => exact ⟨scene, .refl _, .inr ⟨p, hp, hview⟩, h⟩
    -- the native parent has no view yet, so it has escalated first; what came then is the refresh
    -- of a supported subtree
    | false =>
      rw [refreshSubtree_of_uncreated hwf hp hview] at h
      rcases escalate_mounting hwf hflags hp.2 with ⟨err, herr⟩ | ⟨mid, hmid, hrun, hup⟩
      · rw [bind_of_error (discard_of_error herr)] at h
        cases h
      · rw [bind_of_ok (discard_of_ok hmid)] at h
        have hgrown := Run.grown hrun
        have hp' := hgrown.nativeParent hp
        refine ⟨mid, hgrown, .inr ⟨p, hp', hup.view⟩, ?_⟩
        rw [refreshSubtree_of_parent (hgrown.sameLinks.wellFormed hwf) hp' hup.view]
        exact h
  · obtain ⟨err, herr, -⟩ := refreshSubtree_of_loose hwf hroot fun p hp => hparent ⟨p, hp⟩
    rw [herr] at h
    cases h

/-- Refreshing a subtree a second time changes nothing. -/
theorem refreshSubtree_again (hwf : scene.tree.WellFormed) (hflags : scene.tree.FlagsSound)
    (h : refreshSubtree tag scene = .ok () done)
    (hsame : ∀ frame ∈ scene.tree.refreshFrames tag, frame.same frame = true) :
    refreshSubtree tag done = .ok () done := by
  obtain ⟨mid, hgrown, hsupported, hmid⟩ := refreshSubtree_supports hwf hflags h
  have hwf' := hgrown.sameLinks.wellFormed hwf
  have hflags' := hgrown.flagsSound hflags
  obtain ⟨done', hok, hjourney, hgrown', hchildren⟩ :=
    refreshSubtree_journey hwf' hflags' hsupported
  obtain rfl : done' = done := (EStateM.Result.ok.inj (hok.symm.trans hmid)).2
  obtain ⟨again, hagain, hback, -⟩ := refreshSubtree_journey (hgrown'.sameLinks.wellFormed hwf')
    (hgrown'.flagsSound hflags') (hgrown'.supported hsupported)
  rw [hgrown'.refreshItinerary] at hback
  rw [Tree.refreshFrames, ← hgrown.refreshItinerary] at hsame
  rw [hagain, hback.eq_of_current
    (hjourney.current hwf'.pairwise_refreshItinerary hsame hchildren)]

/-! ## Passes

A pass refreshes one root after the other. After the first pass every visit on the itinerary of
every root is current, and the itineraries have not changed, so the second pass finds nothing to
send. -/

/-- Bringing some roots up to date makes the visits of their itineraries, one root after the
other. -/
theorem refreshRoots_journey : ∀ {roots : List Tag} {scene : Scene κ}, scene.tree.WellFormed →
    scene.tree.FlagsSound → (∀ root ∈ roots, root ∈ scene.tree.roots) →
      ∃ done, roots.forM refreshSubtree scene = .ok () done ∧
        Journey (roots.flatMap scene.tree.refreshItinerary) scene done
  | [], scene, _, _, _ => ⟨scene, rfl, .nil scene⟩
  | root :: rest, scene, hwf, hflags, hroots => by
    obtain ⟨mid, hfirst, hjourney, hgrown, -⟩ :=
      refreshSubtree_journey hwf hflags (.inl (hroots root (List.mem_cons_self ..)))
    obtain ⟨done, hrest, hjourney'⟩ := refreshRoots_journey (hgrown.sameLinks.wellFormed hwf)
      (hgrown.flagsSound hflags) fun r hr => hgrown.roots ▸ hroots r (List.mem_cons_of_mem _ hr)
    rw [funext hgrown.refreshItinerary] at hjourney'
    refine ⟨done, (forM_cons_of_ok hfirst).trans hrest, ?_⟩
    rw [List.flatMap_cons]
    exact hjourney.append hjourney'

/-- Once all roots were brought up to date, everything on their itineraries is as it should be. -/
theorem refreshRoots_current (hwf : scene.tree.WellFormed) (hflags : scene.tree.FlagsSound)
    (hsame : ∀ root ∈ scene.tree.roots, ∀ frame ∈ scene.tree.refreshFrames root,
      frame.same frame = true) :
    ∃ done, refreshRoots scene = .ok () done ∧ scene.tree.Grown done.tree ∧
      ∀ visit ∈ scene.tree.roots.flatMap scene.tree.refreshItinerary, Current done visit := by
  obtain ⟨done, hok, hrun, hsettled⟩ := refreshRoots_ok hwf hflags
  obtain ⟨done', hok', hjourney⟩ := refreshRoots_journey hwf hflags fun _ h => h
  obtain rfl : done' = done := (EStateM.Result.ok.inj (hok'.symm.trans hok)).2
  have hgrown := Run.grown hrun
  refine ⟨done', hok, hgrown, hjourney.current hwf.pairwise_refreshItineraries ?_ ?_⟩
  -- the frames of the pass are those of the roots
  · intro frame hframe
    rw [List.filterMap_flatMap] at hframe
    obtain ⟨root, hroot, hframe⟩ := List.mem_flatMap.mp hframe
    exact hsame root hroot frame hframe
  -- the lists of the pass are those of mounting nodes below roots, all of which are settled
  · intro x hx
    obtain ⟨root, hroot, hx⟩ := List.mem_flatMap.mp hx
    rw [Tree.refreshItinerary_of_root (Tree.isRoot_iff.mpr hroot)] at hx
    obtain ⟨hsub, hmounts⟩ := hwf.itinerary_inside hx
    exact (hsettled root hroot x (hgrown.sameLinks.inSubtree_iff.mpr hsub)
      ((hgrown.mountsAt x).trans hmounts)).2

/-- Bringing all roots up to date changes nothing where everything is as it should be. -/
theorem refreshRoots_of_current (hwf : scene.tree.WellFormed) (hflags : scene.tree.FlagsSound)
    (hcurrent : ∀ visit ∈ scene.tree.roots.flatMap scene.tree.refreshItinerary,
      Current scene visit) : refreshRoots scene = .ok () scene := by
  obtain ⟨done, hok, hjourney⟩ := refreshRoots_journey hwf hflags fun _ h => h
  obtain rfl := hjourney.eq_of_current hcurrent
  exact hok

/-- A second pass flushes nothing and changes nothing. -/
theorem runPass_again (hwf : scene.tree.WellFormed) (hflags : scene.tree.FlagsSound)
    (hclosed : scene.mount.passOpen = false)
    (hsame : ∀ root ∈ scene.tree.roots, ∀ frame ∈ scene.tree.refreshFrames root,
      frame.same frame = true) :
    runPass (runPass scene).2 =
      ({ result := .ok 0, flush := some ⟨[], []⟩ }, (runPass scene).2) := by
  obtain ⟨done, hok, hgrown, hcurrent⟩ := @refreshRoots_current _ _
    { scene with mount := { scene.mount with passOpen := true } } hwf hflags hsame
  rw [runPass_of_refreshed hclosed hok]
  -- closing a pass leaves what was sent as it is
  have hback : refreshRoots { done with
      mount := { done.mount.closePass.2 with passOpen := true } } = .ok () { done with
        mount := { done.mount.closePass.2 with passOpen := true } } := by
    refine refreshRoots_of_current (hgrown.sameLinks.wellFormed hwf) (hgrown.flagsSound hflags) ?_
    rw [show done.tree.roots = _ from hgrown.roots, funext hgrown.refreshItinerary]
    intro visit hvisit
    have hvisited := hcurrent visit hvisit
    cases visit <;> exact hvisited
  rw [runPass_of_refreshed rfl hback]
  rfl

/-- Refreshing a subtree that was just refreshed succeeds and changes nothing at all, and a pass
right after a pass flushes nothing and reports no frame, as long as no frame with a NaN is
computed. -/
theorem refresh_quiescent {tree : Tree Float32} (h : tree.Reachable) (mount : MountState Float32)
    (log : List Log.Line) :
    (∀ tag done, refreshSubtree tag ⟨tree, mount, log⟩ = .ok () done →
      (∀ frame ∈ tree.refreshFrames tag, frame.hasNaN = false) →
        refreshSubtree tag done = .ok () done) ∧
    (mount.passOpen = false →
      (∀ root ∈ tree.roots, ∀ frame ∈ tree.refreshFrames root, frame.hasNaN = false) →
        let after := (runPass ⟨tree, mount, log⟩).2
        (∃ count, (runPass ⟨tree, mount, log⟩).1.result = .ok count) ∧
          runPass after = ({ result := .ok 0, flush := some ⟨[], []⟩ }, after)) := by
  have hsound := h.sound
  have hsame : ∀ {frame : Frame Float32}, frame.hasNaN = false → frame.same frame = true := by
    intro frame hframe
    rw [Frame.same_self, hframe]
    rfl
  -- a refresh is repeated as it is, and a pass is one of a tree in which it can only succeed
  refine ⟨fun tag done hok hframes => ?_, fun hclosed hframes => ?_⟩
  · exact refreshSubtree_again hsound.wellFormed hsound.flags hok
      fun frame hframe => hsame (hframes frame hframe)
  · obtain ⟨done, -, -, hpass⟩ :=
      @runPass_ok _ ⟨tree, mount, log⟩ _ hsound.wellFormed hsound.flags hclosed
    refine ⟨⟨_, congrArg (·.1.result) hpass⟩, ?_⟩
    exact runPass_again hsound.wellFormed hsound.flags hclosed
      fun root hroot frame hframe => hsame (hframes root hroot frame hframe)

end Mount

namespace Sample

/-- A detached node that always mounts. -/
def mounting (tag : Tag) : CoreCall Float32 :=
  .register (.fresh tag 1 "View" .viewMounting) ⟨rfl, rfl, nofun, nofun, fun _ => rfl⟩

/-- A root above the chain 2, 3, 4, 5, in which 3 and 5 mount, and the detached chain 6, 7, in which
6 mounts. Only the root has a view. -/
def chains : Tree Float32 :=
  [.registerRoot 1 "Root" 0 0, plain 2, mounting 3, plain 4, mounting 5, mounting 6, plain 7,
    .attach 1 2 0, .attach 2 3 0, .attach 3 4 0, .attach 4 5 0, .attach 6 7 0,
    .setFrame 2 ⟨10, 20, 30, 40⟩, .setFrame 4 ⟨1, 2, 3, 4⟩].foldl
    (fun tree call => (leaves call.run ⟨tree, {}, []⟩).tree) .empty

theorem chains_reachable : chains.Reachable := Tree.Reachable.calls {} [] _ .empty

end Sample

/-- Node 5 is refreshed twice, its native parent without a view at first, and two passes follow one
another. -/
theorem Mount.refresh_quiescent_chains :
    (∃ done, refreshSubtree 5 ⟨Sample.chains, {}, []⟩ = .ok () done ∧
      refreshSubtree 5 done = .ok () done) ∧
    runPass (runPass ⟨Sample.chains, {}, []⟩).2 =
      ({ result := .ok 0, flush := some ⟨[], []⟩ }, (runPass ⟨Sample.chains, {}, []⟩).2) := by
  obtain ⟨hrefresh, hpass⟩ := refresh_quiescent Sample.chains_reachable {} []
  refine ⟨?_, (hpass rfl (by decide +kernel)).2⟩
  have hok : (match refreshSubtree 5 ⟨Sample.chains, {}, []⟩ with
      | .ok .. => true
      | .error .. => false) = true := by decide +kernel
  cases hrun : refreshSubtree 5 ⟨Sample.chains, {}, []⟩ with
  | ok answer done => exact ⟨done, rfl, hrefresh 5 done hrun (by decide +kernel)⟩
  | error err failed =>
    rw [hrun] at hok
    cases hok

end ShadowMount
