import ShadowMount.Proofs.Ui.LastFrames

/-!
# The parents that frames name

A frame is sent only if it differs from the last one that was sent. When a node in between is
promoted, a view gets another native parent; if its frame is the same inside that one, nothing is
sent, and the last frame still names the old parent.

* **`Tree.Sound.exists_frame`**, **`Mount.refreshed_frame`** — a pass computes the frame of every
  view, and remembers that frame or one that is the same.
* **`Ui.frame_names_parent_iff`** — after a pass the last frame of a view names its native parent,
  unless the view of that parent is younger; then the frame is right all the same.
* **`Ui.frame_names_former_parent`** — a run in which the parent is younger.
-/

namespace ShadowMount

open Native

variable {κ : Type}

/-! ## Passes

A pass visits every view below the roots and computes its frame inside its native parent. If the
frame differs from the one remembered it is sent, with the parent; if not, the frame that was sent
before is the last one, whatever parent it names. -/

section Passes

variable [Coordinate κ] {scene : Scene κ} {tag : Tag}

/-- A pass visits the frame of every view below a root. -/
theorem Tree.Sound.exists_frame {tree : Tree κ} (hsound : tree.Sound)
    (hattached : tree.Attached tag) (hmounts : tree.mountsAt tag = true)
    (hroot : tag ∉ tree.roots) : ∃ parent computed,
      .frame tag parent computed ∈ tree.roots.flatMap tree.refreshItinerary ∧
        tree.NativeParent tag parent := by
  have hwf := hsound.wellFormed
  obtain ⟨root, hmem, hsub⟩ := hattached
  have htop := hsound.flags.mountsAt_of_createdAt (hsound.flags.root_created hmem)
  have hne : tag ≠ root := fun heq => hroot (heq ▸ hmem)
  obtain ⟨parent, computed, hframe⟩ :=
    hwf.exists_frame_itinerary (hwf.root_contained hmem) (fun _ => ⟨htop, hne⟩) hsub hmounts
  refine ⟨parent, computed, List.mem_flatMap.mpr ⟨root, hmem, ?_⟩,
    hwf.nativeParent_itinerary ?_ hframe⟩
  · rw [refreshItinerary_of_root (isRoot_iff.mpr hmem)]
    exact hframe
  · exact nofun

/-- Bringing roots up to date adds views and flags, and nothing else. -/
theorem Mount.grown_refreshed (hsound : scene.tree.Sound) :
    scene.tree.Grown scene.refreshed.tree := by
  obtain ⟨done, hrefresh, hrun, -⟩ :=
    @refreshRoots_ok _ _ scene.opened hsound.wellFormed hsound.flags
  have hgrown : scene.opened.tree.Grown done.tree := Run.grown hrun
  rwa [Scene.refreshed, leaves_of_ok hrefresh]

/-- After a pass the frame that is remembered for a view is the one that was computed, or that one
was sent. -/
theorem Mount.refreshed_frame (hsound : scene.tree.Sound) {parent : Tag} {computed : Frame κ}
    (hvisit : .frame tag parent computed ∈
      scene.refreshed.tree.roots.flatMap scene.refreshed.tree.refreshItinerary) :
    ∃ frame, (scene.refreshed.mount.sent tag).frame = some frame ∧
      (frame.same computed = true ∨ ∃ earlier later,
        scene.refreshed.mount.queue = earlier ++ .setFrame tag parent computed :: later ∧
          later.filterMap (Operation.frameFor? tag) = []) := by
  have hgrown := grown_refreshed hsound
  -- the itinerary is the same before and after, as it only depends on what the pass keeps
  rw [hgrown.roots, funext hgrown.refreshItinerary] at hvisit
  obtain ⟨hrefresh, -⟩ := refreshRoots_refreshed hsound
  have hjourney := (refreshRoots_follows hsound).journey hrefresh
  have horder := hsound.wellFormed.pairwise_refreshItineraries
  -- split the journey at the visit: no other frame for this tag is computed after it
  obtain ⟨before, rest, hsplit⟩ := List.append_of_mem hvisit
  rw [hsplit] at hjourney horder
  obtain ⟨mid, -, hjourney⟩ := hjourney.split
  have hlater := (List.pairwise_cons.mp (List.pairwise_append.mp horder).2.1).1
  cases hjourney with
  | cons hframe hrest =>
  cases hframe
  have hkept := hrest.sent_frame_kept hlater
  obtain ⟨operations, hqueue, hnone⟩ := hrest.no_frame fun other frame hmem => hlater _ hmem rfl
  dsimp only at hkept hqueue
  rw [hkept, hqueue]
  unfold MountState.frameSent
  -- the frame is remembered already and not sent, or it is sent now and the last one
  split
  · next hknown =>
    obtain ⟨frame, hremembered, hsame⟩ := (Option.any_eq_true _ _).mp hknown
    exact ⟨frame, hremembered, .inl hsame⟩
  · refine ⟨computed, ?_, .inr ⟨mid.mount.queue, operations, ?_, hnone⟩⟩
    · show ((mid.mount.remember tag _).sent tag).frame = _
      rw [MountState.sent_remember, if_pos rfl]
    · show mid.mount.queue ++ [_] ++ operations = _
      rw [List.append_assoc]
      rfl

/-- The last frame of a view once a pass is over, and what it names. -/
theorem Scene.Framed.names_parent {log : List Log.Line} {past executed : List (Operation κ)}
    (h : Scene.Framed ⟨scene.refreshed.tree, scene.refreshed.mount.closePass.2, log⟩ executed)
    (hexecuted : executed = past ++ scene.refreshed.mount.closePass.1.operations)
    (hsound : scene.tree.Sound) (hanchored : scene.refreshed.tree.Anchored)
    (hview : scene.refreshed.tree.createdAt tag = true) (hroot : tag ∉ scene.refreshed.tree.roots) :
    ∃ parent earlier named frame later, scene.refreshed.tree.NativeParent tag parent ∧
      executed = earlier ++ .setFrame tag named frame :: later ∧
      scene.refreshed.tree.Framing tag named later ∧
      (named ≠ parent → ∃ computed, .frame tag parent computed ∈
        scene.refreshed.tree.roots.flatMap scene.refreshed.tree.refreshItinerary ∧
          frame.same computed = true) := by
  -- the node of the view is on the itinerary of the pass, below its native parent
  have hrefreshed := hsound.kept (Mount.grown_refreshed hsound).kept
  obtain ⟨parent, computed, hvisit, hparent⟩ := hrefreshed.exists_frame (hanchored.attached hview)
    (hrefreshed.flags.mountsAt_of_createdAt hview) hroot
  obtain ⟨frame, hremembered, hcomputed⟩ := Mount.refreshed_frame hsound hvisit
  -- the last frame that was executed is the one that is remembered
  obtain ⟨earlier, named, later, heq, hframing⟩ := h tag frame hview hroot hremembered
  have heq : executed = earlier ++ .setFrame tag named frame :: later :=
    (List.append_nil _).symm.trans heq
  refine ⟨parent, earlier, named, frame, later, hparent, heq, hframing, fun hother => ?_⟩
  rcases hcomputed with hsame | ⟨before, after, hqueue, hnone⟩
  · exact ⟨computed, hvisit, hsame⟩
  · -- the pass has sent the frame, so it is the last one and names the native parent
    have hneutral := @PendingDrop.neutral_operations κ scene.refreshed.mount.drops
    have hdrops := Operation.filterMap_frameFor?_of_neutral hneutral tag
    -- it lies in the flush of this pass, with drops behind it that frame nothing
    have hsends : executed = (past ++ before) ++ .setFrame tag parent computed ::
        (after ++ scene.refreshed.mount.drops.map PendingDrop.operation) := by
      rw [hexecuted]
      show past ++ (scene.refreshed.mount.queue ++ _) = _
      rw [hqueue]
      simp
    have hlast : (executed.filterMap (Operation.frameFor? tag)).getLast? = some (named, frame) := by
      rw [heq]
      exact Operation.getLast?_frameFor? hframing.last
    rw [hsends, Operation.getLast?_frameFor? (by rw [List.filterMap_append, hnone, hdrops]; rfl),
      Option.some.injEq, Prod.mk.injEq] at hlast
    exact absurd hlast.1.symm hother

end Passes

namespace Ui

variable [Coordinate κ] {requests : List (Request κ)} {platform : List Tag} {managers : Managers}
  {config : Config}

/-- A request that flushes brings every root up to date. -/
theorem serve_refreshes {ui : Ui κ} {request : Request κ} (hsound : ui.scene.Sound)
    (hframes : request.FramesOnly) (hflushes : (ui.serve request).1.flush? ≠ none) :
    ∃ start : Scene κ, ∃ log, start.tree.Sound ∧
      (ui.serve request).1.flush? = some start.refreshed.mount.closePass.1 ∧
      (ui.serve request).2.scene =
        ⟨start.refreshed.tree, start.refreshed.mount.closePass.2, log⟩ := by
  -- a request with a flush is a pass, and so one that was not left out
  obtain ⟨flush, hflush⟩ := Option.ne_none_iff_exists'.mp hflushes
  obtain ⟨report, hpass, hreport⟩ := passes_of_flush hframes hflush
  rcases hpass.refreshes hsound with ⟨-, hnone, -⟩ | ⟨start, log, hstart, -, hclosed, hscene⟩
  · rw [hreport] at hnone
    cases hnone
  · exact ⟨start, log, hstart, hflush.trans (hreport.symm.trans hclosed), hscene⟩

/-- The last frame of a view, and what it names. Let a run end with a pass that succeeds, and let
engines only set frames. For every view that is not that of a root, a frame has been executed, and
the last one names a view above it. That is its native parent, unless the view of the native parent
was made later; then the frame is nevertheless the one that the pass has computed inside the native
parent. -/
theorem frame_names_parent_iff (hframes : ∀ request ∈ requests, request.FramesOnly)
    {report : PassReport κ} {count : Nat}
    (hlast : ((Ui.new managers config).answers requests).getLast? = some (.passed report))
    (hok : report.result = .ok count) :
    let tree := ((Ui.new managers config : Ui κ).after requests).scene.tree
    let native := (Hierarchy.withRoots platform).follow ((Ui.new managers config).answers requests)
    ∀ tag, tree.createdAt tag = true → tree.isRoot tag = false →
      ∃ parent earlier named frame later, tree.nativeParent tag = .ok (some parent) ∧
        native.executed = earlier ++ .setFrame tag named frame :: later ∧
        later.filterMap (Operation.frameFor? tag) = [] ∧
        tree.Ancestor named tag ∧ tree.createdAt named = true ∧
        (named = parent ↔ parent ∉ later.filterMap Operation.created?) ∧
        (named ≠ parent → ∃ computed, .frame tag parent computed ∈
          tree.roots.flatMap tree.refreshItinerary ∧ frame.same computed = true) := by
  rcases List.eq_nil_or_concat requests with rfl | ⟨before, request, hconcat⟩
  · cases hlast
  rw [List.concat_eq_append] at hconcat
  subst hconcat
  intro tree native tag hview hroot
  -- the state before the last request is sound, and the last request flushes
  obtain ⟨hbefore, hrequest⟩ := List.forall_mem_append.mp hframes
  have hrequest := hrequest request (List.mem_singleton_self request)
  have hsound : ((Ui.new managers config).after before).scene.Sound :=
    (reachable_after hbefore).sound
  have hreachable : ((Ui.new managers config : Ui κ).after (before ++ [request])).Reachable :=
    reachable_after hframes
  have hanchored : tree.Anchored := hreachable.anchored
  have htree : tree.Sound := hreachable.sound.tree
  have hroot : tag ∉ tree.roots := fun hmem => by
    rw [Tree.isRoot_iff.mpr hmem] at hroot
    cases hroot
  have hframed : Scene.Framed _ native.executed := framed_after hframes
  rw [answers_concat, List.getLast?_concat, Option.some.injEq] at hlast
  obtain ⟨start, log, hstart, hflush, hscene⟩ :=
    serve_refreshes hsound hrequest (flush?_of_ok hsound hrequest hlast hok)
  -- the flush of the last request is the end of what has been executed
  have hexecuted : native.executed =
      ((Hierarchy.withRoots platform).follow ((Ui.new managers config).answers before)).executed ++
        start.refreshed.mount.closePass.1.operations := by
    show ((Hierarchy.withRoots platform).follow
      ((Ui.new managers config).answers (before ++ [request]))).executed = _
    rw [answers_concat, Hierarchy.follow_concat, Answer.deliveries, hflush]
    exact Hierarchy.executed_deliveries ..
  rw [after_concat, hscene] at hframed
  have hafter : tree = start.refreshed.tree := by
    show ((Ui.new managers config).after (before ++ [request])).scene.tree = _
    rw [after_concat, hscene]
  -- from here on everything is about the tree of that pass
  rw [hafter] at hview hroot hanchored htree ⊢
  obtain ⟨parent, earlier, named, frame, later, hparent, heq, hframing, hcomputed⟩ :=
    hframed.names_parent hexecuted hstart hanchored hview hroot
  exact ⟨parent, earlier, named, frame, later, Tree.nativeParent_eq_some htree.wellFormed hparent,
    heq, hframing.last, hframing.above, hframing.view,
    hframing.eq_iff htree.flags hparent (hanchored.nativeParent hview hparent), hcomputed⟩

/-- A scroller in a plain node, both at the origin. Once the scroller is shown, the plain node gets
a view, and the scroller another native parent. -/
def promotedAtOrigin : List (Request Float32) :=
  [.perform (.addRoot 1 100 100), .perform (.create 2 "View" 1 .empty),
    .perform (.create 3 "ScrollView" 1 .empty), .perform (.prependChildren 2 [3]),
    .perform (.prependChildren 1 [2]), .pass, .perform (.accessibilityEvent 2 8), .pass]

/-- The last frame of the scroller names the root, and the view of the plain node is younger. -/
theorem frame_names_parent_iff_promotedAtOrigin :
    let native := (Hierarchy.withRoots [1]).follow
      ((Ui.new Managers.builtins {}).answers promotedAtOrigin)
    ∃ earlier frame later, native.executed = earlier ++ .setFrame 3 1 frame :: later ∧
      2 ∈ later.filterMap Operation.created? := by
  intro native
  have hframes : ∀ request ∈ promotedAtOrigin, request.FramesOnly := by
    simp [promotedAtOrigin, Request.FramesOnly]
  have hok : ((Ui.new Managers.builtins {}).after promotedAtOrigin.dropLast).runPass.1.result =
      .ok 6 := by decide +kernel
  obtain ⟨parent, earlier, named, frame, later, hparent, heq, hlast, -, -, hiff, -⟩ :=
    @frame_names_parent_iff _ _ promotedAtOrigin [1] Managers.builtins {} hframes _ _ rfl hok 3
      (by decide +kernel) (by decide +kernel)
  have htwo : ((Ui.new Managers.builtins {}).after promotedAtOrigin).scene.tree.nativeParent 3 =
      .ok (some 2) := by decide +kernel
  obtain rfl : parent = 2 := Option.some.inj (Except.ok.inj (hparent.symm.trans htwo))
  have hone : ((native.executed.filterMap (Operation.frameFor? 3)).getLast?.map Prod.fst) =
      some 1 := by decide +kernel
  rw [heq, Operation.getLast?_frameFor? hlast] at hone
  obtain rfl : named = 1 := Option.some.inj hone
  exact ⟨earlier, frame, later, heq, not_not.mp fun hnot => absurd (hiff.mpr hnot) (by decide)⟩

/-- All frames of the scroller that were ever executed name the root, but its native parent is the
plain node: the last frame does not name it. -/
theorem frame_names_former_parent :
    let ui : Ui Float32 := Ui.new Managers.builtins {}
    let tree := (ui.after promotedAtOrigin).scene.tree
    let native := (Hierarchy.withRoots [1]).follow (ui.answers promotedAtOrigin)
    ui.Obeys Fair promotedAtOrigin ∧
    Registration.Rooted [1] (ui.registrations promotedAtOrigin) ∧
    (ui.after promotedAtOrigin.dropLast).runPass.1.result = .ok 6 ∧
    tree.createdAt 3 = true ∧ tree.isRoot 3 = false ∧ tree.nativeParent 3 = .ok (some 2) ∧
    (native.executed.filterMap (Operation.frameFor? 3)).map Prod.fst = [1] := by
  intro ui tree native
  have hregistrations : ui.registrations promotedAtOrigin =
      [.root 1, .node 2, .node 3, .none, .none, .none, .none, .none] := by decide +kernel
  have hrooted : Registration.Rooted [1] (ui.registrations promotedAtOrigin) := by
    rw [hregistrations]
    exact ⟨by decide, by simp, by simp⟩
  refine ⟨?_, hrooted, by decide +kernel, by decide +kernel, by decide +kernel, by decide +kernel,
    by decide +kernel⟩
  refine ⟨⟨trivial, ?_⟩, ⟨trivial, ?_⟩, ⟨trivial, ?_⟩, ⟨trivial, ?_⟩, ⟨trivial, ?_⟩, ⟨trivial, ?_⟩,
    ⟨trivial, ?_⟩, ⟨trivial, ?_⟩, trivial⟩ <;> decide +kernel

end Ui

end ShadowMount
