import ShadowMount.Proofs.Core.Accuracy
import ShadowMount.Proofs.Native.Replay
import ShadowMount.Proofs.Tree.Trim

/-!
# Frames from all directions

Whoever sends the frame of a node sends its position inside its native parent. A frame that was sent
is therefore known to passes, refreshes and escalations alike, and stays known as long as no node
changes its position.

* **`Mount.Recalls`**, **`CoreCall.recalls`** — no call forgets a frame whose node keeps its
  position.
* **`Mount.Undisturbed`** — any number of calls that leave all positions as they are.
* **`Mount.frames_agree`** — all ways through the tree send the same frames, and a pass does not
  repeat what an escalation has sent.
-/

namespace ShadowMount

namespace Mount

open MountM

variable {κ : Type} [Coordinate κ]

/-! ## Frames that stay known

A frame is known if it is the one remembered for its view. Calls change what is remembered by
sending, and a call that sends a frame for the same position sends the same frame; so a known frame
is forgotten only by a change of position or with its view. -/

/-- A frame that is known stays known, if its node keeps its position. -/
def Recalls (scene done : Scene κ) : Prop :=
  ∀ ⦃x p frame⦄, scene.tree.NativeParent x p → done.tree.Positioned x p frame →
    FrameKnown scene x frame → FrameKnown done x frame

section Recalls

variable {scene done : Scene κ}

/-- Views stay where nodes stay, and what was sent for them is not forgotten. -/
theorem Recalls.of_kept
    (hviews : ∀ {x}, done.tree.contains x = true → scene.tree.createdAt x = true →
      done.tree.createdAt x = true)
    (hsent : ∀ {x p}, scene.tree.NativeParent x p → done.tree.contains x = true →
      (done.mount.sent x).frame = (scene.mount.sent x).frame) : Recalls scene done := by
  intro x p frame hp hpositioned hknown
  have hx := hpositioned.nativeParent.ancestor.contains
  exact ⟨hviews hx hknown.1, by rw [hsent hp hx]; exact hknown.2⟩

/-- A line in the log makes no frame forgotten. -/
theorem Recalls.refl (scene : Scene κ) (log : List Log.Line) : Recalls scene { scene with log } :=
  .of_kept (fun _ h => h) fun _ _ => rfl

/-- An edit of the tree that fails without a change, or keeps the views of the nodes that stay. -/
theorem Recalls.onTree {α : Type} {edit : TreeM κ α}
    (h : (∃ err, edit scene.tree = .error err scene.tree) ∨
      ∃ answer tree, edit scene.tree = .ok answer tree ∧ ∀ {x}, tree.contains x = true →
        scene.tree.createdAt x = true → tree.createdAt x = true) :
    Recalls scene (leaves (onTree edit) scene) := by
  rcases h with ⟨err, herr⟩ | ⟨answer, tree, hok, hviews⟩
  · rw [leaves_of_error (onTree_of_error herr)]
    exact .refl scene scene.log
  · rw [leaves_of_ok (onTree_of_ok hok)]
    exact .of_kept hviews fun _ _ => rfl

/-- Destroyed nodes do not stay, and for the others nothing changes. -/
theorem Recalls.trim {after : Tree κ} {gone : List Tag} {log : List Log.Line}
    (hstays : ∀ {x}, after.contains x = true →
      x ∉ gone ∧ after.createdAt x = scene.tree.createdAt x) :
    Recalls scene ⟨after, scene.mount.scheduledAll scene.tree.isRoot
      (gone.filter scene.tree.createdAt), log⟩ := by
  refine .of_kept (fun hx hview => (hstays hx).2.trans hview) fun {x p} _ hx => ?_
  have hnot : x ∉ gone.filter scene.tree.createdAt :=
    fun hmem => (hstays hx).1 (List.mem_filter.mp hmem).1
  exact congrArg SentState.frame (MountState.sent_scheduledAll _ _ hnot)

/-- A journey recalls the frames it does not visit, and visits the others as they are known. -/
theorem Journey.recalls [Coordinate.Exact κ] {start : Tree κ} {log : List Log.Line}
    {visits : List (Visit κ)} (h : Journey visits ⟨start, scene.mount, log⟩ { done with log })
    (hviews : ∀ x, start.createdAt x = scene.tree.createdAt x) (hwf : start.WellFormed)
    (haccurate : start.Accurate visits) : Recalls scene done := by
  intro x p frame _ hpositioned hknown
  have hgrown : start.Grown done.tree := h.grown haccurate.mounts
  have hknown' : FrameKnown ⟨start, scene.mount, log⟩ x frame :=
    ⟨(hviews x).trans hknown.1, hknown.2⟩
  refine (h.quiet hknown' fun q other hmem => ?_).1
  exact ((haccurate.positioned hmem).unique hwf ((hgrown.positioned_iff hwf).mp hpositioned)).2

/-- An escalation forgets no frame: what it sends are positions. -/
theorem recalls_escalate [Coordinate.Exact κ] {tag : Tag} {flag : Bool} (hsound : scene.tree.Sound)
    (hok : escalate tag scene = .ok flag done) : Recalls scene done := by
  obtain ⟨found, a, visits, hget, hclimb, hfollows⟩ := escalate_follows hsound hok
  have hkept := Tree.kept_promote hget
  have hwf := hkept.links.wellFormed hsound.wellFormed
  exact (hfollows.journey hok).recalls (Tree.createdAt_promote hget) hwf
    (hclimb.accurate hwf (hkept.flags hsound.flags))

/-- Nor does a refresh of a subtree. -/
theorem recalls_refreshSubtree [Coordinate.Exact κ] {tag : Tag} (hsound : scene.tree.Sound)
    (hok : refreshSubtree tag scene = .ok () done) : Recalls scene done := by
  obtain ⟨hhangs, climb, hclimb, hfollows⟩ := refreshSubtree_follows hsound hok
  exact (hfollows.journey hok).recalls (fun _ => rfl) hsound.wellFormed
    (hclimb.append (hsound.wellFormed.accurate_refreshItinerary hsound.flags hhangs))

/-- Nor does a refresh of all roots. -/
theorem recalls_refreshRoots [Coordinate.Exact κ] (hsound : scene.tree.Sound)
    (hok : refreshRoots scene = .ok () done) : Recalls scene done :=
  ((refreshRoots_follows hsound).journey hok).recalls (fun _ => rfl) hsound.wellFormed
    (.flatMap fun _ hroot => hsound.wellFormed.accurate_refreshItinerary hsound.flags (.inl hroot))

/-- Sending properties has nothing to do with frames. -/
theorem recalls_sendProps (tag : Tag) (delta : Props) :
    Recalls scene (leaves (sendProps tag delta) scene) := by
  rcases @leaves_sendProps _ scene tag delta with hsame | ⟨viewClass, hsent⟩
  · rw [hsame]
    exact .refl scene scene.log
  · rw [hsent]
    refine .of_kept (fun _ h => h) fun {x p} _ _ => ?_
    obtain ⟨props, hprops⟩ := scene.mount.sent_propsSent tag x viewClass delta
    show ((scene.mount.propsSent tag viewClass delta).sent x).frame = _
    rw [hprops]

/-- A change of one node that keeps its view forgets no frame. -/
theorem recalls_update (tag : Tag) {change : Node κ → Node κ}
    (h : ∀ node, (change node).created = node.created) :
    Recalls scene (leaves (onTree (TreeM.update tag change)) scene) := by
  refine .onTree ((Tree.update_cases ..).imp_right ?_)
  rintro ⟨node, hget, hok⟩
  refine ⟨(), _, hok, fun {x} _ hview => ?_⟩
  rw [Tree.createdAt_store]
  split
  · next heq => rw [h, ← Tree.createdAt_of_get? hget, heq, hview]
  · exact hview

/-- A new node stands under a free tag, so it takes no view away. -/
theorem recalls_register (node : Node κ) :
    Recalls scene (leaves (MountM.onTree (Tree.register node)) scene) := by
  refine .onTree ((Tree.register_cases scene.tree node).imp_right ?_)
  rintro ⟨hfree, hok⟩
  refine ⟨(), _, hok, fun {x} _ hview => ?_⟩
  rw [Tree.createdAt_store, if_neg]
  · exact hview
  · rintro rfl
    rw [Tree.contains_of_createdAt hview] at hfree
    cases hfree

/-- A new root has a view, whoever had one before. -/
theorem recalls_registerRoot (tag : Tag) (viewClass : String) (width height : κ) :
    Recalls scene (leaves (MountM.onTree (Tree.registerRoot tag viewClass width height)) scene) := by
  refine .onTree ((Tree.registerRoot_cases scene.tree tag viewClass width height).imp_right ?_)
  rintro ⟨-, hok⟩
  refine ⟨(), _, hok, fun {x} _ hview => (Tree.createdAt_store ..).trans ?_⟩
  split
  · rfl
  · exact hview

/-- Promotions, attachments and detachments leave every view where it is. -/
theorem recalls_promote (tag : Tag) :
    Recalls scene (leaves (MountM.onTree (Tree.promote tag)) scene) := by
  refine .onTree ((Tree.promote_cases scene.tree tag).imp_right ?_)
  rintro ⟨node, hget, hok⟩
  exact ⟨_, _, hok, fun _ => (Tree.kept_promote hget).created⟩

theorem recalls_attach (parent child : Tag) (index : Nat) (hsound : scene.tree.Sound) :
    Recalls scene (leaves (MountM.onTree (Tree.attach parent child index)) scene) := by
  refine .onTree ((Tree.attach_cases hsound.wellFormed parent child index).imp_right ?_)
  rintro ⟨above, node, habove, hnode, -, -, hok⟩
  exact ⟨(), _, hok, fun {x} _ hview => (Tree.createdAt_linked habove hnode x).trans hview⟩

theorem recalls_detachAt (parent : Tag) (index : Nat) (hsound : scene.tree.Sound) :
    Recalls scene (leaves (MountM.onTree (Tree.detachAt parent index)) scene) := by
  refine .onTree ((Tree.detachAt_cases hsound.wellFormed parent index).imp_right ?_)
  rintro ⟨above, child, node, habove, -, hnode, hok⟩
  exact ⟨child, _, hok, fun {x} _ hview => (Tree.createdAt_unlinked habove hnode x).trans hview⟩

/-- The removal of a subtree takes views away only with their nodes. -/
theorem recalls_removeSubtree (tag : Tag) (hsound : scene.tree.Sound) :
    Recalls scene (leaves (MountM.onTree (Tree.removeSubtree tag)) scene) := by
  have hwf := hsound.wellFormed
  refine .onTree ((Tree.removeSubtree_cases hwf tag).imp_right ?_)
  rintro ⟨members, -, -, hok⟩
  exact ⟨members, _, hok, fun hx hview => (Tree.createdAt_withoutSubtree hwf hx).2.trans hview⟩

/-- A child edit forgets the frames of destroyed nodes only, and these are no nodes any more. -/
theorem recalls_applyBatch (parent : Tag) (batch : Batch) (hsound : scene.tree.Sound) :
    Recalls scene (leaves (Children.applyBatch parent batch) scene) := by
  rcases Children.applyBatch_trims hsound batch with
    ⟨err, log, herr⟩ | ⟨after, log, hok, htrimmed⟩
  · rw [leaves_of_error herr]
    exact .refl scene log
  · rw [leaves_of_ok hok]
    refine .trim fun hx => ?_
    have hstays := (htrimmed.contains_iff.mp hx).2
    exact ⟨hstays, htrimmed.created hstays⟩

/-- Nor does the destruction of a subtree forget any other frame. -/
theorem recalls_destroySubtree (tag : Tag) (hsound : scene.tree.Sound) :
    Recalls scene (leaves (destroySubtree tag) scene) := by
  rcases destroySubtree_cases hsound.wellFormed tag with
    ⟨err, herr⟩ | ⟨members, log, -, -, hok⟩
  · rw [leaves_of_error herr]
    exact .refl scene scene.log
  · rw [leaves_of_ok hok]
    exact .trim (Tree.createdAt_withoutSubtree hsound.wellFormed)

/-- Nor does the destruction of a root, which is that of its subtree. -/
theorem recalls_destroyRoot (root : Tag) (hsound : scene.tree.Sound) :
    Recalls scene (leaves (destroyRoot root) scene) := by
  rcases destroyRoot_cases scene root with ⟨err, herr⟩ | heq
  · rw [leaves_of_error herr]
    exact .refl scene scene.log
  · rw [leaves, heq]
    exact recalls_destroySubtree root hsound

/-- An action that fails without a change, or recalls what is known. -/
theorem Recalls.of_cases {α : Type} {action : MountM κ α}
    (h : (∃ err, action scene = .error err scene) ∨
      ∃ answer done, action scene = .ok answer done ∧ Recalls scene done) :
    Recalls scene (leaves action scene) := by
  rcases h with ⟨err, herr⟩ | ⟨answer, done, hok, hrecalls⟩
  · rw [leaves_of_error herr]
    exact .refl scene scene.log
  · rw [leaves_of_ok hok]
    exact hrecalls

/-- Tracking a root overwrites what was sent for it. A root has no native parent, so no frame that
the relation speaks of is lost. -/
theorem recalls_trackRoot (root : Tag) (hsound : scene.tree.Sound) :
    Recalls scene (leaves (trackRoot root) scene) := by
  have hwf := hsound.wellFormed
  refine .of_cases ((trackRoot_cases hwf root).imp_right ?_)
  rintro ⟨found, hmem, -, hok⟩
  refine ⟨(), _, hok, .of_kept (fun _ h => h) fun {x p} hp _ => ?_⟩
  have hne : root ≠ x := by
    rintro rfl
    have hother := hwf.not_root_of_nativeParent hp
    rw [Tree.isRoot_iff.mpr hmem] at hother
    cases hother
  rw [MountState.sent_remember, if_neg hne]

/-- Putting children in front takes no view away and sends nothing. -/
theorem recalls_prepend (parent : Tag) (children : List Tag) (hsound : scene.tree.Sound) :
    Recalls scene (leaves (Children.prepend parent children) scene) := by
  refine .of_cases ((Children.prepend_trims hsound children).imp_right ?_)
  rintro ⟨after, hok, htrimmed⟩
  refine ⟨(), _, hok, .of_kept (fun _ hview => ?_) fun _ _ => rfl⟩
  exact (htrimmed.created List.not_mem_nil).trans hview

end Recalls

end Mount

namespace CoreCall

open Mount

variable {κ : Type} [Coordinate κ] [Coordinate.Exact κ] {scene : Scene κ}

/-- No call forgets a frame whose node keeps its position. -/
theorem recalls (call : CoreCall κ) (hsound : scene.tree.Sound) :
    Recalls scene (leaves call.run scene) := by
  have hwf := hsound.wellFormed
  have hflags := hsound.flags
  -- edits of the tree keep the frames last sent, and the views of the nodes that stay
  cases call with
  | register node fresh => exact recalls_register node
  | registerRoot tag viewClass width height => exact recalls_registerRoot tag viewClass width height
  | setFrame tag frame => exact recalls_update tag fun _ => rfl
  | mergeProps tag delta => exact recalls_update tag fun _ => rfl
  | promote tag =>
    rw [run, leaves_discard]
    exact recalls_promote tag
  | attach parent child index => exact recalls_attach parent child index hsound
  | detachAt parent index =>
    rw [run, leaves_discard]
    exact recalls_detachAt parent index hsound
  | removeSubtree tag =>
    rw [run, leaves_discard]
    exact recalls_removeSubtree tag hsound
  | applyBatch parent batch => exact recalls_applyBatch parent batch hsound
  | prepend parent children => exact recalls_prepend parent children hsound
  | trackRoot root => exact recalls_trackRoot root hsound
  | sendProps tag delta =>
    rw [run, leaves_discard]
    exact recalls_sendProps tag delta
  | destroySubtree tag =>
    rw [run, leaves_discard]
    exact recalls_destroySubtree tag hsound
  | destroyRoot root =>
    rw [run, leaves_discard]
    exact recalls_destroyRoot root hsound
  -- the calls that send frames send positions
  | escalate tag =>
    rw [run, leaves_discard]
    refine .of_cases ((escalate_cases hwf hflags tag).imp_right ?_)
    rintro ⟨done, hok, -⟩
    exact ⟨_, done, hok, recalls_escalate hsound hok⟩
  | refreshSubtree tag =>
    refine .of_cases ((refreshSubtree_cases hwf hflags tag).imp_right ?_)
    rintro ⟨done, hok, -⟩
    exact ⟨(), done, hok, recalls_refreshSubtree hsound hok⟩
  | refreshRoots =>
    obtain ⟨done, hok, -⟩ := refreshRoots_ok hwf hflags
    rw [run, leaves_of_ok hok]
    exact recalls_refreshRoots hsound hok
  | relativeFrame tag =>
    rw [run, leaves_discard]
    refine .of_cases ((relativeFrame_escalates hwf hflags tag).imp_right ?_)
    rintro ⟨frame, _, done, hup, hok⟩
    exact ⟨frame, done, hok, recalls_escalate hsound hup⟩
  | touchView tag =>
    rw [run, leaves_discard]
    refine .of_cases ((touchView_escalates hwf hflags tag).imp_right ?_)
    rintro ⟨target, _, done, hup, hok⟩
    exact ⟨target, done, hok, recalls_escalate hsound hup⟩

end CoreCall

namespace Mount

variable {κ : Type} [Coordinate κ]

/-! ## Undisturbed frames

Between a first sending and a later one there may be any calls, as long as they leave the positions
as they are. By induction on these calls the frame is known when the later one looks, which is why
it sends nothing. -/

/-- `Undisturbed scene later`: calls that move no node have been made, and operations may have been
flushed in between. -/
inductive Undisturbed (scene : Scene κ) : Scene κ → Prop
  | refl : Undisturbed scene scene
  | call {mid : Scene κ} (h : Undisturbed scene mid) (call : CoreCall κ)
      (hplaces : mid.tree.KeepsPlaces (leaves call.run mid).tree) :
      Undisturbed scene (leaves call.run mid)
  | flush {mid : Scene κ} (h : Undisturbed scene mid) {mount : MountState κ}
      (hsent : mount.sentStates = mid.mount.sentStates) (log : List Log.Line) :
      Undisturbed scene ⟨mid.tree, mount, log⟩

variable {scene later refreshed : Scene κ} {x p : Tag} {frame : Frame κ}

/-- Soundness is kept along any such history. -/
theorem Undisturbed.sound (h : Undisturbed scene later) (hsound : scene.tree.Sound) :
    later.tree.Sound := by
  induction h with
  | refl => exact hsound
  | call _ call _ ih => exact (call.evolved ih).sound
  | flush _ _ _ ih => exact ih

variable [Coordinate.Exact κ]

/-- What is known stays known as long as nothing is moved. -/
theorem Undisturbed.frameKnown (h : Undisturbed scene later) (hsound : scene.tree.Sound)
    (hpositioned : scene.tree.Positioned x p frame) (hknown : FrameKnown scene x frame) :
    later.tree.Positioned x p frame ∧ FrameKnown later x frame := by
  induction h with
  | refl => exact ⟨hpositioned, hknown⟩
  | call hrun call hplaces ih =>
    have hsound' := hrun.sound hsound
    have hmoved := hplaces.positioned hsound'.wellFormed ih.1
    exact ⟨hmoved, call.recalls hsound' ih.1.nativeParent hmoved ih.2⟩
  | @flush mid _ mount hsent _ ih =>
    have hsame : mount.sent x = mid.mount.sent x := by
      rw [MountState.sent, MountState.sent, hsent]
    refine ⟨ih.1, ih.2.1, ?_⟩
    show (mount.sent x).frame.any _ = true
    rw [hsame]
    exact ih.2.2

/-- A pass does not send a frame that is known. -/
theorem refreshRoots_silent (hsound : later.tree.Sound)
    (hpositioned : later.tree.Positioned x p frame) (hknown : FrameKnown later x frame)
    (hok : refreshRoots later = .ok () refreshed) {more : List (Operation κ)}
    (hqueue : refreshed.mount.queue = later.mount.queue ++ more) (q : Tag) (other : Frame κ) :
    .setFrame x q other ∉ more := by
  have hwf := hsound.wellFormed
  have haccurate : later.tree.Accurate (later.tree.roots.flatMap later.tree.refreshItinerary) :=
    .flatMap fun _ hroot => hwf.accurate_refreshItinerary hsound.flags (.inl hroot)
  obtain ⟨-, operations, hoperations, hquiet⟩ :=
    ((refreshRoots_follows hsound).journey hok).quiet hknown fun _ _ hmem =>
      ((haccurate.positioned hmem).unique hwf hpositioned).2
  have heq : operations = more := List.append_cancel_left (hoperations.symm.trans hqueue)
  exact heq ▸ hquiet q other

/-- The frames that an escalation sends are positions, and known afterwards. -/
theorem escalate_frameKnown {tree : Tree κ} {mount : MountState κ} {log : List Log.Line} {tag : Tag}
    {answer : Bool} {done : Scene κ} (hsound : tree.Sound)
    (hok : escalate tag ⟨tree, mount, log⟩ = .ok answer done) : ∃ operations,
      done.mount.queue = mount.queue ++ operations ∧ ∀ t a frame,
        .setFrame t a frame ∈ operations →
          done.tree.Positioned t a frame ∧ FrameKnown done t frame := by
  -- the escalation is followed visit by visit: what it sends are the frames it has visited
  obtain ⟨found, a, visits, hget, hclimb, hfollows⟩ := escalate_follows hsound hok
  have hkept := Tree.kept_promote hget
  have hwf := hkept.links.wellFormed hsound.wellFormed
  have haccurate := hclimb.accurate hwf (hkept.flags hsound.flags)
  have hjourney := hfollows.journey hok
  have hgrown := hjourney.grown haccurate.mounts
  obtain ⟨operations, hqueue, hposts⟩ := hjourney.posts
  -- a frame that was sent is that of a visit, and such frames are positions
  refine ⟨operations, hqueue, fun t b frame hmem => ?_⟩
  have hvisited := hposts t b frame hmem
  have hpositioned := haccurate.positioned hvisited
  refine ⟨(hgrown.positioned_iff hwf).mpr hpositioned, ?_⟩
  -- the view at the top is there from the start, and the others are visited before their frames
  obtain ⟨rest, hvisits, hprovided, -, hview, -⟩ := hclimb.parts hwf
  have htop : Visit.Provided Visit.NeedsOwn
      ((tree.store tag found.promote).createdAt · = true) visits := by
    rw [hvisits]
    refine .append_same (.of_forall ?_) (hprovided Visit.onlyFrames_needsOwn)
    rintro _ hmem x ⟨parent, other, rfl⟩
    rw [show x = a from (Tree.tag_of_mem_viewItinerary hmem).1]
    exact hview
  exact hjourney.frameKnown htop (fun _ h => h) hvisited
    (fun _ _ hmem => ((haccurate.positioned hmem).unique hwf hpositioned).2) frame.same_refl

/-- What agrees about the frames of a tree. Each way through the tree is given by its visits, and
the frames among them are compared with the positions of the nodes. -/
structure FramesAgree (tree : Tree κ) : Prop where
  /-- A node with a native parent has one position. -/
  position : ∀ t a, tree.NativeParent t a → ∃! frame, tree.Positioned t a frame
  /-- A pass sends the positions of all attached nodes that mount. -/
  pass : ∃ visits, Performs refreshRoots tree tree visits ∧ ∀ t a frame,
    .frame t a frame ∈ visits ↔
      tree.Attached t ∧ tree.mountsAt t = true ∧ tree.Positioned t a frame
  /-- A refresh sends positions, among them those of all nodes in the subtree that mount. -/
  subtree : ∀ x mount log done, refreshSubtree x ⟨tree, mount, log⟩ = .ok () done →
    ∃ visits, Performs (refreshSubtree x) tree tree visits ∧
      (∀ t a frame, .frame t a frame ∈ visits → tree.Positioned t a frame) ∧
      ∀ t a frame, tree.InSubtree x t → tree.mountsAt t = true → tree.Positioned t a frame →
        .frame t a frame ∈ visits
  /-- An escalation promotes the node and sends positions in the new tree, among them that of the
  node. -/
  escalation : ∀ x mount log answer done, escalate x ⟨tree, mount, log⟩ = .ok answer done →
    ∃ found visits, tree.get? x = some found ∧
      Performs (escalate x) tree (tree.store x found.promote) visits ∧
      (∀ t a frame, .frame t a frame ∈ visits → done.tree.Positioned t a frame) ∧
      ∀ a frame, done.tree.Positioned x a frame → .frame x a frame ∈ visits
  /-- The refresh of a single view sends its position. -/
  view : ∀ x, tree.contains x = true → ∃ visits, Performs (refreshView x) tree tree visits ∧
    ∀ t a frame, .frame t a frame ∈ visits ↔ t = x ∧ tree.Positioned t a frame
  /-- A pass does not repeat the frames of an escalation, if nothing was moved in between. -/
  quiet : ∀ x mount log answer done, escalate x ⟨tree, mount, log⟩ = .ok answer done →
    ∃ operations, done.mount.queue = mount.queue ++ operations ∧ ∀ later, Undisturbed done later →
      ∃ refreshed more, refreshRoots later = .ok () refreshed ∧
        refreshed.mount.queue = later.mount.queue ++ more ∧ ∀ t a frame,
          .setFrame t a frame ∈ operations → ∀ b other, .setFrame t b other ∉ more

/-- In exact arithmetic all ways through a reachable tree send the same frames, and a pass does not
repeat the frames of an escalation. -/
theorem frames_agree {tree : Tree κ} (h : tree.Reachable) : FramesAgree tree := by
  have hsound := h.sound
  have hwf := hsound.wellFormed
  have hflags := hsound.flags
  refine ⟨fun t a ht => ?_, ⟨_, (refreshRoots_follows hsound).performs, fun t a frame => ?_⟩,
    fun x mount log done hok => ?_, fun x mount log answer done hok => ?_, fun x hx => ?_,
    fun x mount log answer done hok => ?_⟩
  -- the positions are unique, and exist below every native parent
  · obtain ⟨frame, hframe⟩ := ht.exists_positioned hwf
    exact ⟨frame, hframe, fun other hother => (hother.unique hwf hframe).2⟩
  -- the itinerary of a pass is that of all roots
  · rw [List.mem_flatMap]
    constructor
    · rintro ⟨root, hroot, hmem⟩
      obtain ⟨hsub, hframe⟩ := (hwf.mem_refreshItinerary_iff hflags (.inl hroot)).mp hmem
      exact ⟨⟨root, hroot, hsub⟩, hframe⟩
    · rintro ⟨⟨root, hroot, hsub⟩, hframe⟩
      exact ⟨root, hroot, (hwf.mem_refreshItinerary_iff hflags (.inl hroot)).mpr ⟨hsub, hframe⟩⟩
  -- a refresh first climbs, which sends positions too, and then visits the subtree
  · obtain ⟨hhangs, climb, hclimb, hfollows⟩ := refreshSubtree_follows hsound hok
    have haccurate := hclimb.append (hwf.accurate_refreshItinerary hflags hhangs)
    refine ⟨_, hfollows.performs, fun _ _ _ => haccurate.positioned,
      fun t a frame hsub hmounts hframe => List.mem_append_right _ ?_⟩
    exact (hwf.mem_refreshItinerary_iff hflags hhangs).mpr ⟨hsub, hmounts, hframe⟩
  -- an escalation visits in the tree where the node is promoted already
  · obtain ⟨found, a, visits, hget, hclimb, hfollows⟩ := escalate_follows hsound hok
    have hkept := Tree.kept_promote hget
    have hwf' := hkept.links.wellFormed hwf
    have haccurate := hclimb.accurate hwf' (hkept.flags hflags)
    have hgrown := (hfollows.journey hok).grown haccurate.mounts
    refine ⟨found, visits, hget, hfollows.performs, fun t b frame hmem => ?_,
      fun b frame hframe => ?_⟩
    · exact (hgrown.positioned_iff hwf').mpr (haccurate.positioned hmem)
    · exact hclimb.reaches hwf' (hkept.flags hflags) ((hgrown.positioned_iff hwf').mp hframe)
  -- the refresh of a view makes two visits, one of which is for its frame
  · refine ⟨_, (refreshView_follows hsound hx).performs, fun t a frame => ?_⟩
    rw [Tree.mem_viewItinerary_iff hwf hx]
    refine and_congr_right fun heq => ?_
    rw [heq]
  -- what the escalation sent stays known while nothing moves, so a pass has nothing to send
  · obtain ⟨operations, hqueue, hframes⟩ := escalate_frameKnown hsound hok
    have hdone := hsound.kept (Progress.kept (escalate_ascends hwf hflags hok).1.progress)
    refine ⟨operations, hqueue, fun later hlater => ?_⟩
    have hsound' := hlater.sound hdone
    obtain ⟨refreshed, hrefresh, hrun, -⟩ := refreshRoots_ok hsound'.wellFormed hsound'.flags
    obtain ⟨more, hmore, -⟩ := ((refreshRoots_follows hsound').journey hrefresh).posts
    refine ⟨refreshed, more, hrefresh, hmore, fun t a frame hmem => ?_⟩
    obtain ⟨hpositioned, hknown⟩ := hframes t a frame hmem
    obtain ⟨hpositioned, hknown⟩ := hlater.frameKnown hdone hpositioned hknown
    exact refreshRoots_silent hsound' hpositioned hknown hrefresh hmore

end Mount

namespace Sample

/-- A root above the chain 2, 3, 4, 5, in which 3 and 5 mount, with exact frames. Only the root has
a view. -/
def measured : Tree Rat :=
  let add (tag : Tag) (kind : MountKind) : CoreCall Rat :=
    .register (.fresh tag 1 "View" kind)
      ⟨rfl, rfl, nofun, fun h => by rw [Node.fresh, show kind = .virtual from h]; rfl,
        fun h => by rw [Node.fresh, show kind = .viewMounting from h]; rfl⟩
  [.registerRoot 1 "Root" 0 0, add 2 .layoutOnly, add 3 .viewMounting, add 4 .layoutOnly,
    add 5 .viewMounting, .attach 1 2 0, .attach 2 3 0, .attach 3 4 0, .attach 4 5 0,
    .setFrame 2 ⟨1/2, 1/3, 30, 40⟩, .setFrame 3 ⟨1/2, 2/3, 20, 20⟩].foldl
    (fun tree call => (leaves call.run ⟨tree, {}, []⟩).tree) .empty

theorem measured_reachable : measured.Reachable := Tree.Reachable.calls {} [] _ .empty

end Sample

/-- The escalation of node 5 sends the frame of node 3 inside the root, moved by the position of node
2 in between. A pass right after it does not send it again. -/
theorem Mount.frames_agree_measured : ∃ done refreshed more,
    escalate 5 ⟨Sample.measured, {}, []⟩ = .ok true done ∧
      .setFrame 3 1 ⟨1, 1, 20, 20⟩ ∈ done.mount.queue ∧ refreshRoots done = .ok () refreshed ∧
      refreshed.mount.queue = done.mount.queue ++ more ∧
      ∀ b other, .setFrame 3 b other ∉ more := by
  have hworks : (match escalate 5 ⟨Sample.measured, {}, []⟩ with
      | .ok true done => decide (.setFrame 3 1 ⟨1, 1, 20, 20⟩ ∈ done.mount.queue)
      | _ => false) = true := by decide +kernel
  split at hworks
  · next done hrun =>
    have hsent := of_decide_eq_true hworks
    obtain ⟨operations, hqueue, hquiet⟩ :=
      (frames_agree Sample.measured_reachable).quiet 5 {} [] true done hrun
    obtain ⟨refreshed, more, hrefresh, hmore, hnone⟩ := hquiet done .refl
    refine ⟨done, refreshed, more, hrun, hsent, hrefresh, hmore, hnone 3 1 ⟨1, 1, 20, 20⟩ ?_⟩
    rw [hqueue] at hsent
    exact hsent
  · cases hworks

end ShadowMount
