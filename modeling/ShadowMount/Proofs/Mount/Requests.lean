import ShadowMount.Mount.Measure
import ShadowMount.Proofs.Mount.Escalate

/-!
# Requests to the mount core

What commands and passes ask of the mount core, beyond a single escalation. Each request either
fails and leaves the scene as it was, or is an ascent.

* **`relativeFrame_cases`**, **`touchView_cases`** — the view that stands in for a node exists
  afterwards.
* **`runPass_ok`** — a pass that is not nested never fails; it hands over what the queue and the
  drops hold once every root is settled.
-/

namespace ShadowMount

namespace MountState

variable {κ : Type}

/-- The mount state once a change of properties is sent, if it changes anything. -/
def propsSent (state : MountState κ) (tag : Tag) (viewClass : String) (delta : Props) :
    MountState κ :=
  let sent := state.sent tag
  let changed := Props.changes sent.props delta
  if changed.isEmpty then state.remember tag sent
  else (state.remember tag { sent with props := Props.merge sent.props changed }).enqueue
    (.setProps tag viewClass changed)

/-- Sending properties is not among the things that change the fixtures. -/
theorem fixtures_propsSent (state : MountState κ) (tag : Tag) (viewClass : String)
    (delta : Props) : (state.propsSent tag viewClass delta).fixtures = state.fixtures := by
  unfold propsSent
  dsimp only
  split <;> rfl

/-- Only properties are remembered anew. -/
theorem sent_propsSent (state : MountState κ) (tag x : Tag) (viewClass : String) (delta : Props) :
    ∃ props, (state.propsSent tag viewClass delta).sent x = { state.sent x with props } := by
  -- whatever properties are remembered, the frame and the child list stay
  have hremember : ∀ props : Props, ∃ kept,
      (state.remember tag { state.sent tag with props }).sent x =
        { state.sent x with props := kept } := by
    intro props
    rw [sent_remember]
    split
    · next heq => exact ⟨props, by rw [heq]⟩
    · exact ⟨_, rfl⟩
  unfold propsSent
  dsimp only
  split
  · exact hremember _
  · exact hremember _

end MountState

namespace Mount

open MountM

variable {κ : Type} {scene : Scene κ} {tag : Tag}

/-- The node is missing. -/
theorem sendProps_of_missing (delta : Props) (hget : scene.tree.get? tag = none) :
    sendProps tag delta scene = .error (.missing tag) scene := by
  rw [sendProps]
  exact bind_of_error (node_of_missing hget)

/-- The node does not mount. -/
theorem sendProps_of_unmounting {found : Node κ} (delta : Props)
    (hget : scene.tree.get? tag = some found) (hmounts : found.mounts = false) :
    sendProps tag delta scene = .error (.contract (.notMountingToView tag)) scene := by
  rw [sendProps, bind_of_ok (node_of_get? hget), hmounts, if_pos (by decide)]
  rfl

/-- Without a view nothing is sent: the create will carry the properties. -/
theorem sendProps_of_uncreated {found : Node κ} (delta : Props)
    (hget : scene.tree.get? tag = some found) (hmounts : found.mounts = true)
    (hcreated : found.created = false) : sendProps tag delta scene = .ok false scene := by
  rw [sendProps, bind_of_ok (node_of_get? hget), hmounts, if_neg (by decide), hcreated,
    if_pos (by decide)]
  rfl

/-- With a view the change is sent, or remembered to have changed nothing. -/
theorem sendProps_of_created {found : Node κ} (delta : Props)
    (hget : scene.tree.get? tag = some found) (hmounts : found.mounts = true)
    (hcreated : found.created = true) : ∃ sentAny, sendProps tag delta scene =
      .ok sentAny { scene with mount := scene.mount.propsSent tag found.viewClass delta } := by
  rw [sendProps, bind_of_ok (node_of_get? hget), hmounts, if_neg (by decide), hcreated,
    if_neg (by decide), get_bind, MountState.propsSent]
  -- the answer tells whether something was left to send
  cases hempty : (Props.changes (scene.mount.sent tag).props delta).isEmpty with
  | true =>
    refine ⟨false, ?_⟩
    simp only [if_true]
    rfl
  | false =>
    refine ⟨true, ?_⟩
    simp only [Bool.false_eq_true, if_false]
    rfl

/-- A change of properties reaches what was sent, or nothing happens. -/
theorem leaves_sendProps (delta : Props) : leaves (sendProps tag delta) scene = scene ∨
    ∃ viewClass, leaves (sendProps tag delta) scene =
      { scene with mount := scene.mount.propsSent tag viewClass delta } := by
  cases hget : scene.tree.get? tag with
  | none => exact .inl (leaves_of_error (sendProps_of_missing delta hget))
  | some found =>
    cases hmounts : found.mounts with
    | false => exact .inl (leaves_of_error (sendProps_of_unmounting delta hget hmounts))
    | true =>
      cases hcreated : found.created with
      | false => exact .inl (leaves_of_ok (sendProps_of_uncreated delta hget hmounts hcreated))
      | true =>
        obtain ⟨_, hok⟩ := sendProps_of_created delta hget hmounts hcreated
        exact .inr ⟨found.viewClass, leaves_of_ok hok⟩

/-- A root's own frame counts as sent from the start, as the platform owns the view. -/
theorem trackRoot_of_root {found : Node κ} (hroot : tag ∈ scene.tree.roots)
    (hget : scene.tree.get? tag = some found) : trackRoot tag scene = .ok ()
      { scene with mount := scene.mount.remember tag { frame := some found.frame } } := by
  rw [trackRoot, get_bind, if_pos (Tree.isRoot_iff.mpr hroot), bind_of_ok (node_of_get? hget)]
  rfl

/-- What is not a root is not tracked as one. -/
theorem trackRoot_of_other (hroot : scene.tree.isRoot tag = false) :
    trackRoot tag scene = .error (.contract (.notARoot tag)) scene := by
  rw [trackRoot, get_bind, hroot]
  rfl

/-- Tracking a root fails without a change, or remembers the frame of a root. -/
theorem trackRoot_cases (hwf : scene.tree.WellFormed) (tag : Tag) :
    (∃ err, trackRoot tag scene = .error err scene) ∨
    ∃ found, tag ∈ scene.tree.roots ∧ scene.tree.get? tag = some found ∧
      trackRoot tag scene = .ok ()
        { scene with mount := scene.mount.remember tag { frame := some found.frame } } := by
  cases hroot : scene.tree.isRoot tag with
  | true =>
    have hmem := Tree.isRoot_iff.mp hroot
    obtain ⟨found, hget⟩ := Tree.contains_iff.mp (hwf.root_contained hmem)
    exact .inr ⟨found, hmem, hget, trackRoot_of_root hmem hget⟩
  | false => exact .inl ⟨_, trackRoot_of_other hroot⟩

variable [Coordinate κ]

/-- An escalation that succeeds ascends and leaves a view. -/
theorem escalate_ascends {flag : Bool} {done : Scene κ} (hwf : scene.tree.WellFormed)
    (hflags : scene.tree.FlagsSound) (h : escalate tag scene = .ok flag done) :
    Ascent scene done ∧ done.tree.createdAt tag = true := by
  rcases escalate_cases hwf hflags tag with ⟨err, herr⟩ | ⟨done', hok, hascent, hup⟩
  · rw [herr] at h
    cases h
  · rw [hok] at h
    cases h
    exact ⟨hascent, hup.view⟩

/-- Bringing a subtree up to date fails and changes nothing, or ascends. -/
theorem refreshSubtree_cases (hwf : scene.tree.WellFormed) (hflags : scene.tree.FlagsSound)
    (tag : Tag) : (∃ err, refreshSubtree tag scene = .error err scene) ∨
      ∃ done, refreshSubtree tag scene = .ok () done ∧ Ascent scene done := by
  -- a root has its view, and so has all that is above the nodes below it
  by_cases hroot : tag ∈ scene.tree.roots
  · obtain ⟨done, hok, hrun, -⟩ := refreshSubtree_root hwf hflags hroot
    exact .inr ⟨done, hok, Run.ascent hrun⟩
  -- otherwise it depends on the native parent and on whether its view exists
  by_cases hparent : ∃ p, scene.tree.NativeParent tag p
  · obtain ⟨p, hp⟩ := hparent
    cases hview : scene.tree.createdAt p with
    | true =>
      obtain ⟨done, hok, hrun⟩ := refreshSubtree_of_view hwf hp hview
      exact .inr ⟨done, hok, Run.ascent hrun⟩
    | false =>
      -- the view above is created first, and only then is the subtree reconciled below it
      rw [refreshSubtree_of_uncreated hwf hp hview]
      rcases escalate_mounting hwf hflags hp.2 with ⟨err, herr⟩ | ⟨mid, hmid, hrun, hup⟩
      · exact .inl ⟨err, bind_of_error (discard_of_error herr)⟩
      · have hgrown := Run.grown hrun
        obtain ⟨done, hbelow, hrunBelow, -⟩ := reconcileBelow_ok
          (hgrown.sameLinks.wellFormed hwf) (hgrown.nativeParent hp) hup.view
        refine .inr ⟨done, ?_, Run.ascent (hrun.trans hrunBelow)⟩
        rw [bind_of_ok (discard_of_ok hmid)]
        exact hbelow
  · obtain ⟨err, herr, -⟩ := refreshSubtree_of_loose hwf hroot fun p hp => hparent ⟨p, hp⟩
    exact .inl ⟨err, herr⟩

/-- Measuring against the native parent fails and changes nothing, or is its escalation. -/
theorem relativeFrame_escalates (hwf : scene.tree.WellFormed) (hflags : scene.tree.FlagsSound)
    (tag : Tag) : (∃ err, relativeFrame tag scene = .error err scene) ∨
      ∃ frame flag done, escalate frame.tag scene = .ok flag done ∧
        relativeFrame tag scene = .ok frame done := by
  unfold relativeFrame
  cases hget : scene.tree.get? tag with
  | none => exact .inl ⟨_, bind_of_error (node_of_missing hget)⟩
  | some target =>
    rw [bind_of_ok (node_of_get? hget)]
    cases hposition : scene.tree.positionFrom tag scene.tree.budget target.parent
        (target.frame.x, target.frame.y) with
    | error err => exact .inl ⟨err, bind_of_error (query_of_error hposition)⟩
    | ok found =>
      obtain ⟨parent, x, y⟩ := found
      rw [bind_of_ok (query_of_ok hposition)]
      -- the node measured against is escalated; all before only reads the tree
      rcases escalate_cases hwf hflags parent with ⟨err, herr⟩ | ⟨done, hdone, -, hup⟩
      · exact .inl ⟨err, bind_of_error herr⟩
      · obtain ⟨above, habove, -⟩ := Tree.get?_of_createdAt hup.view
        right
        show ∃ frame flag done, escalate frame.tag scene = .ok flag done ∧
          (escalate parent >>= _ : MountM κ (RelativeFrame κ)) scene = .ok frame done
        rw [bind_of_ok hdone, bind_of_ok (node_of_get? habove)]
        exact ⟨_, _, done, hdone, rfl⟩

/-- Measuring against the native parent gives it a view. -/
theorem relativeFrame_cases (hwf : scene.tree.WellFormed) (hflags : scene.tree.FlagsSound)
    (tag : Tag) : (∃ err, relativeFrame tag scene = .error err scene) ∨
      ∃ frame done, relativeFrame tag scene = .ok frame done ∧ Ascent scene done ∧
        done.tree.createdAt frame.tag = true := by
  rcases relativeFrame_escalates hwf hflags tag with herr | ⟨frame, flag, done, hup, hok⟩
  · exact .inl herr
  · obtain ⟨hascent, hview⟩ := escalate_ascends hwf hflags hup
    exact .inr ⟨frame, done, hok, hascent, hview⟩

/-- Routing touches fails and changes nothing, or is the escalation of the node they are routed
to. -/
theorem touchView_escalates (hwf : scene.tree.WellFormed) (hflags : scene.tree.FlagsSound)
    (tag : Tag) : (∃ err, touchView tag scene = .error err scene) ∨
      ∃ target flag done, escalate target scene = .ok flag done ∧
        touchView tag scene = .ok target done := by
  unfold touchView
  -- finding the target only reads the tree
  cases htarget : scene.tree.touchTarget tag with
  | error err => exact .inl ⟨err, bind_of_error (query_of_error htarget)⟩
  | ok target =>
    rw [bind_of_ok (query_of_ok htarget)]
    rcases escalate_cases hwf hflags target with ⟨err, herr⟩ | ⟨done, hdone, -⟩
    · exact .inl ⟨err, bind_of_error herr⟩
    · refine .inr ⟨target, _, done, hdone, ?_⟩
      rw [bind_of_ok hdone]
      rfl

/-- Touches are routed to a node that is given a view. -/
theorem touchView_cases (hwf : scene.tree.WellFormed) (hflags : scene.tree.FlagsSound) (tag : Tag) :
    (∃ err, touchView tag scene = .error err scene) ∨
    ∃ target done, touchView tag scene = .ok target done ∧ Ascent scene done ∧
      done.tree.createdAt target = true := by
  rcases touchView_escalates hwf hflags tag with herr | ⟨target, flag, done, hup, hok⟩
  · exact .inl herr
  · obtain ⟨hascent, hview⟩ := escalate_ascends hwf hflags hup
    exact .inr ⟨target, done, hok, hascent, hview⟩

/-! ## Passes

A pass opens, brings every root up to date and closes. The second of these never fails, so a pass
fails only if it is nested. -/

/-- A pass that brings all roots up to date hands over what has piled up. -/
theorem runPass_of_refreshed {done : Scene κ} (hclosed : scene.mount.passOpen = false)
    (h : refreshRoots { scene with mount := { scene.mount with passOpen := true } } = .ok () done) :
    runPass scene = ({
        result := .ok done.mount.closePass.1.count, flush := some done.mount.closePass.1 },
      { done with mount := done.mount.closePass.2 }) := by
  have hopen : openPass scene =
      .ok () { scene with mount := { scene.mount with passOpen := true } } := by
    unfold openPass
    rw [get_bind, hclosed]
    rfl
  rw [runPass, hopen]
  simp only [h]
  rfl

/-- A pass that is not nested never fails. -/
theorem runPass_ok (hwf : scene.tree.WellFormed) (hflags : scene.tree.FlagsSound)
    (hclosed : scene.mount.passOpen = false) :
    ∃ done, Run { scene with mount := { scene.mount with passOpen := true } } done ∧
      (∀ root ∈ scene.tree.roots, Settled done root) ∧
      runPass scene = ({
          result := .ok done.mount.closePass.1.count, flush := some done.mount.closePass.1 },
        { done with mount := done.mount.closePass.2 }) := by
  -- a pass runs on the scene with the mark set, which neither links nor flags depend on
  obtain ⟨done, hrefresh, hrun, hsettled⟩ := @refreshRoots_ok _ _
    { scene with mount := { scene.mount with passOpen := true } } hwf hflags
  exact ⟨done, hrun, hsettled, runPass_of_refreshed hclosed hrefresh⟩

end Mount

end ShadowMount
