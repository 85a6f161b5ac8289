import ShadowMount.Proofs.Core.Escalation
import ShadowMount.Proofs.Mount.Requests

/-!
# Where touches and measurements go

Three walks look for the view that stands in for a node. Touches pass over virtual nodes first and
then over nodes that do not mount. A measurement adds up positions on its way. The native parent is
found by a walk of its own, which starts above the node. They all answer the first node of the
lineage that mounts, where the node itself counts for touches alone.

* **`Tree.touchTarget_eq`**, **`Tree.positionFrom_eq`** — what the walks answer.
* **`Mount.escalate_target`** — the escalation of a node that mounts fails exactly where no view is
  above it, and changes no flag.
* **`Mount.targets_agree`** — touches and measurements go to the same view.
-/

namespace ShadowMount

/-- A frame in fractions of the size of another one. -/
def Frame.fractionsOf {κ : Type} [Coordinate κ] (frame bounds : Frame κ) : Frame κ :=
  ⟨fraction frame.x bounds.width, fraction frame.y bounds.height,
    fraction frame.width bounds.width, fraction frame.height bounds.height⟩

namespace Tree

variable {κ : Type} {tree : Tree κ} {t : Tag} {l : List Tag}

/-! ## The walk of touches

Passing over virtual nodes first and over the rest after that comes to the same as looking for the
first node that mounts, as no virtual node does. -/

/-- A walk past some nodes answers the first node of the lineage that it does not pass. -/
theorem climbPast_eq {skip : Node κ → Bool} {keep : Tag → Bool}
    (hskip : ∀ {x node}, tree.get? x = some node → skip node = !keep x) (origin : Tag)
    (h : tree.Lineage t l) : ∀ {steps : Nat}, l.length ≤ steps →
      tree.climbPast skip origin steps t =
        (l.find? keep).elim (.error (.noMountingAncestor origin)) .ok := by
  induction h with
  | @top t hcontains hnone =>
    intro steps hsteps
    obtain ⟨node, hget⟩ := contains_iff.mp hcontains
    obtain ⟨steps, rfl⟩ : ∃ k, steps = k + 1 := ⟨steps - 1, by simp at hsteps; omega⟩
    rw [parentOf?_of_get? hget] at hnone
    rw [climbPast, node_of_get? hget, ok_bind, hskip hget, hnone, List.find?_cons]
    cases keep t <;> rfl
  | @up t p l hparent _ ih =>
    intro steps hsteps
    obtain ⟨node, hget, hnode⟩ := get?_of_parentOf? hparent
    rw [List.length_cons] at hsteps
    obtain ⟨steps, rfl⟩ : ∃ k, steps = k + 1 := ⟨steps - 1, by omega⟩
    rw [climbPast, node_of_get? hget, ok_bind, hskip hget, hnode, List.find?_cons]
    -- the first node of the lineage is kept, or the search goes on behind it
    cases keep t with
    | true => rfl
    | false => exact ih (by omega)

/-- The way up from the first node of a lineage that satisfies `keep` finds what the way from the
start finds, as far as that satisfies `keep` too. -/
theorem Lineage.from_found {keep : Tag → Bool} {v : Tag} (h : tree.Lineage t l)
    (hfound : l.find? keep = some v) : ∃ rest, tree.Lineage v rest ∧ rest.length ≤ l.length ∧
      ∀ wanted : Tag → Bool, (∀ x, wanted x = true → keep x = true) →
        l.find? wanted = rest.find? wanted := by
  -- if the start satisfies `keep`, the way from the found node is the whole way
  have hhere : ∀ {t : Tag} {l : List Tag}, tree.Lineage t (t :: l) → keep t = true →
      (t :: l).find? keep = some v → ∃ rest, tree.Lineage v rest ∧
        rest.length ≤ (t :: l).length ∧ ∀ wanted : Tag → Bool,
          (∀ x, wanted x = true → keep x = true) → (t :: l).find? wanted = rest.find? wanted := by
    intro t l hl hkeep hfound
    rw [List.find?_cons_of_pos hkeep] at hfound
    cases hfound
    exact ⟨_, hl, Nat.le_refl _, fun _ _ => rfl⟩
  induction h with
  | @top t hcontains hnone =>
    cases hkeep : keep t with
    | true => exact hhere (.top hcontains hnone) hkeep hfound
    | false => simp [hkeep] at hfound
  | @up t p l hparent hrest ih =>
    cases hkeep : keep t with
    | true => exact hhere (.up hparent hrest) hkeep hfound
    | false =>
      rw [List.find?_cons_of_neg (by simp [hkeep])] at hfound
      obtain ⟨rest, hrest, hlength, hsame⟩ := ih hfound
      -- otherwise the start is not wanted either
      refine ⟨rest, hrest, Nat.le_succ_of_le hlength, fun wanted hwanted => ?_⟩
      rw [List.find?_cons_of_neg, hsame wanted hwanted]
      intro ht
      rw [hwanted t ht] at hkeep
      cases hkeep

/-- Touches go to the first node of the lineage that mounts: virtual nodes do not mount, so passing
over them first makes no difference. -/
theorem touchTarget_eq (hwf : tree.WellFormed) (hflags : tree.FlagsSound) (h : tree.Lineage t l) :
    tree.touchTarget t =
      (l.find? tree.mountsAt).elim (.error (.noMountingAncestor t)) .ok := by
  have hbudget : l.length ≤ tree.budget := Nat.le_succ_of_le (h.length_le_size hwf)
  -- the two walks as searches through the lineage
  let visible (x : Tag) : Bool := !(tree.get? x).any (·.isVirtual)
  have hvisible : ∀ {x node}, tree.get? x = some node → node.isVirtual = !visible x := by
    intro x node hget
    simp [visible, hget]
  have hmounts : ∀ {x node}, tree.get? x = some node → (!node.mounts) = !tree.mountsAt x := by
    intro x node hget
    rw [mountsAt_of_get? hget]
  have hwanted : ∀ x, tree.mountsAt x = true → visible x = true := by
    intro x hx
    obtain ⟨node, hget, hnode⟩ := get?_of_mountsAt hx
    simp [visible, hget, hflags.not_virtual hget hnode]
  rw [touchTarget, climbPast_eq hvisible t h hbudget]
  -- if every node is virtual, none of them mounts
  cases hfound : l.find? visible with
  | none =>
    have hnone : l.find? tree.mountsAt = none := by
      rw [List.find?_eq_none] at hfound ⊢
      exact fun x hx hmounts => hfound x hx (hwanted x hmounts)
    rw [hnone]
    rfl
  -- the second walk starts from the first visible node, and nothing that mounts was passed over
  | some v =>
    obtain ⟨rest, hrest, hlength, hsame⟩ := h.from_found hfound
    rw [hsame tree.mountsAt hwanted]
    exact climbPast_eq hmounts t hrest (Nat.le_trans hlength hbudget)

/-- Above a node that does not mount, the first node of the lineage that mounts is its native
parent. -/
theorem Lineage.find?_mountsAt_iff (hwf : tree.WellFormed) (h : tree.Lineage t l)
    (hnot : tree.mountsAt t = false) {p : Tag} :
    l.find? tree.mountsAt = some p ↔ tree.NativeParent t p := by
  induction h with
  | @top t hcontains hnone =>
    rw [List.find?_cons_of_neg (by simp [hnot])]
    refine ⟨nofun, fun hp => ?_⟩
    obtain ⟨q, hq, -⟩ := hp.ancestor.parent_inSubtree
    rw [hnone] at hq
    cases hq
  | @up t q l hparent hrest ih =>
    rw [List.find?_cons_of_neg (by simp [hnot])]
    -- the next node up is the native parent, or it is looked past
    cases hq : tree.mountsAt q with
    | true =>
      have hnative : tree.NativeParent t q := ⟨.parent hparent, hq⟩
      have hfirst : l.find? tree.mountsAt = some q := by
        cases hrest <;> exact List.find?_cons_of_pos hq
      rw [hfirst, Option.some.injEq]
      exact ⟨fun heq => heq ▸ hnative, fun hp => hnative.unique hwf hp⟩
    | false => exact (ih hq).trans (nativeParent_beyond_iff hparent hq).symm

/-! ## The walk of measurements

This walk starts above the node, adds the positions of the nodes that it passes, and fails if none
of them mounts. -/

/-- The position of a node is found by the walk to its native parent and the sum on the way. -/
theorem positionFrom_eq [Coordinate κ] (origin : Tag) : ∀ (steps : Nat) (start : Option Tag)
    (position : κ × κ), tree.positionFrom origin steps start position =
      tree.firstMounting steps start >>= fun found => match found with
        | none => .error (.noMountingAncestor origin)
        | some p => tree.sumOffsets steps start position >>= fun total => .ok (p, total)
  | 0, none, _ | _ + 1, none, _ | 0, some _, _ => rfl
  | steps + 1, some tag, (x, y) => by
    rw [positionFrom, firstMounting, sumOffsets]
    cases hget : tree.get? tag with
    | none =>
      rw [node_of_get?_none hget]
      rfl
    | some node =>
      rw [node_of_get? hget, ok_bind, ok_bind, ok_bind]
      cases node.mounts with
      | true => rfl
      | false => exact positionFrom_eq origin steps node.parent _

/-- The walk of a measurement ends at the native parent, if there is one. -/
theorem positionFrom_cases [Coordinate κ] (hwf : tree.WellFormed) {node : Node κ}
    (hget : tree.get? t = some node) (position : κ × κ) :
    (∃ p total, tree.positionFrom t tree.budget node.parent position = .ok (p, total) ∧
      tree.sumOffsets tree.budget node.parent position = .ok total ∧ tree.NativeParent t p) ∨
    (tree.positionFrom t tree.budget node.parent position = .error (.noMountingAncestor t) ∧
      ∀ p, ¬ tree.NativeParent t p) := by
  obtain ⟨l, hl⟩ := hwf.exists_lineage (contains_of_get? hget)
  have hbudget : l.length ≤ tree.budget := Nat.le_succ_of_le (hl.length_le_size hwf)
  have hparent := parentOf?_of_get? hget
  rw [positionFrom_eq, ← hparent]
  rcases firstMounting_cases hwf hl hbudget with ⟨p, hfirst, hp⟩ | ⟨hfirst, hnone⟩
  · obtain ⟨total, hsum⟩ := sumOffsets_ok hwf hl position hbudget
    refine .inl ⟨p, total, ?_, hsum, hp⟩
    rw [hfirst, ok_bind]
    show (tree.sumOffsets tree.budget (tree.parentOf? t) position >>= _) = _
    rw [hsum, ok_bind]
  · refine .inr ⟨?_, hnone⟩
    rw [hfirst]
    rfl

end Tree

namespace Mount

open MountM

variable {κ : Type} [Coordinate κ] {scene done : Scene κ} {t p r : Tag}

/-- The escalation of a node that mounts fails exactly if neither it nor any of its ancestors has a
view. Otherwise views are created and nothing else changes in the tree. -/
theorem escalate_target (hsound : scene.tree.Sound) (hr : scene.tree.mountsAt r = true) :
    (scene.tree.Barren r ∧ ∃ err, escalate r scene = .error err scene) ∨
    (¬ scene.tree.Barren r ∧ ∃ flag done, escalate r scene = .ok flag done ∧
      scene.tree.Grown done.tree ∧ done.tree.createdAt r = true) := by
  have hwf := hsound.wellFormed
  have hflags := hsound.flags
  obtain ⟨found, hget, hmounts⟩ := Tree.get?_of_mountsAt hr
  have houtcome := escalate_outcome hwf hflags hget (hflags.not_virtual hget hmounts)
  -- an escalation answers or fails, and each case has its own reason
  cases hrun : escalate r scene with
  | error err failed =>
    rw [hrun] at houtcome
    cases houtcome with
    | barren top hbarren => exact .inl ⟨hbarren, _, rfl⟩
  | ok flag done =>
    have hview := (escalate_ascends hwf hflags hrun).2
    rw [hrun] at houtcome
    refine .inr ?_
    cases houtcome with
    -- the view was there, and counts as one of its own lineage
    | refreshed hcreated hsurfaced =>
      refine ⟨fun hbarren => ?_, _, done, rfl, hsurfaced.grown, hview⟩
      rw [hbarren r (.refl r)] at hcreated
      cases hcreated
    -- an escalation that creates views finds one above
    | raised hsummit hraised =>
      have hgrown := hraised.surfaced.grown
      rw [promoted_of_mounts hget hmounts] at hgrown
      obtain ⟨-, a, ha, hcreated⟩ := hsummit.view_above
      refine ⟨fun hbarren => ?_, _, done, rfl, hgrown, hview⟩
      rw [hbarren a (.inr ha)] at hcreated
      cases hcreated

/-- A touch with a target is the escalation of the target. -/
theorem touchView_of_target (htarget : scene.tree.touchTarget t = .ok r) :
    touchView t scene = (escalate r >>= fun _ => pure r) scene := by
  unfold touchView
  exact bind_of_ok (query_of_ok htarget)

/-- A measurement, once the position of the node is known: the native parent is escalated and its
frame looked up. -/
theorem relativeFrame_of_position {target : Node κ} {x y : κ}
    (hget : scene.tree.get? t = some target)
    (hposition : scene.tree.positionFrom t scene.tree.budget target.parent
      (target.frame.x, target.frame.y) = .ok (p, x, y)) :
    relativeFrame t scene = (escalate p >>= fun _ => node p >>= fun above => pure
      ⟨p, { target.frame with x, y }.fractionsOf above.frame⟩) scene := by
  unfold relativeFrame
  rw [bind_of_ok (node_of_get? hget), bind_of_ok (query_of_ok hposition)]
  rfl

/-! ## Requests that go to a view

Both requests look for a view and then make sure of it by an escalation. For a node that does not
mount they look for the same one, and all that follows is the same action. -/

/-- A request comes down to the escalation of `r`: it fails if that fails, and answers with `r` if
that succeeds. -/
structure Delegates {α : Type} (request : MountM κ α) (view : α → Tag) (scene : Scene κ) (r : Tag) :
    Prop where
  mounts : scene.tree.mountsAt r = true
  error : ∀ {err failed}, escalate r scene = .error err failed → request scene = .error err failed
  ok : ∀ {flag done}, escalate r scene = .ok flag done →
    ∃ answer, view answer = r ∧ request scene = .ok answer done

section Delegates

variable {α : Type} {request : MountM κ α} {view : α → Tag}

/-- A request that comes down to the escalation of `r` fails exactly if `r` is on barren ground, and
otherwise answers with `r`, which has its view then. -/
theorem Delegates.cases (h : Delegates request view scene r) (hsound : scene.tree.Sound) :
    (scene.tree.Barren r ∧ ∃ err, request scene = .error err scene) ∨
    (¬ scene.tree.Barren r ∧ ∃ answer done, request scene = .ok answer done ∧ view answer = r ∧
      scene.tree.Grown done.tree ∧ done.tree.createdAt r = true) := by
  rcases escalate_target hsound h.mounts with
    ⟨hbarren, err, herr⟩ | ⟨hbarren, flag, done, hok, hgrown, hview⟩
  · exact .inl ⟨hbarren, err, h.error herr⟩
  · obtain ⟨answer, hanswer, hrequest⟩ := h.ok hok
    exact .inr ⟨hbarren, answer, done, hrequest, hanswer, hgrown, hview⟩

/-- What a request that succeeds has done. -/
theorem Delegates.of_ok (h : Delegates request view scene r) (hsound : scene.tree.Sound)
    {answer : α} (hok : request scene = .ok answer done) : view answer = r ∧
      scene.tree.Grown done.tree ∧ done.tree.createdAt r = true := by
  rcases h.cases hsound with ⟨-, err, herr⟩ | ⟨-, answer', done', hok', hdone⟩
  · rw [herr] at hok
    cases hok
  · rw [hok'] at hok
    cases hok
    exact hdone

/-- Two requests that come down to the same escalation succeed together. -/
theorem Delegates.agree {β : Type} {other : MountM κ β} {view' : β → Tag}
    (h : Delegates request view scene r) (h' : Delegates other view' scene r)
    (hok : ∃ answer, request scene = .ok answer done) :
    ∃ answer, view' answer = r ∧ other scene = .ok answer done := by
  obtain ⟨answer, hok⟩ := hok
  cases hup : escalate r scene with
  | error err failed =>
    rw [h.error hup] at hok
    cases hok
  | ok flag mid =>
    obtain ⟨_, -, hmid⟩ := h.ok hup
    rw [hmid] at hok
    cases hok
    exact h'.ok hup

end Delegates

/-- No flag that makes a node mount has changed, and a failure has changed nothing. -/
def Discreet {α : Type} (request : MountM κ α) (scene : Scene κ) : Prop :=
  (∀ x, (leaves request scene).tree.mountsAt x = scene.tree.mountsAt x) ∧
    ∀ err failed, request scene = .error err failed → failed = scene

omit [Coordinate κ] in
/-- A failure that leaves the scene as it was is discreet. -/
theorem Discreet.of_error {α : Type} {request : MountM κ α} {err : UiError}
    (h : request scene = .error err scene) : Discreet request scene := by
  refine ⟨fun x => by rw [leaves_of_error h], fun err' failed hfailed => ?_⟩
  rw [h] at hfailed
  cases hfailed
  rfl

/-- A request that comes down to an escalation of a mounting node is discreet, because that node has
no flag to be set. -/
theorem Delegates.discreet {α : Type} {request : MountM κ α} {view : α → Tag}
    (h : Delegates request view scene r) (hsound : scene.tree.Sound) : Discreet request scene := by
  rcases h.cases hsound with ⟨-, err, herr⟩ | ⟨-, answer, done, hok, -, hgrown, -⟩
  · exact .of_error herr
  · refine ⟨fun x => by rw [leaves_of_ok hok, hgrown.mountsAt], fun err failed hfailed => ?_⟩
    rw [hok] at hfailed
    cases hfailed

/-- Touches go to the first node of the lineage that mounts. -/
theorem touchView_delegates (hsound : scene.tree.Sound) {l : List Tag}
    (hl : scene.tree.Lineage t l) :
    (l.find? scene.tree.mountsAt = none ∧
      touchView t scene = .error (.noMountingAncestor t) scene) ∨
    ∃ r, l.find? scene.tree.mountsAt = some r ∧ Delegates (touchView t) id scene r := by
  have htarget := Tree.touchTarget_eq hsound.wellFormed hsound.flags hl
  cases hfound : l.find? scene.tree.mountsAt with
  | none =>
    rw [hfound] at htarget
    refine .inl ⟨rfl, ?_⟩
    unfold touchView
    exact bind_of_error (query_of_error htarget)
  | some r =>
    rw [hfound] at htarget
    refine .inr ⟨r, rfl, List.find?_some hfound, fun herr => ?_, fun hok => ⟨r, rfl, ?_⟩⟩
    · rw [touchView_of_target htarget, bind_of_error herr]
    · rw [touchView_of_target htarget, bind_of_ok hok]
      rfl

/-- Measurements go to the native parent. -/
theorem relativeFrame_delegates (hsound : scene.tree.Sound) (ht : scene.tree.contains t = true) :
    (∀ p, ¬ scene.tree.NativeParent t p) ∧
      relativeFrame t scene = .error (.noMountingAncestor t) scene ∨
    ∃ p, scene.tree.NativeParent t p ∧ Delegates (relativeFrame t) RelativeFrame.tag scene p := by
  obtain ⟨target, hget⟩ := Tree.contains_iff.mp ht
  rcases Tree.positionFrom_cases hsound.wellFormed hget (target.frame.x, target.frame.y) with
    ⟨p, ⟨x, y⟩, hposition, -, hp⟩ | ⟨hposition, hnone⟩
  · have hrequest := relativeFrame_of_position hget hposition
    refine .inr ⟨p, hp, hp.2, fun herr => ?_, fun {flag done} hok => ?_⟩
    · rw [hrequest, bind_of_error herr]
    · have hview := (escalate_ascends hsound.wellFormed hsound.flags hok).2
      obtain ⟨above, habove, -⟩ := Tree.get?_of_createdAt hview
      refine ⟨⟨p, { target.frame with x, y }.fractionsOf above.frame⟩, rfl, ?_⟩
      rw [hrequest, bind_of_ok hok, bind_of_ok (node_of_get? habove)]
      rfl
  · refine .inl ⟨hnone, ?_⟩
    unfold relativeFrame
    rw [bind_of_ok (node_of_get? hget), bind_of_error (query_of_error hposition)]

/-- Touches of a node go to the first node of its lineage that mounts, and give it a view; they fail
if there is no such node, and otherwise exactly if no view is above it. For a node that does not
mount, a measurement succeeds in the same cases, with the same view, that of its native parent, and
the same effect. Neither request changes which nodes mount, and where one fails nothing has
changed. -/
theorem targets_agree {tree : Tree κ} (h : tree.Reachable) (mount : MountState κ)
    (log : List Log.Line) {t : Tag} (ht : tree.contains t = true) :
    let scene : Scene κ := ⟨tree, mount, log⟩
    ∃ line, tree.lineage t = .ok line ∧
      (∀ r done, touchView t scene = .ok r done →
        line.find? tree.mountsAt = some r ∧ done.tree.createdAt r = true) ∧
      (line.find? tree.mountsAt = none →
        touchView t scene = .error (.noMountingAncestor t) scene) ∧
      (∀ r, line.find? tree.mountsAt = some r →
        ((∃ err failed, touchView t scene = .error err failed) ↔
          ∀ a, a = r ∨ tree.Ancestor a r → tree.createdAt a = false)) ∧
      (tree.mountsAt t = false → ∀ r done,
        (touchView t scene = .ok r done ↔ ∃ f, f.tag = r ∧ relativeFrame t scene = .ok f done) ∧
        (touchView t scene = .ok r done → tree.nativeParent t = .ok (some r))) ∧
      Discreet (touchView t) scene ∧ Discreet (relativeFrame t) scene := by
  intro scene
  have hsound : scene.tree.Sound := h.sound
  have hwf := hsound.wellFormed
  obtain ⟨line, hline⟩ := hwf.exists_lineage ht
  have htouch := touchView_delegates hsound hline
  have hmeasure := relativeFrame_delegates hsound ht
  have hquiet : Discreet (relativeFrame t) scene :=
    hmeasure.elim (fun hnone => .of_error hnone.2) fun ⟨_, _, hp⟩ => hp.discreet hsound
  refine ⟨line, Tree.lineage_eq hwf hline, ?_⟩
  rcases htouch with ⟨hnone, herr⟩ | ⟨r, hfound, hr⟩
  · -- nothing mounts on the way up, so there is no native parent either
    rw [hnone]
    refine ⟨fun r done hok => ?_, fun _ => herr, nofun, fun hnot r done => ?_, .of_error herr,
      hquiet⟩
    · rw [herr] at hok
      cases hok
    -- a native parent would be the first node on the way up that mounts
    · have hloose : ∀ p, ¬ tree.NativeParent t p := fun p hp => by
        rw [← hline.find?_mountsAt_iff hwf hnot, hnone] at hp
        cases hp
      rcases hmeasure with ⟨-, herr'⟩ | ⟨p, hp, -⟩
      · rw [herr, herr']
        exact ⟨⟨nofun, nofun⟩, nofun⟩
      · exact absurd hp (hloose p)
  · rw [hfound]
    refine ⟨fun r' done hok => ?_, nofun, fun r' hr' => ?_, fun hnot r' done => ?_,
      hr.discreet hsound, hquiet⟩
    · obtain ⟨rfl, -, hview⟩ := hr.of_ok hsound hok
      exact ⟨rfl, hview⟩
    -- the touch comes down to the escalation of `r`, and so fails exactly on barren ground
    · obtain rfl := Option.some.inj hr'
      rcases hr.cases hsound with ⟨hbarren, err, herr⟩ | ⟨hbarren, answer, done, hok, -⟩
      · exact ⟨fun _ a ha => hbarren a (ha.imp_left Eq.symm), fun _ => ⟨err, scene, herr⟩⟩
      · rw [hok]
        exact ⟨nofun, fun hall => absurd (fun a ha => hall a (ha.imp_left Eq.symm)) hbarren⟩
    -- for a node that does not mount, both requests come down to the escalation of one view
    · have hnative := (hline.find?_mountsAt_iff hwf hnot).mp hfound
      obtain ⟨p, hp, hmeasured⟩ := hmeasure.resolve_left fun hnone => hnone.1 r hnative
      obtain rfl := hnative.unique hwf hp
      refine ⟨⟨fun hok => ?_, ?_⟩, fun hok => ?_⟩
      · obtain ⟨rfl, -⟩ := hr.of_ok hsound hok
        exact hr.agree hmeasured ⟨_, hok⟩
      · rintro ⟨f, rfl, hok⟩
        obtain ⟨rfl, -⟩ := hmeasured.of_ok hsound hok
        obtain ⟨_, rfl, hok⟩ := hmeasured.agree hr ⟨f, hok⟩
        exact hok
      · obtain ⟨rfl, -⟩ := hr.of_ok hsound hok
        exact Tree.nativeParent_eq_some hwf hnative

/-- Touches and measurements of node 4 go to node 3, which has no view at first. -/
theorem targets_agree_chains : ∃ done f, touchView 4 ⟨Sample.chains, {}, []⟩ = .ok 3 done ∧
    relativeFrame 4 ⟨Sample.chains, {}, []⟩ = .ok f done ∧ f.tag = 3 ∧
    Sample.chains.nativeParent 4 = .ok (some 3) ∧
    Sample.chains.createdAt 3 = false ∧ done.tree.createdAt 3 = true := by
  have hworks : (match touchView 4 ⟨Sample.chains, {}, []⟩ with
      | .ok 3 _ => true
      | _ => false) = true := by decide +kernel
  split at hworks
  · next done hrun =>
    obtain ⟨line, -, htouch, -, -, hsame, -⟩ :=
      targets_agree Sample.chains_reachable {} [] (t := 4) (by decide +kernel)
    obtain ⟨hiff, hparent⟩ := hsame (by decide +kernel) 3 done
    obtain ⟨f, hf, hmeasured⟩ := hiff.mp hrun
    exact ⟨done, f, hrun, hmeasured, hf, hparent hrun, by decide +kernel, (htouch 3 done hrun).2⟩
  · cases hworks

end Mount

end ShadowMount
