import ShadowMount.Proofs.Core.Agreement
import ShadowMount.Proofs.Core.Backing
import ShadowMount.Proofs.Core.Targets

/-!
# Measured frames

A node without a view of its own is measured in fractions of the view that draws it. If the node
gets a view right after, it lies where it was measured: in exact arithmetic the fractions of the
size of the native parent give the frame that is sent for the new view.

* **`Coordinate.Fractional`** — what is asked of division. Nothing is said of division by zero.
* **`Mount.Journey.frame_once`** — a view that is created on a journey is sent its frame once.
* **`Mount.escalate_frames`** — the frame that an escalation below a view sends for the node.
* **`Mount.measured_mounting`** — measuring and mounting agree.
-/

namespace ShadowMount

/-- Exact arithmetic with exact division by anything but zero. -/
class Coordinate.Fractional (κ : Type) [Coordinate κ] : Prop extends Coordinate.Exact κ where
  /-- Comparison finds no two numbers equal that are not. -/
  eq_of_beq : ∀ {a b : κ}, (a == b) = true → a = b
  /-- A quotient times its divisor is the dividend. -/
  div_mul : ∀ a {b : κ}, b ≠ 0 → a / b * b = a

instance : Coordinate.Fractional Rat where
  eq_of_beq := eq_of_beq
  div_mul _ _ h := Rat.div_mul_cancel h

section Fractions

variable {κ : Type} [Coordinate κ] [Coordinate.Fractional κ]

/-- An extent that is zero is not divided by. -/
theorem fraction_zero (value : κ) : fraction value 0 = 0 :=
  if_pos (Coordinate.Exact.beq_self 0)

/-- A fraction of an extent, times the extent, is the value. -/
theorem fraction_mul (value : κ) {extent : κ} (h : extent ≠ 0) :
    fraction value extent * extent = value := by
  rw [fraction, if_neg fun hzero => h (Coordinate.Fractional.eq_of_beq hzero)]
  exact Coordinate.Fractional.div_mul value h

/-- Fractions of a size, times that size. -/
theorem Frame.fractionsOf_mul (frame : Frame κ) {bounds : Frame κ} (hwidth : bounds.width ≠ 0)
    (hheight : bounds.height ≠ 0) : (⟨(frame.fractionsOf bounds).x * bounds.width,
      (frame.fractionsOf bounds).y * bounds.height,
      (frame.fractionsOf bounds).width * bounds.width,
      (frame.fractionsOf bounds).height * bounds.height⟩ : Frame κ) = frame := by
  simp only [fractionsOf, fraction_mul _ hwidth, fraction_mul _ hheight]

end Fractions

/-- The sum on the way up, from another start. -/
theorem Tree.sumOffsets_add {κ : Type} [Coordinate κ] [Coordinate.Exact κ] {tree : Tree κ}
    (x y : κ) : ∀ {steps : Nat} {start : Option Tag} {dx dy sx sy : κ},
      tree.sumOffsets steps start (dx, dy) = .ok (sx, sy) →
        tree.sumOffsets steps start (x + dx, y + dy) = .ok (x + sx, y + sy)
  | 0, none, _, _, _, _, h | _ + 1, none, _, _, _, _, h => by
    cases h
    rfl
  | 0, some _, _, _, _, _, h => nomatch h
  | steps + 1, some tag, dx, dy, sx, sy, h => by
    rw [sumOffsets] at h ⊢
    cases hget : tree.get? tag with
    | none =>
      rw [node_of_get?_none hget] at h
      cases h
    | some node =>
      rw [node_of_get? hget, ok_bind] at h ⊢
      -- both sums end below the same node
      cases hmounts : node.mounts with
      | true =>
        rw [hmounts] at h
        cases h
        rfl
      | false =>
        -- both sums take in the same offset, and go on
        rw [hmounts, if_neg Bool.false_ne_true] at h
        rw [if_neg Bool.false_ne_true, Coordinate.Exact.add_assoc, Coordinate.Exact.add_assoc]
        exact sumOffsets_add x y h

/-- A promotion keeps the frame. -/
theorem Node.frame_promote {κ : Type} (node : Node κ) : node.promote.frame = node.frame := by
  rw [promote]
  split <;> rfl

/-- A promotion does not change the position of its node. -/
theorem Tree.offsetInNativeParent_promote {κ : Type} [Coordinate κ] {tree : Tree κ}
    (hwf : tree.WellFormed) {t : Tag} {node : Node κ} (hget : tree.get? t = some node) :
    (tree.store t node.promote).offsetInNativeParent t = tree.offsetInNativeParent t := by
  rw [offsetInNativeParent, offsetInNativeParent, node_of_get? hget,
    node_of_get? (get?_store_self t node.promote), ok_bind, ok_bind, node.parent_promote,
    (sameLinks_promote hget).budget]
  refine sumOffsets_promote hwf hget fun p hp => ?_
  exact .parent ((parentOf?_of_get? hget).trans hp)

/-- The parent and the frame that an operation sends for the view of `tag`. -/
def Operation.frameFor? {κ : Type} (tag : Tag) : Operation κ → Option (Tag × Frame κ)
  | .setFrame other parent frame => if other = tag then some (parent, frame) else none
  | _ => none

namespace Mount

open MountM

variable {κ : Type} [Coordinate κ] {scene done : Scene κ} {visits : List (Visit κ)}

/-! ## The frame of a new view

A view created by an escalation gets its frame in the same journey and only once. The frame is
computed inside the native parent, from the positions in between. -/

/-- A journey that does not visit the frame of a node sends none for it. -/
theorem Journey.no_frame {x : Tag} (h : Journey visits scene done)
    (hnone : ∀ parent frame, .frame x parent frame ∉ visits) : ∃ operations,
      done.mount.queue = scene.mount.queue ++ operations ∧
        operations.filterMap (Operation.frameFor? x) = [] := by
  obtain ⟨operations, hqueue, hposts⟩ := h.posts
  refine ⟨operations, hqueue, List.filterMap_eq_nil_iff.mpr fun operation hmem => ?_⟩
  cases operation with
  | setFrame other parent frame =>
    have hne : other ≠ x := fun heq => hnone parent frame (heq ▸ hposts other parent frame hmem)
    exact if_neg hne
  | _ => rfl

/-- The frame of a view that has just been created is sent, whatever it is. -/
theorem Journey.frame_once {earlier later : List (Visit κ)} {x p : Tag} {frame : Frame κ}
    (h : Journey (earlier ++ .view x :: .frame x p frame :: later) scene done)
    (hnew : scene.tree.createdAt x = false) (hearlier : ∀ visit ∈ earlier, visit.tag ≠ x)
    (hlater : ∀ q other, .frame x q other ∉ later) : ∃ operations,
      done.mount.queue = scene.mount.queue ++ operations ∧
        operations.filterMap (Operation.frameFor? x) = [(p, frame)] := by
  -- cut before the creation: what comes earlier does not visit the node at all
  obtain ⟨mid, hfirst, hrest⟩ := h.split
  obtain ⟨before, hbefore, hnone⟩ := hfirst.no_frame
    (fun parent other hmem => hearlier _ hmem rfl)
  have hmid : mid.tree.createdAt x = false := by
    refine Bool.eq_false_iff.mpr fun hview => ?_
    rcases (hfirst.createdAt_iff x).mp hview with hview | hvisited
    · rw [hnew] at hview
      cases hview
    · obtain ⟨visit, hmem, hview⟩ := List.mem_filterMap.mp hvisited
      cases visit with
      | view y => exact hearlier _ hmem (Option.some.inj hview)
      | frame | children => cases hview
  -- then the view is created, and its frame comes next
  cases hrest with
  | cons hview hrest =>
  cases hview with
  | kept hview =>
    rw [hmid] at hview
    cases hview
  | @created _ _ node hget hcreated =>
  cases hrest with
  | cons hframe hrest =>
  cases hframe
  obtain ⟨after, hafter, hnone'⟩ := hrest.no_frame hlater
  -- nothing is remembered of a view that is new
  have hsent : (((withView mid x node).mount).sent x).frame = none := by
    rw [withView, MountState.sent_createSent, if_pos rfl]
  refine ⟨before ++ (.create x node.root node.viewClass node.props :: .setFrame x p frame :: after),
    ?_, ?_⟩
  · rw [hafter, MountState.frameSent, hsent, if_neg (by simp)]
    show ((mid.mount.queue ++ [_]) ++ [_]) ++ after = _
    rw [hbefore]
    simp
  · rw [List.filterMap_append, hnone, List.nil_append, List.filterMap_cons_none rfl,
      List.filterMap_cons_some (by exact if_pos rfl), hnone']

/-- Below a view, the escalation of a node without one neither fails nor finds the view in place. -/
theorem escalate_raises {t p : Tag} {found : Node κ} (hsound : scene.tree.Sound)
    (hget : scene.tree.get? t = some found) (hvirtual : found.isVirtual = false)
    (hnew : scene.tree.createdAt t = false) (hparent : scene.tree.NativeParent t p)
    (hview : scene.tree.createdAt p = true) : ∃ after, escalate t scene = .ok true after := by
  have houtcome := escalate_outcome hsound.wellFormed hsound.flags hget hvirtual
  generalize escalate t scene = result at houtcome ⊢
  cases houtcome with
  | barren top hbarren =>
    rw [hbarren p (.inr hparent.ancestor)] at hview
    cases hview
  | refreshed hcreated =>
    rw [hnew] at hcreated
    cases hcreated
  | raised => exact ⟨_, rfl⟩

/-- The visits of an escalation below a view: the view is refreshed, and the subtree of the node
follows, with the view of the node and its frame first. -/
theorem escalate_below_view {tree : Tree κ} {mount : MountState κ} {log : List Log.Line} {t p : Tag}
    {found : Node κ} (hsound : tree.Sound) (hget : tree.get? t = some found)
    (hpromotable : found.isPromotable = true) (hparent : tree.NativeParent t p)
    (hview : tree.createdAt p = true) : ∃ after dx dy later,
      escalate t ⟨tree, mount, log⟩ = .ok true after ∧ tree.createdAt t = false ∧
      tree.offsetInNativeParent t = .ok (dx, dy) ∧
      Journey ((tree.store t found.promote).viewItinerary p ++
        .view t :: .frame t p (found.frame.shift dx dy) :: later)
        ⟨tree.store t found.promote, mount, log⟩ { after with log } ∧
      ∀ q other, .frame t q other ∉ later := by
  have hwf := hsound.wellFormed
  have hwf' := (Tree.kept_promote hget).links.wellFormed hwf
  have hvirtual := Node.not_virtual_of_promotable hpromotable
  have hmounts := Node.mounts_of_promotable hpromotable
  -- a node that can be promoted does not mount, so it has no view
  have hnew : tree.createdAt t = false := (Tree.createdAt_of_get? hget).trans
    (hsound.flags.not_created hget (Node.unmounted_of_promotable hpromotable))
  obtain ⟨after, hok⟩ :=
    @escalate_raises _ _ ⟨tree, mount, log⟩ t p found hsound hget hvirtual hnew hparent hview
  -- follow it visit by visit
  obtain ⟨found', a, visits, hget', hclimb, hfollows⟩ := escalate_follows hsound hok
  obtain rfl := Option.some.inj (hget.symm.trans hget')
  have hjourney := hfollows.journey hok
  have hparent' := (Tree.nativeParent_promote_iff hwf hget (.refl t)).mpr hparent
  -- the first native parent on the way up has a view already
  have hvisits : visits = (tree.store t found.promote).viewItinerary p ++
      (tree.store t found.promote).refreshItinerary t := by
    cases hclimb with
    | view hcreated =>
      rw [Tree.createdAt_promote hget, hnew] at hcreated
      cases hcreated
    | up _ _ hfirst habove =>
      obtain rfl := hparent'.unique hwf' hfirst
      cases habove with
      | view => rfl
      | up hnone =>
        rw [Tree.createdAt_promote hget, hview] at hnone
        cases hnone
  -- the visits to the subtree begin with the view of the node and its frame
  obtain ⟨dx, dy, hoffset, hbelow⟩ := hwf'.refreshItinerary_below hparent'
  have horder := @Tree.WellFormed.pairwise_refreshItinerary _ _ _ t hwf'
  rw [Tree.budget, Tree.itinerary_of_mounting (Tree.get?_store_self ..) hmounts,
    Node.frame_promote] at hbelow
  rw [hvisits, hbelow] at hjourney
  rw [hbelow] at horder
  refine ⟨after, dx, dy, _, hok, hnew, ?_, hjourney, fun q other hmem => ?_⟩
  · rw [← Tree.offsetInNativeParent_promote hwf hget, hoffset]
  -- visits further down belong to other nodes, since no node of the subtree comes twice
  · exact (List.pairwise_cons.mp (List.pairwise_cons.mp horder).2).1 _ hmem rfl

/-- An escalation below a view sends the frame of the node once, relative to that view. -/
theorem escalate_frames {tree : Tree κ} {mount : MountState κ} {log : List Log.Line} {t p : Tag}
    {found : Node κ} (hsound : tree.Sound) (hget : tree.get? t = some found)
    (hpromotable : found.isPromotable = true) (hparent : tree.NativeParent t p)
    (hview : tree.createdAt p = true) : ∃ after dx dy operations,
      escalate t ⟨tree, mount, log⟩ = .ok true after ∧ tree.offsetInNativeParent t = .ok (dx, dy) ∧
      after.mount.queue = mount.queue ++ operations ∧
      operations.filterMap (Operation.frameFor? t) = [(p, found.frame.shift dx dy)] := by
  obtain ⟨after, dx, dy, later, hok, hnew, hoffset, hjourney, hlater⟩ :=
    @escalate_below_view _ _ _ mount log _ _ _ hsound hget hpromotable hparent hview
  have hearlier : ∀ visit ∈ (tree.store t found.promote).viewItinerary p, visit.tag ≠ t := by
    intro visit hvisit heq
    rw [(Tree.tag_of_mem_viewItinerary hvisit).1] at heq
    exact hsound.wellFormed.not_ancestor_self t (heq ▸ hparent.ancestor)
  obtain ⟨operations, hqueue, hframes⟩ := hjourney.frame_once
    ((Tree.createdAt_promote hget t).trans hnew) hearlier hlater
  exact ⟨after, dx, dy, operations, hok, hoffset, hqueue, hframes⟩

/-! ## Measuring and mounting

A measurement takes the offset on its own walk up and divides by the extents of the view that it
meets. Multiplied by an extent that is not zero the fractions are the offset again, as division is
exact; and the offset is the frame that mounting sends. -/

/-- What a measurement answers: the native parent, and the frame of the node inside it in fractions
of its size. -/
theorem relativeFrame_spec {t : Tag} {found : Node κ} {f : RelativeFrame κ}
    (hsound : scene.tree.Sound) (hget : scene.tree.get? t = some found)
    (hok : relativeFrame t scene = .ok f done) : ∃ above x y,
      scene.tree.NativeParent t f.tag ∧
      scene.tree.sumOffsets scene.tree.budget found.parent (found.frame.x, found.frame.y) =
        .ok (x, y) ∧
      scene.tree.get? f.tag = some above ∧
      f.fractions = { found.frame with x, y }.fractionsOf above.frame ∧
      scene.tree.Grown done.tree ∧ done.tree.createdAt f.tag = true := by
  rcases Tree.positionFrom_cases hsound.wellFormed hget (found.frame.x, found.frame.y) with
    ⟨p, ⟨x, y⟩, hposition, hsum, hp⟩ | ⟨hposition, -⟩
  -- a position was found: the native parent escalates, and its frame is read off afterwards
  · rw [relativeFrame_of_position hget hposition] at hok
    rcases escalate_target hsound hp.2 with ⟨-, err, herr⟩ | ⟨-, flag, mid, hup, hgrown, hview⟩
    · rw [bind_of_error herr] at hok
      cases hok
    -- an escalation leaves the frame of the parent alone
    · obtain ⟨above, habove, -⟩ := Tree.get?_of_mountsAt hp.2
      have habove' := hgrown.node p
      rw [habove, Option.map_some] at habove'
      rw [bind_of_ok hup, bind_of_ok (node_of_get? habove')] at hok
      cases hok
      exact ⟨above, x, y, hp, hsum, habove, rfl, hgrown, hview⟩
  -- without a position the measurement fails
  · unfold relativeFrame at hok
    rw [bind_of_ok (node_of_get? hget), bind_of_error (query_of_error hposition)] at hok
    cases hok

/-- In exact arithmetic the walk of a measurement and the walk of a refresh find the same frame. -/
theorem shift_eq_of_sumOffsets [Coordinate.Exact κ] {tree : Tree κ} {t : Tag} {found : Node κ}
    {x y dx dy : κ} (hget : tree.get? t = some found)
    (hsum : tree.sumOffsets tree.budget found.parent (found.frame.x, found.frame.y) = .ok (x, y))
    (hoffset : tree.offsetInNativeParent t = .ok (dx, dy)) :
    found.frame.shift dx dy = { found.frame with x, y } := by
  rw [Tree.offsetInNativeParent, Tree.node_of_get? hget, ok_bind] at hoffset
  have hmoved := Tree.sumOffsets_add found.frame.x found.frame.y hoffset
  rw [Coordinate.Exact.add_zero, Coordinate.Exact.add_zero, hsum] at hmoved
  cases hmoved
  rfl

/-- A node that does not mount is measured against its native parent, which has a view afterwards,
and no node mounts that did not before. An extent that is zero gives fractions that are zero. Against
extents that are not, the fractions tell where the node will lie: an escalation of the node that
follows succeeds and sends one frame for it, relative to that view, which is the fractions times the
size of the native parent. -/
theorem measured_mounting [Coordinate.Fractional κ] {tree : Tree κ} (h : tree.Reachable)
    {mount : MountState κ} {log : List Log.Line} {t : Tag} {found : Node κ} {f : RelativeFrame κ}
    {done : Scene κ} (hget : tree.get? t = some found) (hkind : found.kind = .layoutOnly)
    (hmounts : found.mounts = false) (hok : relativeFrame t ⟨tree, mount, log⟩ = .ok f done) :
    tree.nativeParent t = .ok (some f.tag) ∧ done.tree.createdAt f.tag = true ∧
    (∀ x, done.tree.mountsAt x = tree.mountsAt x) ∧
    ∃ above, tree.get? f.tag = some above ∧
      (above.frame.width = 0 → f.fractions.x = 0 ∧ f.fractions.width = 0) ∧
      (above.frame.height = 0 → f.fractions.y = 0 ∧ f.fractions.height = 0) ∧
      (above.frame.width ≠ 0 → above.frame.height ≠ 0 → ∃ after operations,
        escalate t done = .ok true after ∧ after.mount.queue = done.mount.queue ++ operations ∧
        operations.filterMap (Operation.frameFor? t) = [(f.tag,
          ⟨f.fractions.x * above.frame.width, f.fractions.y * above.frame.height,
            f.fractions.width * above.frame.width, f.fractions.height * above.frame.height⟩)]) := by
  have hsound := h.sound
  have hwf := hsound.wellFormed
  obtain ⟨above, x, y, hp, hsum, habove, hfractions, hgrown, hview⟩ :=
    relativeFrame_spec hsound hget hok
  refine ⟨Tree.nativeParent_eq_some hwf hp, hview, hgrown.mountsAt, above, habove, fun hzero => ?_,
    fun hzero => ?_, fun hwidth hheight => ?_⟩
  -- an extent that is zero gives no fraction of it
  · rw [hfractions, Frame.fractionsOf, hzero, fraction_zero, fraction_zero]
    exact ⟨rfl, rfl⟩
  · rw [hfractions, Frame.fractionsOf, hzero, fraction_zero, fraction_zero]
    exact ⟨rfl, rfl⟩
  -- in the measured tree the node is the old one, up to its flags, and can be promoted
  · obtain ⟨measured, queued, lines⟩ := done
    have hget' : measured.get? t = some { found with created := measured.createdAt t } := by
      rw [hgrown.node, hget, Option.map_some]
    have hpromotable :
        ({ found with created := measured.createdAt t } : Node κ).isPromotable = true := by
      simp [Node.isPromotable, Node.isVirtual, hkind, hmounts]
    obtain ⟨after, dx, dy, operations, hafter, hoffset, hqueue, hframes⟩ :=
      @escalate_frames _ _ measured queued lines _ _ _ (hsound.kept hgrown.kept) hget' hpromotable
        (hgrown.nativeParent hp) hview
    rw [hgrown.offsetInNativeParent] at hoffset
    refine ⟨after, operations, hafter, hqueue, ?_⟩
    -- the sum on the way from the node is the offset of its parent plus its own frame
    rw [hframes, hfractions, Frame.fractionsOf_mul _ hwidth hheight,
      ← shift_eq_of_sumOffsets hget hsum hoffset]

end Mount

namespace Sample

/-- Node 6 below node 4, neither of which mounts, inside node 3, with exact frames. -/
def nested : Tree Rat :=
  [.setFrame 4 ⟨5, 10, 2, 4⟩,
    .register (.fresh 6 1 "View" .layoutOnly) ⟨rfl, rfl, nofun, nofun, nofun⟩, .attach 4 6 0,
    .setFrame 6 ⟨1, 2, 2, 4⟩].foldl
    (fun tree (call : CoreCall Rat) => (leaves call.run ⟨tree, {}, []⟩).tree) measured

theorem nested_reachable : nested.Reachable :=
  Tree.Reachable.calls {} [] _ measured_reachable

end Sample

/-- Node 6 is measured against node 3, and lies where it was measured once it has a view. -/
theorem Mount.measured_mounting_nested : ∃ done after operations,
    relativeFrame 6 ⟨Sample.nested, {}, []⟩ = .ok ⟨3, 3/10, 3/5, 1/10, 1/5⟩ done ∧
      escalate 6 done = .ok true after ∧ after.mount.queue = done.mount.queue ++ operations ∧
      operations.filterMap (Operation.frameFor? 6) = [(3, ⟨6, 12, 2, 4⟩)] := by
  have hworks : (match relativeFrame 6 ⟨Sample.nested, {}, []⟩ with
      | .ok f _ => decide (f = ⟨3, 3/10, 3/5, 1/10, 1/5⟩)
      | _ => false) = true := by decide +kernel
  split at hworks
  · next f done hrun =>
    obtain rfl := of_decide_eq_true hworks
    have hnode : (Sample.nested.get? 6).map (fun node => (node.kind, node.mounts)) =
        some (.layoutOnly, false) := by decide +kernel
    obtain ⟨found, hget, hfound⟩ := Option.map_eq_some_iff.mp hnode
    obtain ⟨hkind, hmounts⟩ := Prod.mk.inj hfound
    obtain ⟨-, -, -, above, habove, -, -, hmounted⟩ :=
      measured_mounting Sample.nested_reachable hget hkind hmounts hrun
    have hbounds : (Sample.nested.get? 3).map (·.frame) = some ⟨1/2, 2/3, 20, 20⟩ := by
      decide +kernel
    rw [habove, Option.map_some, Option.some.injEq] at hbounds
    rw [hbounds] at hmounted
    obtain ⟨after, operations, hafter, hqueue, hframes⟩ := hmounted (by decide) (by decide)
    refine ⟨done, after, operations, hrun, hafter, hqueue, hframes.trans ?_⟩
    decide +kernel
  · cases hworks

end ShadowMount
