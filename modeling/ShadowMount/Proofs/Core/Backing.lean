import ShadowMount.Proofs.Core.Climb

/-!
# Views below views

Whether an escalation leaves a chain of views above the node. The views that it creates hang from
views, but the one that it finds on the way up is taken as it is: if the native parent of that view
has no view of its own, which happens when a node in between was promoted in the meantime, the
escalation does not notice. It then sends a frame relative to a view that does not exist, unless the
frame is the one sent last.

* **`Tree.Foothold`** — the view that an escalation starts from.
* **`Mount.Journey.backed_iff`** — when all frames of a climb are relative to views that exist.
* **`Mount.escalation_backed_iff`** — when an escalation leaves a chain of views and sends no frame
  ahead of the view it refers to.
* **`Mount.frame_below_missing_view`** — a run of calls after which it does neither.
-/

namespace ShadowMount

namespace Tree

variable {κ : Type} {tree : Tree κ} {t a : Tag}

/-- `view` is the nearest to `tag` among `tag` and its ancestors that have a view. -/
structure Foothold (tree : Tree κ) (tag view : Tag) : Prop where
  above : tree.InSubtree view tag
  created : tree.createdAt view = true
  nearest : ∀ a, tree.InSubtree a tag → tree.createdAt a = true → tree.InSubtree a view

/-- The view at the top of a climb is the nearest one: between it and the node nothing has a view.
-/
theorem Climb.foothold [Coordinate κ] {visits : List (Visit κ)} (h : tree.Climb t a visits)
    (hflags : tree.FlagsSound) : tree.Foothold t a := by
  induction h with
  | view hview => exact ⟨.refl _, hview, fun _ hb _ => hb⟩
  | up hview _ hparent _ ih =>
    refine ⟨ih.above.trans (.inr hparent.ancestor), ih.created, fun b hb hcreated => ?_⟩
    rcases hb with rfl | hb
    · rw [hview] at hcreated
      cases hcreated
    -- what has a view mounts, so the way from native parent to native parent leads past it
    · have habove := hparent.1.mounting_ancestor hb (hflags.mountsAt_of_createdAt hcreated)
      exact ih.nearest b habove hcreated

/-- A promotion makes no view, so the nearest view is the one it was. -/
theorem Foothold.of_promote {node : Node κ} {tag view : Tag} (hget : tree.get? tag = some node)
    (h : (tree.store tag node.promote).Foothold tag view) : tree.Foothold tag view := by
  have hlinks := sameLinks_promote hget
  refine ⟨hlinks.inSubtree_iff.mp h.above, ?_, fun b hb hcreated => ?_⟩
  · rw [← createdAt_promote hget]
    exact h.created
  · rw [← createdAt_promote hget] at hcreated
    exact hlinks.inSubtree_iff.mp (h.nearest b (hlinks.inSubtree_iff.mpr hb) hcreated)

variable [Coordinate κ]

/-- A promotion changes no sum that starts above the promoted node. -/
theorem sumOffsets_promote (hwf : tree.WellFormed) {node : Node κ}
    (hget : tree.get? t = some node) : ∀ {steps : Nat} {start : Option Tag} {total : κ × κ},
      (∀ x ∈ start, tree.Ancestor x t) →
        (tree.store t node.promote).sumOffsets steps start total =
          tree.sumOffsets steps start total
  | 0, none, _, _ | _ + 1, none, _, _ | 0, some _, _, _ => rfl
  | steps + 1, some x, total, habove => by
    have hx := habove x rfl
    have hne : t ≠ x := by
      rintro rfl
      exact hwf.not_ancestor_self t hx
    rw [sumOffsets, sumOffsets, Tree.node, Tree.node, get?_store, if_neg hne]
    cases hfound : tree.get? x with
    | none => rfl
    | some found =>
      refine congrArg (ite _ _) (sumOffsets_promote hwf hget fun p hp => ?_)
      have hparent : tree.parentOf? x = some p := (parentOf?_of_get? hfound).trans hp
      exact (Ancestor.parent hparent).trans hx

/-- A promotion does not change the frames of the nodes above. -/
theorem nativeFrame_promote (hwf : tree.WellFormed) {node : Node κ}
    (hget : tree.get? t = some node) (ha : tree.Ancestor a t) :
    (tree.store t node.promote).nativeFrame a = tree.nativeFrame a := by
  have hne : t ≠ a := by
    rintro rfl
    exact hwf.not_ancestor_self t ha
  have hsame : (tree.store t node.promote).node a = tree.node a := by
    rw [Tree.node, Tree.node, get?_store, if_neg hne]
  obtain ⟨found, hfound⟩ := contains_iff.mp (hwf.contains_ancestor ha)
  have hoffset : (tree.store t node.promote).offsetInNativeParent a =
      tree.offsetInNativeParent a := by
    rw [offsetInNativeParent, offsetInNativeParent, hsame, (sameLinks_promote hget).budget,
      node_of_get? hfound]
    refine sumOffsets_promote hwf hget fun p hp => ?_
    exact (Ancestor.parent ((parentOf?_of_get? hfound).trans hp)).trans ha
  rw [nativeFrame, nativeFrame, hoffset, hsame]

/-- The refresh of a view needs no more than the view and its native parent. -/
theorem provided_viewItinerary (hwf : tree.WellFormed) {needs : Visit κ → Tag → Prop}
    (hneeds : Visit.OnlyFrames needs) {has : Tag → Prop} (ht : tree.contains t = true)
    (hview : has t) (hparent : ∀ p, tree.NativeParent t p → has p) :
    Visit.Provided needs has (tree.viewItinerary t) := by
  refine .append_same ?_ (.children hneeds t)
  split
  · exact .nil has
  · split
    · next parent frame hquery _ =>
      refine .frame hneeds hview (hparent parent ?_)
      rcases nativeParent_cases hwf ht with ⟨p, hfound, hp⟩ | ⟨hnone, -⟩
      · rw [hfound] at hquery
        cases hquery
        exact hp
      · rw [hnone] at hquery
        cases hquery
    · exact .nil has

end Tree

namespace Mount

open MountM

variable {κ : Type} [Coordinate κ] {scene done : Scene κ}

/-- The frames of a climb are all relative to views that exist, exactly if the view at its top hangs
from one or has been sent its frame before. -/
theorem Journey.backed_iff {t a : Tag} {visits : List (Visit κ)} (h : Journey visits scene done)
    (hclimb : scene.tree.Climb t a visits) (hwf : scene.tree.WellFormed) : ∃ operations,
      done.mount.queue = scene.mount.queue ++ operations ∧
      (Backed (scene.tree.createdAt · = true) operations ↔
        ∀ q, scene.tree.NativeParent a q → scene.tree.createdAt q = true ∨
          ∃ frame, scene.tree.nativeFrame a = .ok frame ∧
            (scene.mount.sent a).frame.any (·.same frame) = true) := by
  -- the climb begins with a refresh of the view at its top; all that follows hangs from views
  obtain ⟨rest, rfl, hprovided, -, ha, -⟩ := hclimb.parts hwf
  have hcontained := Tree.contains_of_createdAt ha
  have hbelow := hprovided Visit.onlyFrames_needsParent
  obtain ⟨operations, hqueue, -⟩ := h.posts
  have hunique : ∀ {others}, done.mount.queue = scene.mount.queue ++ others →
      others = operations := fun hothers => List.append_cancel_left (hothers.symm.trans hqueue)
  refine ⟨operations, hqueue, fun hbacked q hq => ?_, fun hroots => ?_⟩
  -- if its native parent has no view, its frame may not go out, so it must be the one sent before
  · obtain ⟨frame, hframe⟩ := Tree.nativeFrame_ok hwf hcontained
    cases hsent : (scene.mount.sent a).frame.any (·.same frame) with
    | true => exact .inr ⟨frame, hframe, hsent⟩
    | false =>
      -- the frame goes out first, so nothing was created before it
      rw [Tree.viewItinerary_of_parent hwf hq hframe, List.cons_append] at h
      cases h with
      | cons hvisit hrest =>
        obtain ⟨later, hlater, -⟩ := hrest.posts
        cases hvisit
        have hposted : (scene.mount.frameSent a q frame).queue =
            scene.mount.queue ++ [.setFrame a q frame] := by
          rw [MountState.frameSent, hsent, if_neg Bool.false_ne_true]
          rfl
        have hsplit := hunique (hlater.trans (by rw [hposted, List.append_assoc]))
        exact .inl ((hbacked [] a q frame later hsplit.symm).resolve_right List.not_mem_nil)
  -- with a view above, all frames of the climb hang from views
  · by_cases hparents : ∀ q, scene.tree.NativeParent a q → scene.tree.createdAt q = true
    · have hfirst := Tree.provided_viewItinerary hwf Visit.onlyFrames_needsParent hcontained ha
        hparents
      obtain ⟨others, hothers, hbacked⟩ := h.backed (hfirst.append_same hbelow) fun _ hx => hx
      exact hunique hothers ▸ hbacked
    · obtain ⟨q, hq⟩ := not_forall.mp hparents
      obtain ⟨hq, hview⟩ := Classical.not_imp.mp hq
      obtain ⟨frame, hframe, hsent⟩ := (hroots q hq).resolve_left hview
      -- the frame of the view is up to date, so its visit changes nothing
      rw [Tree.viewItinerary_of_parent hwf hq hframe, List.cons_append] at h
      cases h with
      | cons hvisit hrest =>
        obtain rfl := hvisit.eq_of_current hsent
        obtain ⟨others, hothers, hbacked⟩ := hrest.backed
          ((Visit.Provided.children Visit.onlyFrames_needsParent a).append_same hbelow)
          fun _ hx => hx
        exact hunique hothers ▸ hbacked

/-- Whether the native parent of a node has a view after an escalation. If the node has a view
already, nobody looks; otherwise the native parent got one on the way. -/
theorem escalated_parent_iff {tree : Tree κ} {mount : MountState κ} {log : List Log.Line}
    {tag view : Tag} {answer : Bool} (hsound : tree.Sound)
    (hok : escalate tag ⟨tree, mount, log⟩ = .ok answer done) (hview : tree.Foothold tag view) :
    (∀ p, done.tree.NativeParent tag p → done.tree.createdAt p = true) ↔
      (view = tag → ∀ p, tree.NativeParent tag p → tree.createdAt p = true) := by
  have hwf := hsound.wellFormed
  cases hcreated : tree.createdAt tag with
  -- the node has a view, so the escalation refreshes it and looks no further up
  | true =>
    have htag : view = tag := by
      rcases hview.nearest tag (.refl tag) hcreated with heq | hbelow
      · exact heq
      · exact absurd hbelow (hwf.not_ancestor_of_inSubtree hview.above)
    obtain ⟨found, hget, hfound⟩ := Tree.get?_of_createdAt hcreated
    have hvirtual := hsound.flags.not_virtual hget (hsound.flags.created_mounts hget hfound)
    obtain ⟨done', hrefresh, hjourney⟩ :=
      @refreshView_journey _ _ ⟨tree, mount, log⟩ hwf tag (Tree.contains_of_createdAt hcreated)
    have hok' : escalate tag ⟨tree, mount, log⟩ = .ok false done' :=
      escalateWithin_of_created hget hvirtual hfound hrefresh
    rw [hok'] at hok
    cases hok
    have htree := hjourney.tree_eq fun visit hvisit => (Tree.tag_of_mem_viewItinerary hvisit).2
    rw [htree]
    exact ⟨fun h _ => h, fun h => h htag⟩
  -- the node has none, so the escalation has seen to its native parent first
  | false =>
    have hne : view ≠ tag := by
      rintro rfl
      rw [hview.created] at hcreated
      cases hcreated
    refine iff_of_true (fun p hp => ?_) fun heq => absurd heq hne
    rcases @escalate_cases _ _ ⟨tree, mount, log⟩ hwf hsound.flags tag with
      ⟨err, herr⟩ | ⟨done', hok', hascent, hreached⟩
    · rw [herr] at hok
      cases hok
    · rw [hok'] at hok
      cases hok
      obtain ⟨q, hq, habove⟩ := hreached.above hcreated
      have hwf' := hascent.progress.kept.links.wellFormed hwf
      rw [hp.unique hwf' hq]
      exact habove

/-- When an escalation leaves a chain of views. It starts from the nearest view on the way up. The
native parent of the node has a view afterwards, and every frame goes out below a view that exists,
exactly if the native parent of that nearest view has a view; for a view above the node it is also
enough that its frame was sent before. -/
theorem escalation_backed_iff {tree : Tree κ} (h : tree.Reachable) {mount : MountState κ}
    {log : List Log.Line} {tag : Tag} {answer : Bool} {done : Scene κ}
    (hok : escalate tag ⟨tree, mount, log⟩ = .ok answer done) :
    ∃ view operations, tree.Foothold tag view ∧ done.mount.queue = mount.queue ++ operations ∧
      ((∀ p, done.tree.NativeParent tag p → done.tree.createdAt p = true) ∧
          Backed (tree.createdAt · = true) operations ↔
        ∀ q, tree.NativeParent view q → tree.createdAt q = true ∨ view ≠ tag ∧
          ∃ frame, tree.nativeFrame view = .ok frame ∧
            (mount.sent view).frame.any (·.same frame) = true) := by
  have hsound := h.sound
  have hwf := hsound.wellFormed
  -- follow the escalation as a climb in the tree where the node is promoted
  obtain ⟨found, view, visits, hget, -, hclimb, hruns⟩ :=
    escalateWithin_climbs hwf hsound.flags hok
  obtain ⟨done', hok', hjourney⟩ := hruns mount log
  rw [show escalateWithin tree.budget tag ⟨tree, mount, log⟩ = _ from hok] at hok'
  cases hok'
  have hkept := Tree.kept_promote hget
  have hview := (hclimb.foothold (hkept.flags hsound.flags)).of_promote hget
  obtain ⟨operations, hqueue, hbacked⟩ := hjourney.backed_iff hclimb (hkept.links.wellFormed hwf)
  refine ⟨view, operations, hview, hqueue, ?_⟩
  -- the promotion changes no view, and nothing above the node, so its tree can be forgotten
  simp only [Tree.createdAt_promote hget, Tree.nativeParent_promote_iff hwf hget hview.above]
    at hbacked
  rw [escalated_parent_iff hsound hok hview, hbacked]
  -- a node with a view of its own; the condition on its frame does not count there
  by_cases heq : view = tag
  · subst heq
    exact ⟨fun ⟨hparent, _⟩ q hq => .inl (hparent rfl q hq),
      fun h => ⟨fun _ q hq => (h q hq).resolve_right fun hne => hne.1 rfl,
        fun q hq => .inl ((h q hq).resolve_right fun hne => hne.1 rfl)⟩⟩
  -- a view above the node
  · have habove : tree.Ancestor view tag := hview.above.resolve_left (Ne.symm heq)
    rw [Tree.nativeFrame_promote hwf hget habove]
    simp [heq]

/-- Node 4 is escalated below node 3, which has no view either. The way up ends at the root, so both
get their views below one. -/
theorem escalation_backed_iff_chains : ∃ done operations,
    escalate 4 ⟨Sample.chains, {}, []⟩ = .ok true done ∧ Sample.chains.Foothold 4 1 ∧
      done.mount.queue = operations ∧
      (∀ p, done.tree.NativeParent 4 p → done.tree.createdAt p = true) ∧
      Backed (Sample.chains.createdAt · = true) operations := by
  have hworks : (match escalate 4 ⟨Sample.chains, {}, []⟩ with
      | .ok true _ => true
      | _ => false) = true := by decide +kernel
  split at hworks
  · next done hrun =>
    have hwf := Sample.chains_reachable.sound.wellFormed
    obtain ⟨view, operations, hview, hqueue, hiff⟩ :=
      escalation_backed_iff Sample.chains_reachable hrun
    have hroot : view = 1 := by
      obtain ⟨l, hl⟩ := hwf.exists_lineage (show Sample.chains.contains 4 = true by decide +kernel)
      have hline : Sample.chains.lineage 4 = .ok [4, 3, 2, 1] := by decide +kernel
      rw [Tree.lineage_eq hwf hl] at hline
      have hmem := (hl.mem_iff view).mpr hview.above
      have hcreated := hview.created
      rw [Except.ok.inj hline] at hmem
      simp only [List.mem_cons, List.not_mem_nil, or_false] at hmem
      rcases hmem with rfl | rfl | rfl | rfl
      · exact absurd hcreated (by decide +kernel)
      · exact absurd hcreated (by decide +kernel)
      · exact absurd hcreated (by decide +kernel)
      · rfl
    subst hroot
    refine ⟨done, operations, hrun, hview, hqueue, hiff.mpr fun q hq => ?_⟩
    have hroot := hwf.not_root_of_nativeParent hq
    exact absurd hroot (by decide +kernel)
  · cases hworks

end Mount

namespace Sample

/-- A root above the chain 2, 3, in which 3 mounts. Node 3 gets its view below the root; then node 2
is made to mount, without a view. -/
def stranded : Scene Float32 :=
  Scene.afterCalls {} [.registerRoot 1 "Root" 0 0, plain 2, .setFrame 2 ⟨10, 20, 100, 100⟩,
    mounting 3, .attach 1 2 0, .attach 2 3 0, .escalate 3, .promote 2]

end Sample

/-- Node 3 has a view, so its escalation succeeds, but its native parent, node 2, has none
afterwards, and the frame of node 3 goes out relative to the view of node 2. -/
theorem Mount.frame_below_missing_view : Sample.stranded.tree.Reachable ∧
    ∃ done frame, escalate 3 Sample.stranded = .ok false done ∧
      done.tree.NativeParent 3 2 ∧ done.tree.createdAt 2 = false ∧
      done.mount.queue = Sample.stranded.mount.queue ++ [.setFrame 3 2 frame] ∧
      Sample.stranded.tree.createdAt 2 = false := by
  refine ⟨Tree.Reachable.afterCalls _ .empty, ?_⟩
  have hsends : (match escalate 3 Sample.stranded with
      | .ok false done => done.tree.parentOf? 3 == some 2 && done.tree.mountsAt 2 &&
          !done.tree.createdAt 2 &&
          done.mount.queue == Sample.stranded.mount.queue ++ [.setFrame 3 2 .zero]
      | _ => false) = true := by decide +kernel
  split at hsends
  · next done hrun =>
    simp only [Bool.and_eq_true, beq_iff_eq, Bool.not_eq_true'] at hsends
    obtain ⟨⟨⟨hparent, hmounts⟩, hview⟩, hqueue⟩ := hsends
    exact ⟨done, .zero, hrun, ⟨.parent hparent, hmounts⟩, hview, hqueue, by decide +kernel⟩
  · cases hsends

end ShadowMount
