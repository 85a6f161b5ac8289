import ShadowMount.Proofs.Native.Contents
import ShadowMount.Proofs.Ui.Sends

/-!
# Tags that are used again

A tag is free for another node as soon as its node is gone. The view of the old node is still there,
and its drop waits for the end of the next flush, behind everything that is sent until then. A new
node with the tag does no harm as long as it has no view. If it is given one before the flush, then
the view is made while the old one exists, and the drop destroys it.

* **`Hierarchy.hasView_foldl`** — without a violation, every create makes a view that was not there.
* **`Hierarchy.Doomed`** — what waits will make a view twice; a run does not recover from that.
* **`Ui.Tidy`** — the rule that no view is made for a tag that waits for its drop.
* **`Ui.shown_iff_tidy`** — after a pass, every node with a view has one on the native side and
  there is no violation, exactly if the run has kept to the rule.
-/

namespace ShadowMount

open Native

variable {κ : Type}

/-! ## Views that are made twice

While there is no violation a create makes a view. If a tag with a view is created once more, a
violation is recorded when the operations are executed, and violations stay. -/

/-- Apart from creates and drops, operations change what a view holds and not whether it is there.
-/
theorem isSome_contentAfter {operation : Operation κ} (hkind : operation.isDrop = false)
    (hcreate : operation.created? = none) (content : Option (Content κ)) :
    (contentAfter operation content).isSome = content.isSome := by
  cases operation with
  | create => cases hcreate
  | drop => cases hkind
  | dropRoot => cases hkind
  | setProps => exact Option.isSome_map ..
  | setFrame => exact Option.isSome_map ..
  | _ => rfl

namespace Native.Hierarchy

variable {h native : Hierarchy κ} {tag : Tag}

/-- A view is there exactly if it holds something. -/
theorem hasView_eq_isSome (h : Hierarchy κ) (tag : Tag) :
    h.hasView tag = (h.content? tag).isSome := by
  rw [content?, Option.isSome_map, hasView]

/-- A view is not made without a violation where there is one. -/
theorem hasView_of_create {root : Tag} {viewClass : String} {props : Props}
    (hquiet : (h.execute (.create tag root viewClass props)).violations = []) :
    h.hasView tag = false := by
  refine Bool.eq_false_iff.mpr fun hview => ?_
  -- the create of a view that is there is recorded as a violation
  have hcomplains : (h.execute (.create tag root viewClass props)).violations =
      h.violations ++ [.createdTwice tag] := by
    show (if h.hasView tag = true then _ else _ : Hierarchy κ).violations = _
    rw [if_pos hview]
    rfl
  rw [hcomplains] at hquiet
  simp at hquiet

/-- An operation that is neither a drop nor a violation makes the view it creates and leaves the
others. -/
theorem hasView_execute {operation : Operation κ} (hkind : operation.isDrop = false)
    (hquiet : (h.execute operation).violations = []) (tag : Tag) :
    ((h.execute operation).hasView tag).toNat =
      (h.hasView tag).toNat + operation.created?.toList.count tag := by
  have hafter := h.content?_execute operation hquiet tag
  cases hcreate : operation.created? with
  | none =>
    -- no create: the views stay
    have hsame : ((h.execute operation).content? tag).isSome = (h.content? tag).isSome := by
      rw [hafter]
      split
      · exact isSome_contentAfter hkind hcreate _
      · rfl
    rw [hasView_eq_isSome, hsame, hasView_eq_isSome]
    rfl
  | some made =>
    cases operation with
    | create other root viewClass props =>
      cases hcreate
      rw [hasView_eq_isSome, hafter, Option.toList_some, List.count_singleton]
      -- the created view is new, as creating one that is there would be recorded; all others stay
      by_cases heq : made = tag
      · subst heq
        rw [hasView_of_create hquiet]
        simp [Operation.target?, contentAfter]
      · simp [Operation.target?, heq, hasView_eq_isSome]
    | _ => cases hcreate

/-- Without a violation, the views are those there were and those that were made, once each. -/
theorem hasView_foldl (tag : Tag) : ∀ (operations : List (Operation κ)) (h : Hierarchy κ),
    (∀ operation ∈ operations, operation.isDrop = false) →
    (operations.foldl execute h).violations = [] →
      ((operations.foldl execute h).hasView tag).toNat =
        (h.hasView tag).toNat + (operations.filterMap Operation.created?).count tag
  | [], _, _, _ => rfl
  | operation :: rest, h, hkinds, hquiet => by
    obtain ⟨hkind, hkinds⟩ := List.forall_mem_cons.mp hkinds
    -- violations are never taken back, so the first operation recorded none
    have hfirst : (h.execute operation).violations = [] :=
      List.prefix_nil.mp (hquiet ▸ violations_foldl rest _)
    have hrest := hasView_foldl tag rest (h.execute operation) hkinds hquiet
    -- the creates of the whole list are those of the first operation and those of the rest
    have hcounts : ((operation :: rest).filterMap Operation.created?).count tag =
        operation.created?.toList.count tag + (rest.filterMap Operation.created?).count tag := by
      rw [List.filterMap_cons, ← List.count_append]
      cases operation.created? <;> rfl
    rw [hasView_execute hkind hfirst] at hrest
    rw [List.foldl_cons, hcounts]
    omega

/-- A violation has been recorded, or what waits will make a view twice. -/
def Doomed (native : Hierarchy κ) (queue : List (Operation κ)) : Prop :=
  native.violations ≠ [] ∨
    ∃ tag, 2 ≤ (native.hasView tag).toNat + (queue.filterMap Operation.created?).count tag

/-- More operations do not undo it, as long as the creates in the queue stay. -/
theorem Doomed.mono {queue queue' : List (Operation κ)} (h : native.Doomed queue)
    (hcreates : queue.filterMap Operation.created? <+: queue'.filterMap Operation.created?) :
    native.Doomed queue' := by
  refine h.imp_right fun ⟨tag, htwice⟩ => ⟨tag, ?_⟩
  -- the prefix has no more creates of the tag than the whole
  have hcount := hcreates.sublist.count_le tag
  omega

/-- A flush records the violation. -/
theorem Doomed.flush {state : MountState κ} (h : native.Doomed state.queue)
    (hkinds : ∀ operation ∈ state.queue, operation.isDrop = false) :
    (state.closePass.1.deliveries.foldl receive native).violations ≠ [] := by
  intro hquiet
  -- suppose the flush recorded nothing, neither in the queue nor in the drops
  rw [foldl_receive_deliveries] at hquiet
  have hbatch : ((state.queue ++ state.drops.map PendingDrop.operation).foldl execute
      native).violations = [] := (List.append_eq_nil_iff.mp hquiet).1
  rw [List.foldl_append] at hbatch
  have hqueue : (state.queue.foldl execute native).violations = [] :=
    List.prefix_nil.mp (hbatch ▸ violations_foldl _ _)
  rcases h with hrecorded | ⟨tag, htwice⟩
  · exact hrecorded (List.prefix_nil.mp (hqueue ▸ violations_foldl state.queue _))
  -- then the view made twice would be counted twice, and it is there at most once
  · have hcount := hasView_foldl tag state.queue native hkinds hqueue
    have hone := Bool.toNat_le ((state.queue.foldl execute native).hasView tag)
    omega

/-- With nothing waiting, the violation is there. -/
theorem Doomed.recorded (h : native.Doomed []) : native.violations ≠ [] := by
  rcases h with hrecorded | ⟨tag, htwice⟩
  · exact hrecorded
  · have hone := Bool.toNat_le (native.hasView tag)
    simp at htwice
    omega

end Native.Hierarchy

/-! ## What requests add to the queue

The queue grows at its end, and pruning takes out no creates. So a second create that was enqueued
is still there when the flush comes. -/

/-- Nothing but creates need be left of a queue, and no drop comes into it. A new view is made by an
operation that comes into the queue, unless it is that of a root. -/
structure Adds (root? : Option Tag) (scene done : Scene κ) : Prop where
  /-- No drop comes into the queue. -/
  kinds : (∀ operation ∈ scene.mount.queue, operation.isDrop = false) →
    ∀ operation ∈ done.mount.queue, operation.isDrop = false
  /-- Creates stay in the queue, and each new view has one, or is the root's. -/
  creates : ∃ made, done.mount.queue.filterMap Operation.created? =
      scene.mount.queue.filterMap Operation.created? ++ made ∧
    ∀ tag, done.tree.createdAt tag = true →
      scene.tree.createdAt tag = true ∨ tag ∈ made ∨ root? = some tag

/-- The creates in the queue stay. -/
theorem Adds.creates_kept {root? : Option Tag} {scene done : Scene κ}
    (h : Adds root? scene done) : scene.mount.queue.filterMap Operation.created? <+:
      done.mount.queue.filterMap Operation.created? := by
  obtain ⟨made, hcreates, -⟩ := h.creates
  exact ⟨made, hcreates.symm⟩

/-- Nothing is sent. -/
theorem Adds.same {root? : Option Tag} {scene done : Scene κ}
    (hqueue : done.mount.queue = scene.mount.queue)
    (hviews : ∀ tag, done.tree.createdAt tag = true →
      scene.tree.createdAt tag = true ∨ root? = some tag) : Adds root? scene done := by
  refine ⟨fun hkinds => hqueue ▸ hkinds, [], ?_, fun tag hview => ?_⟩
  · rw [hqueue, List.append_nil]
  · exact (hviews tag hview).imp_right .inr

/-- What is left out of a list yields nothing, so the yield of the list is the same. -/
theorem filterMap_filter_of_ne_none {α β : Type} {f : α → Option β} {keep : α → Bool}
    (hkeep : ∀ x, f x ≠ none → keep x = true) (l : List α) :
    (l.filter keep).filterMap f = l.filterMap f := by
  rw [List.filterMap_filter]
  refine List.filterMap_congr fun x _ => ?_
  split
  · rfl
  · next hnot => exact (not_not.mp fun hne => hnot (hkeep x hne)).symm

/-- Pruning leaves creates alone. -/
theorem MountState.creates_scheduledAll (state : MountState κ) (isRoot : Tag → Bool)
    (tags : List Tag) : (state.scheduledAll isRoot tags).queue.filterMap Operation.created? =
      state.queue.filterMap Operation.created? := by
  rw [queue_scheduledAll]
  exact filterMap_filter_of_ne_none (fun _ => Operation.survives_of_created? _) state.queue

section Effects

variable [Coordinate κ] {scene done : Scene κ}

/-- Touches add creates of the views they make. -/
theorem Touches.adds (h : Touches scene done) : Adds none scene done := by
  obtain ⟨operations, hqueue, -, hviewed, hmade⟩ := Touches.sends h
  refine ⟨fun hkinds => ?_, operations.filterMap Operation.created?, ?_, fun tag hview => ?_⟩
  · rw [hqueue]
    exact List.forall_mem_append.mpr ⟨hkinds, fun operation hmem => (hviewed operation hmem).1⟩
  · rw [hqueue, List.filterMap_append]
  · exact (hmade tag hview).imp_right .inl

/-- So does the effect of a command, which makes the view of a new root besides. -/
theorem Effect.adds {managers : Managers} {registration : Registration} {removals : List Tag}
    (h : Effect managers registration removals scene done) :
    Adds registration.root? scene done := by
  cases h with
  | @addRoot tree mount log tag viewClass width height hfree =>
    -- the only new view is that of the root
    refine .same rfl fun t hview => ?_
    by_cases heq : tag = t
    · exact .inr (congrArg some heq)
    · have hregistered := @Tree.registered_withRootNode _ tree _ tag viewClass width height hfree
      exact .inl ((hregistered.created heq).symm.trans hview)
  | @create tree mount log node hfresh hcreated hfree =>
    -- a new node has no view
    refine .same rfl fun t hview => .inl ?_
    by_cases heq : node.tag = t
    · have hview := ((Tree.createdAt_store ..).trans (if_pos heq)).symm.trans hview
      rw [hcreated] at hview
      cases hview
    · exact ((Tree.registered_store hfresh hfree).created heq).symm.trans hview
  | @trim tree after mount log gone htrimmed =>
    -- pruning adds nothing, and removals make no views
    refine ⟨fun hkinds operation hmem => ?_, [], ?_, fun t hview => ?_⟩
    · rw [MountState.queue_scheduledAll] at hmem
      exact hkinds operation (List.mem_filter.mp hmem).1
    · rw [MountState.creates_scheduledAll, List.append_nil]
    · exact .inl (htrimmed.createdAt_iff.mp hview).2
  | active h => exact Touches.adds h.touches

end Effects

/-! ## The mirror

If no view is made for a tag that waits for its drop, the native side is mirrored throughout; if one
is made, the hierarchy is doomed. -/

section Mirrored

variable {platform past : List Tag} {scene done : Scene κ} {native : Hierarchy κ}

/-- An open pass mirrors what the scene mirrored before. -/
theorem Mirrored.opened (h : Mirrored platform past scene native) :
    Mirrored platform past scene.opened native :=
  ⟨h.sound, h.anchored, h.mirror.steady (.refl _) (fun _ => rfl) rfl (fun _ => rfl) (.inl rfl)
    fun _ _ hnative => hnative⟩

/-- If a view is made for a tag that waits for its drop, then the old view is there, or is made
before. -/
theorem Mirrored.doomed (h : Mirrored platform past scene native)
    (hkinds : ∀ operation ∈ scene.mount.queue, operation.isDrop = false) {root? : Option Tag}
    (hadds : Adds root? scene done) {tag : Tag} (hdropped : tag ∈ scene.mount.dropTags)
    (hroot : root? ≠ some tag) (hview : done.tree.createdAt tag = true) :
    native.Doomed done.mount.queue := by
  have hshown := h.mirror.shown fun _ => false
  have hrecord := h.mirror.record fun _ => false
  rw [Hierarchy.replay_skip_none] at hshown hrecord
  have hcount := Hierarchy.hasView_foldl tag scene.mount.queue native hkinds
    (hrecord.violations.trans h.mirror.consistent)
  -- executing the queue leaves the view of the tag in place, as it is to be dropped yet
  rw [(hshown.views tag).mpr (.inr (.inl hdropped)), Bool.toNat_true] at hcount
  obtain ⟨made, hcreates, hmade⟩ := hadds.creates
  -- and it has a create that comes after, as it is gone from the tree before and there afterwards
  have hnew : 0 < made.count tag := by
    rcases hmade tag hview with hbefore | hmem | hsome
    · rw [h.mirror.gone hdropped] at hbefore
      cases hbefore
    · exact List.count_pos_iff.mpr hmem
    · exact absurd hsome hroot
  refine .inr ⟨tag, ?_⟩
  -- one view there, or to be made, and one to be made after it
  rw [hcreates, List.count_append]
  omega

variable [Coordinate κ]

/-- A pass that makes no view for a tag that waits for its drop leaves a faithful native side. -/
theorem Mirrored.pass (h : Mirrored platform past scene native) {refreshed : Scene κ}
    (htouches : Touches scene.opened refreshed)
    (hsettled : ∀ root ∈ refreshed.tree.roots, Mount.Settled refreshed root)
    (htidy : ∀ tag ∈ scene.mount.dropTags, refreshed.tree.createdAt tag = false)
    (log : List Log.Line) :
    Mirrored platform past ⟨refreshed.tree, refreshed.mount.closePass.2, log⟩
        (refreshed.mount.closePass.1.deliveries.foldl .receive native) ∧
      Faithful platform past refreshed.tree
        (refreshed.mount.closePass.1.deliveries.foldl .receive native) := by
  have hrefreshed := Touches.mirrored htouches h.opened htidy
  have hflushed := (hrefreshed.flush hsettled log).toMirrored
  exact ⟨hflushed, hflushed.faithful rfl rfl hsettled⟩

end Mirrored

/-! ## Requests

Each request keeps the one or the other: a tidy request keeps the mirror, and after one that is not
tidy the hierarchy is doomed. -/

namespace Ui

variable [Coordinate κ] {ui : Ui κ} {request : Request κ} {platform past : List Tag}
  {native : Hierarchy κ}

/-- No view is made for a node whose tag waits for its drop. -/
def Tidy (ui : Ui κ) (request : Request κ) : Prop :=
  ∀ tag ∈ ui.scene.mount.dropTags, (ui.serve request).2.scene.tree.createdAt tag = false

instance (ui : Ui κ) (request : Request κ) : Decidable (ui.Tidy request) :=
  inferInstanceAs (Decidable (∀ tag ∈ ui.scene.mount.dropTags, _ = false))

/-- What a request does: it sends nothing and registers nothing, or it has the effect of a command,
or it flushes what waits once every root is up to date. -/
theorem serve_cases (hsound : ui.scene.Sound) (hframes : request.FramesOnly) :
    ((ui.serve request).1.flush? = none ∧
      request.registered (ui.serve request).1 = .none ∧
      Touches ui.scene (ui.serve request).2.scene) ∨
    ((ui.serve request).1.flush? = none ∧
      ∃ removals, Effect ui.managers (request.registered (ui.serve request).1) removals ui.scene
        (ui.serve request).2.scene) ∨
    ∃ refreshed log, Touches ui.scene.opened refreshed ∧
      (∀ root ∈ refreshed.tree.roots, Mount.Settled refreshed root) ∧
      (ui.serve request).1.flush? = some refreshed.mount.closePass.1 ∧
      request.registered (ui.serve request).1 = .none ∧
      (ui.serve request).2.scene = ⟨refreshed.tree, refreshed.mount.closePass.2, log⟩ := by
  cases request with
  | perform command =>
    rw [serve]
    rcases perform_cases hsound command with ⟨err, log, herr⟩ | ⟨done, hdone, heffect⟩
    -- a command that fails leaves a line in the log
    · rw [herr]
      exact .inl ⟨rfl, rfl, Touches.note log⟩
    · rw [hdone]
      exact .inr (.inl ⟨rfl, _, heffect⟩)
  | pass =>
    -- a pass flushes, unless the engine has failed
    rcases (Passes.plain : ui.Passes _ _).closes hsound with
      ⟨-, hnone, -, htouches⟩ | ⟨refreshed, log, htouches, hsettled, hflush, hscene⟩
    · exact .inl ⟨hnone, rfl, htouches⟩
    · exact .inr (.inr ⟨refreshed, log, htouches, hsettled, hflush, rfl, hscene⟩)
  | layOutAndPass engine =>
    rcases (Passes.laidOut engine hframes : ui.Passes _ _).closes hsound with
      ⟨-, hnone, -, htouches⟩ | ⟨refreshed, log, htouches, hsettled, hflush, hscene⟩
    · exact .inl ⟨hnone, rfl, htouches⟩
    · exact .inr (.inr ⟨refreshed, log, htouches, hsettled, hflush, rfl, hscene⟩)

/-- No drop is queued before the flush, whatever the request. -/
theorem undropped_serve (hsound : ui.scene.Sound) (hframes : request.FramesOnly)
    (hkinds : ∀ operation ∈ ui.scene.mount.queue, operation.isDrop = false) :
    ∀ operation ∈ (ui.serve request).2.scene.mount.queue, operation.isDrop = false := by
  rcases serve_cases hsound hframes with
    ⟨-, -, htouches⟩ | ⟨-, removals, heffect⟩ | ⟨refreshed, log, -, -, -, -, hscene⟩
  · exact (Touches.adds htouches).kinds hkinds
  · exact heffect.adds.kinds hkinds
  · rw [hscene]
    exact nofun

/-- Once a view is to be made twice, the next flush records it. -/
theorem doomed_serve (hsound : ui.scene.Sound) (hframes : request.FramesOnly)
    (hkinds : ∀ operation ∈ ui.scene.mount.queue, operation.isDrop = false)
    (h : native.Doomed ui.scene.mount.queue) :
    ((ui.serve request).1.deliveries.foldl .receive native).Doomed
      (ui.serve request).2.scene.mount.queue := by
  rw [Answer.deliveries]
  rcases serve_cases hsound hframes with ⟨hnone, -, htouches⟩ | ⟨hnone, removals, heffect⟩ |
    ⟨refreshed, log, htouches, -, hflush, -, -⟩
  -- the queue grows
  · rw [hnone]
    exact h.mono (Touches.adds htouches).creates_kept
  -- the queue grows, or pruning leaves its creates
  · rw [hnone]
    exact h.mono heffect.adds.creates_kept
  -- the queue, grown by the pass, is executed and the violation recorded
  · have hadds := Touches.adds htouches
    rw [hflush]
    exact .inl ((h.mono hadds.creates_kept).flush (hadds.kinds hkinds))

/-- A request that makes a view for a tag that waits for its drop has one made twice. -/
theorem doomed_of_not_tidy (hsound : ui.scene.Sound) (hframes : request.FramesOnly)
    (hkinds : ∀ operation ∈ ui.scene.mount.queue, operation.isDrop = false)
    (hmirrored : Mirrored platform past ui.scene native)
    (hexpected : (request.registered (ui.serve request).1).Expected platform past)
    (huntidy : ¬ ui.Tidy request) :
    ((ui.serve request).1.deliveries.foldl .receive native).Doomed
      (ui.serve request).2.scene.mount.queue := by
  rw [Tidy] at huntidy
  push Not at huntidy
  -- the view made for a tag that waits for its drop
  obtain ⟨tag, hdropped, hview⟩ := huntidy
  rw [Bool.ne_false_iff] at hview
  rw [Answer.deliveries]
  rcases serve_cases hsound hframes with ⟨hnone, -, htouches⟩ | ⟨hnone, removals, heffect⟩ |
    ⟨refreshed, log, htouches, -, hflush, -, hscene⟩
  -- touches make no root's view
  · rw [hnone]
    exact hmirrored.doomed hkinds (Touches.adds htouches) hdropped (Option.some_ne_none tag).symm
      hview
  · rw [hnone]
    refine hmirrored.doomed hkinds heffect.adds hdropped (fun hroot => ?_) hview
    -- a root of the platform that is registered for the first time does not wait for a drop
    generalize request.registered (ui.serve request).1 = registration at hexpected hroot
    cases registration with
    | none => cases hroot
    | node => cases hroot
    | root other =>
      cases hroot
      exact hmirrored.not_dropped (.inr hexpected) hdropped
  -- a pass: what it makes is flushed at once
  · rw [hscene] at hview
    have hadds := Touches.adds htouches
    have hdoomed :=
      hmirrored.opened.doomed hkinds hadds hdropped (Option.some_ne_none tag).symm hview
    rw [hflush]
    exact .inl (hdoomed.flush (hadds.kinds hkinds))

/-- A tidy request keeps the mirror. -/
theorem mirrored_serve (hsound : ui.scene.Sound) (hframes : request.FramesOnly)
    (hmirrored : Mirrored platform past ui.scene native)
    (hexpected : (request.registered (ui.serve request).1).Expected platform past)
    (htidy : ui.Tidy request) :
    Mirrored platform ((request.registered (ui.serve request).1).extend past)
      (ui.serve request).2.scene ((ui.serve request).1.deliveries.foldl .receive native) := by
  rw [Tidy] at htidy
  rw [Answer.deliveries]
  rcases serve_cases hsound hframes with ⟨hnone, hregistered, htouches⟩ |
    ⟨hnone, removals, heffect⟩ | ⟨refreshed, log, htouches, hsettled, hflush, hregistered, hscene⟩
  · rw [hnone, hregistered]
    exact Touches.mirrored htouches hmirrored htidy
  · rw [hnone]
    exact heffect.mirrored hmirrored hexpected htidy
  · rw [hscene] at htidy
    rw [hflush, hregistered, hscene]
    exact (hmirrored.pass htouches hsettled htidy log).1

/-! ## Runs

A run that has been tidy up to now ends in a mirror, and any other in a doomed hierarchy. A pass
that succeeds tells which, by what it leaves. -/

variable {managers : Managers} {config : Config} {requests : List (Request κ)}

/-- A run leads to a reachable state. -/
theorem reachable_after (hframes : ∀ request ∈ requests, request.FramesOnly) :
    ((Ui.new managers config : Ui κ).after requests).Reachable := by
  induction requests using List.reverseRecOn with
  | nil => exact .new managers config
  | append_singleton requests request ih =>
    obtain ⟨hearlier, hlast⟩ := List.forall_mem_append.mp hframes
    have hlast := hlast request (List.mem_singleton_self request)
    rw [after_concat]
    cases request with
    | perform command => exact .perform (ih hearlier) command
    | pass => exact .runPass (ih hearlier)
    | layOutAndPass engine => exact .layOutAndRunPass (ih hearlier) engine hlast

/-- No drop is queued between requests. -/
theorem undropped_after (hframes : ∀ request ∈ requests, request.FramesOnly) :
    ∀ operation ∈ ((Ui.new managers config : Ui κ).after requests).scene.mount.queue,
      operation.isDrop = false := by
  induction requests using List.reverseRecOn with
  | nil => exact nofun
  | append_singleton requests request ih =>
    obtain ⟨hearlier, hlast⟩ := List.forall_mem_append.mp hframes
    rw [after_concat]
    exact undropped_serve (reachable_after hearlier).sound
      (hlast request (List.mem_singleton_self request)) (ih hearlier)

/-- A tidy run keeps the mirror. -/
theorem mirrored_after (hframes : ∀ request ∈ requests, request.FramesOnly)
    (hrooted : Registration.Rooted platform ((Ui.new managers config).registrations requests))
    (htidy : (Ui.new managers config).Obeys Tidy requests) :
    Mirrored platform
      (((Ui.new managers config).registrations requests).foldl Registration.extend [])
      ((Ui.new managers config).after requests).scene
      ((Hierarchy.withRoots platform).follow ((Ui.new managers config).answers requests)) := by
  induction requests using List.reverseRecOn with
  -- at the start neither side has anything but what the platform shows
  | nil => exact ⟨.empty, .empty, .start platform config []⟩
  | append_singleton requests request ih =>
    obtain ⟨hearlier, hlast⟩ := List.forall_mem_append.mp hframes
    rw [registrations_concat] at hrooted
    rw [obeys_concat] at htidy
    rw [registrations_concat, after_concat, answers_concat, Hierarchy.follow_concat,
      List.foldl_concat]
    exact mirrored_serve (reachable_after hearlier).sound
      (hlast request (List.mem_singleton_self request)) (ih hearlier hrooted.of_concat htidy.1)
      hrooted.expected htidy.2

/-- A run that is not tidy is doomed. -/
theorem doomed_after (hframes : ∀ request ∈ requests, request.FramesOnly)
    (hrooted : Registration.Rooted platform ((Ui.new managers config).registrations requests))
    (huntidy : ¬ (Ui.new managers config).Obeys Tidy requests) :
    ((Hierarchy.withRoots platform).follow ((Ui.new managers config).answers requests)).Doomed
      ((Ui.new managers config).after requests).scene.mount.queue := by
  induction requests using List.reverseRecOn with
  | nil => exact absurd trivial huntidy
  | append_singleton requests request ih =>
    obtain ⟨hearlier, hlast⟩ := List.forall_mem_append.mp hframes
    have hlast := hlast request (List.mem_singleton_self request)
    have hsound : ((Ui.new managers config).after requests).scene.Sound :=
      (reachable_after hearlier).sound
    have hkinds := @undropped_after _ _ managers config requests hearlier
    rw [registrations_concat] at hrooted
    rw [obeys_concat] at huntidy
    rw [after_concat, answers_concat, Hierarchy.follow_concat]
    -- the last request breaks the rule, or an earlier one did
    by_cases htidy : (Ui.new managers config).Obeys Tidy requests
    · exact doomed_of_not_tidy hsound hlast hkinds
        (mirrored_after hearlier hrooted.of_concat htidy) hrooted.expected
        fun hrule => huntidy ⟨htidy, hrule⟩
    · exact doomed_serve hsound hlast hkinds (ih hearlier hrooted.of_concat htidy)

/-- A pass that succeeds flushes. -/
theorem flush?_of_ok (hsound : ui.scene.Sound) (hframes : request.FramesOnly)
    {report : PassReport κ} {count : Nat} (hanswer : (ui.serve request).1 = .passed report)
    (hok : report.result = .ok count) : (ui.serve request).1.flush? ≠ none := by
  -- a pass that is left out is one whose engine has failed
  have hpasses : ∀ {after : Ui κ}, ui.Passes report after → report.flush ≠ none := by
    intro after hpass
    rcases hpass.closes hsound with ⟨⟨err, herr⟩, -⟩ | ⟨refreshed, log, -, -, hflush, -⟩
    · rw [herr] at hok
      cases hok
    · rw [hflush]
      exact nofun
  rw [hanswer]
  cases request with
  | perform command => cases hanswer
  -- in either kind of pass the report is the one answered
  | pass =>
    cases hanswer
    exact hpasses .plain
  | layOutAndPass engine =>
    cases hanswer
    exact hpasses (.laidOut engine hframes)

/-- When a tag may be used again. Let a run end with a pass that succeeds, let engines only set
frames, and let the roots be registered as the platform expects. Then every node with a view has one
on the native side and no violation has been recorded, exactly if in the whole run no view was made
for a node whose tag waited for its drop. -/
theorem shown_iff_tidy (hframes : ∀ request ∈ requests, request.FramesOnly)
    (hrooted : Registration.Rooted platform
      ((Ui.new managers config : Ui κ).registrations requests))
    {report : PassReport κ} {count : Nat}
    (hlast : ((Ui.new managers config).answers requests).getLast? = some (.passed report))
    (hok : report.result = .ok count) :
    let ui : Ui κ := Ui.new managers config
    let native := (Hierarchy.withRoots platform).follow (ui.answers requests)
    (native.violations = [] ∧ ∀ tag, (ui.after requests).scene.tree.createdAt tag = true →
      native.hasView tag = true) ↔ ui.Obeys Tidy requests := by
  -- the run ends with some request, which must be a pass that flushes
  rcases List.eq_nil_or_concat requests with rfl | ⟨earlier, request, hconcat⟩
  · cases hlast
  rw [List.concat_eq_append] at hconcat
  subst hconcat
  intro ui native
  obtain ⟨hearlier, hrequest⟩ := List.forall_mem_append.mp hframes
  have hrequest := hrequest request (List.mem_singleton_self request)
  have hsound : (ui.after earlier).scene.Sound := (reachable_after hearlier).sound
  rw [answers_concat, List.getLast?_concat, Option.some.injEq] at hlast
  have hflushes := flush?_of_ok hsound hrequest hlast hok
  rcases serve_cases hsound hrequest with ⟨hnone, -⟩ | ⟨hnone, -⟩ |
    ⟨refreshed, log, htouches, hsettled, hflush, hregistered, hscene⟩
  · exact absurd hnone hflushes
  · exact absurd hnone hflushes
  constructor
  -- a run that breaks the rule somewhere is doomed, and after the flush nothing waits any more
  · intro hshown
    by_contra huntidy
    have hdoomed := doomed_after hframes hrooted huntidy
    rw [after_concat, hscene] at hdoomed
    exact hdoomed.recorded hshown.1
  -- a run that keeps to the rule ends in a faithful native side
  · intro htidy
    rw [obeys_concat] at htidy
    rw [registrations_concat] at hrooted
    have hmirrored := mirrored_after hearlier hrooted.of_concat htidy.1
    have hrule := htidy.2
    rw [Tidy, hscene] at hrule
    have hfaithful := (hmirrored.pass htouches hsettled hrule log).2
    have hnative : native = refreshed.mount.closePass.1.deliveries.foldl .receive
        ((Hierarchy.withRoots platform).follow (ui.answers earlier)) := by
      show (Hierarchy.withRoots platform).follow (ui.answers (earlier ++ [request])) = _
      rw [answers_concat, Hierarchy.follow_concat, Answer.deliveries, hflush]
      rfl
    rw [hnative, after_concat, hscene]
    exact ⟨hfaithful.consistent, fun tag hview => (hfaithful.views tag).mpr (.inl hview)⟩

/-- A scroller is shown and removed. Another one takes its tag at once, and is attached after the
pass that drops the first. -/
def patientReuse : List (Request Float32) :=
  [.perform (.addRoot 1 100 100), .perform (.create 2 "ScrollView" 1 .empty),
    .perform (.prependChildren 1 [2]), .pass, .perform (.editChildren 1 { removeFrom := [0] }),
    .perform (.create 2 "ScrollView" 1 .empty), .pass, .perform (.prependChildren 1 [2]), .pass]

/-- The second scroller is shown. -/
theorem shown_iff_tidy_patientReuse :
    let native := (Hierarchy.withRoots [1]).follow
      ((Ui.new Managers.builtins {}).answers patientReuse)
    (Ui.new Managers.builtins {}).Obeys Tidy patientReuse ∧ native.violations = [] ∧
      native.hasView 2 = true := by
  have hframes : ∀ request ∈ patientReuse, request.FramesOnly := by
    simp [patientReuse, Request.FramesOnly]
  have hregistrations : (Ui.new Managers.builtins {}).registrations patientReuse =
      [.root 1, .node 2, .none, .none, .none, .node 2, .none, .none, .none] := by decide +kernel
  have hrooted : Registration.Rooted [1]
      ((Ui.new Managers.builtins {}).registrations patientReuse) := by
    rw [hregistrations]
    exact ⟨by decide, by simp, by simp⟩
  have hok : ((Ui.new Managers.builtins {}).after patientReuse.dropLast).runPass.1.result =
      .ok 3 := by decide +kernel
  have htidy : (Ui.new Managers.builtins {}).Obeys Tidy patientReuse := by
    refine ⟨?_, ?_, ?_, ?_, ?_, ?_, ?_, ?_, ?_, trivial⟩ <;> decide +kernel
  have hview : ((Ui.new Managers.builtins {}).after patientReuse).scene.tree.createdAt 2 =
      true := by decide +kernel
  obtain ⟨hquiet, hviews⟩ := (shown_iff_tidy hframes hrooted rfl hok).mpr htidy
  exact ⟨htidy, hquiet, hviews 2 hview⟩

/-- The same, but the second scroller is attached before the pass. -/
def hastyReuse : List (Request Float32) :=
  [.perform (.addRoot 1 100 100), .perform (.create 2 "ScrollView" 1 .empty),
    .perform (.prependChildren 1 [2]), .pass, .perform (.editChildren 1 { removeFrom := [0] }),
    .perform (.create 2 "ScrollView" 1 .empty), .perform (.prependChildren 1 [2]), .pass]

/-- The second scroller is made while the first one exists, and the drop of the first one destroys
it: after a pass that succeeds, a node with a view has none on the native side, and there is a
violation. -/
theorem view_lost_hastyReuse :
    let ui := (Ui.new Managers.builtins {} : Ui Float32).after hastyReuse
    let native := (Hierarchy.withRoots [1]).follow
      ((Ui.new Managers.builtins {}).answers hastyReuse)
    Registration.Rooted [1] ((Ui.new Managers.builtins {}).registrations hastyReuse) ∧
    ((Ui.new Managers.builtins {}).after hastyReuse.dropLast).runPass.1.result = .ok 3 ∧
    ui.scene.tree.createdAt 2 = true ∧ native.hasView 2 = false ∧
    native.violations = [.createdTwice 2] := by
  intro ui native
  have hregistrations : (Ui.new Managers.builtins {}).registrations hastyReuse =
      [.root 1, .node 2, .none, .none, .none, .node 2, .none, .none] := by decide +kernel
  have hrooted : Registration.Rooted [1]
      ((Ui.new Managers.builtins {}).registrations hastyReuse) := by
    rw [hregistrations]
    exact ⟨by decide, by simp, by simp⟩
  exact ⟨hrooted, by decide +kernel, by decide +kernel, by decide +kernel, by decide +kernel⟩

end Ui

end ShadowMount
