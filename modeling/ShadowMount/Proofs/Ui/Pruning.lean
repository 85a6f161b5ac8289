import ShadowMount.Proofs.Mount.Blind
import ShadowMount.Proofs.Native.Contents
import ShadowMount.Proofs.Ui.FrameReports

/-!
# Pruning is a filter

Two user interfaces serve the same requests, one with pruning off and one with pruning on. Commands
and passes are blind to what pruning discards, so the two stay alike, and each flush of the second
is the flush of the first without the operations for views that it drops. The native views are the
same, as what was left out was addressed to views that are gone by the end of the batch.

* **`Flush.pruned`**, **`Answer.pruned`** — the filter.
* **`MountState.stable_culled`** — with pruning on, nothing in the queue is left to discard.
* **`Ui.Paired`** — two user interfaces that differ in what pruning discards.
* **`Ui.pruning_filters`** — the answers with pruning on are those with pruning off, filtered; the
  trees and the native views agree.
-/

namespace ShadowMount

open Native

variable {κ : Type}

/-- Whether pruning discards an operation when the given views are dropped. -/
def Operation.isPrunable (dropped : List Tag) (operation : Operation κ) : Bool :=
  operation.isPlain && operation.target?.any dropped.contains

/-- A flush without the operations that neither make nor destroy a view and are addressed to one
that the flush destroys. -/
def Flush.pruned (flush : Flush κ) : Flush κ :=
  { flush with operations := flush.operations.filter (!·.isPrunable flush.dropped) }

/-- The report of a pass with its flush pruned and its operations counted anew. -/
def PassReport.pruned (report : PassReport κ) : PassReport κ :=
  { report with
    result := report.result.map fun count => report.flush.elim count (·.pruned.count)
    flush := report.flush.map Flush.pruned }

/-- An answer with its flush pruned. -/
def Answer.pruned : Answer κ → Answer κ
  | done result => done result
  | passed report => passed report.pruned

/-- An answer with a flush still has one once pruned. -/
theorem Answer.flush?_pruned (answer : Answer κ) :
    answer.pruned.flush? = answer.flush?.map Flush.pruned := by
  cases answer with
  | done => rfl
  | passed => rfl

/-- Pruning has no part in what is registered. -/
theorem Request.registered_pruned (request : Request κ) (answer : Answer κ) :
    request.registered answer.pruned = request.registered answer := by
  cases request with
  | perform command => cases answer <;> rfl
  | _ => rfl

/-! ## What is left in the queue

Scheduling a drop prunes the queue at once, and nothing is sent to a view that waits for its drop.
So with pruning on the queue never holds what pruning would discard, and it is the queue without
pruning, filtered. -/

/-- With pruning on, nothing in the queue is left to discard. -/
def MountState.Culled (state : MountState κ) : Prop :=
  state.config.pruneDrops = true → ∀ operation ∈ state.queue,
    operation.survives state.dropTags.contains = true

/-- Sends go to views that do not wait for their drop, and a drop that is scheduled with pruning on
takes out of the queue what is addressed to its view. So nothing is left to discard at any time. -/
theorem MountState.stable_culled : Stable (Culled : MountState κ → Prop) where
  idle hqueue _ _ _ := by rw [hqueue]; exact nofun
  sends := by
    intro state sent operations h hconfig hdrops hqueue _ hviewed hprune
    have htags : sent.dropTags = state.dropTags := by rw [dropTags, dropTags, hdrops]
    rw [hqueue, htags]
    refine List.forall_mem_append.mpr ⟨h (hconfig ▸ hprune), fun operation hmem => ?_⟩
    -- an operation that is sent has no target, or one that does not wait for its drop
    have htarget : operation.target?.any state.dropTags.contains = false := by
      cases htarget : operation.target? with
      | none => rfl
      | some tag => simpa using (hviewed operation hmem).2 tag htarget
    rw [Operation.survives, htarget, Bool.not_false, Bool.or_true]
  scheduled := by
    intro state tag isRoot h hprune
    rw [config_scheduled] at hprune
    rw [queue_scheduled, dropTags_scheduled]
    intro operation hmem
    -- what waited has passed the filter for this drop, and passed those for earlier ones before
    obtain ⟨hmem, hsurvives⟩ := List.mem_filter.mp hmem
    rw [hprune] at hsurvives
    rw [Operation.survives_concat, h hprune operation hmem]
    exact hsurvives

/-- An operation that is no drop is left out by both filters or by none. -/
theorem Operation.not_isPrunable {operation : Operation κ} (h : operation.isDrop = false)
    (dropped : List Tag) :
    (!operation.isPrunable dropped) = operation.survives dropped.contains := by
  rw [isPrunable, isPlain, h, survives]
  cases operation.isCreate <;> rfl

/-- Of two mount states with the same essence, the one with nothing left to discard hands over the
flush of the other one, pruned. -/
theorem MountState.closePass_pruned {plain culled : MountState κ}
    (hessence : plain.essence = culled.essence)
    (hundropped : ∀ operation ∈ plain.queue, operation.isDrop = false)
    (hculled : ∀ operation ∈ culled.queue,
      operation.survives culled.dropTags.contains = true) :
    culled.closePass.1 = plain.closePass.1.pruned := by
  obtain ⟨hqueue, -, hframes, hdrops, -⟩ := essence_eq_iff.mp hessence
  have htags : culled.dropTags = plain.dropTags := by rw [dropTags, dropTags, hdrops]
  -- the drops at the end of a flush are not plain, and the filter keeps them
  have hkept : ∀ operation ∈ (plain.drops.map PendingDrop.operation : List (Operation κ)),
      (!operation.isPrunable plain.dropTags) = true := by
    refine List.forall_mem_map.mpr fun drop _ => ?_
    rw [Operation.isPrunable, Operation.isPlain, drop.isDrop_operation]
    simp
  -- the essence of a queue is what survives its drops, and the second queue is its own essence
  have hsame : culled.queue = plain.queue.filter (!·.isPrunable plain.dropTags) := by
    rw [htags] at hculled
    rw [← List.filter_eq_self.mpr hculled, ← hqueue]
    exact List.filter_congr fun operation hmem =>
      (Operation.not_isPrunable (hundropped operation hmem) _).symm
  -- both flushes are a queue, the same drops and the same frames
  rw [Flush.pruned, dropped_closePass hundropped]
  show (⟨culled.queue ++ culled.drops.map PendingDrop.operation, culled.frameChanges⟩ : Flush κ) =
    ⟨(plain.queue ++ plain.drops.map PendingDrop.operation).filter
      (!·.isPrunable plain.dropTags), plain.frameChanges⟩
  rw [List.filter_append, List.filter_eq_self.mpr hkept, hsame, hdrops, hframes]

/-- Mount states with the same essence, once their passes are closed. -/
theorem MountState.essence_closePass {a b : MountState κ} (hessence : a.essence = b.essence) :
    a.closePass.2.essence = b.closePass.2.essence := by
  obtain ⟨-, hsent, -⟩ := essence_eq_iff.mp hessence
  exact essence_eq_iff.mpr ⟨rfl, hsent, rfl, rfl, rfl⟩

/-! ## Switches

The switches are set when a user interface is made, and no request touches them. -/

section Switches

variable [Coordinate κ]

/-- No command changes the switches. -/
theorem Effect.config {managers : Managers} {registration : Registration} {removals : List Tag}
    {scene done : Scene κ} (h : Effect managers registration removals scene done) :
    done.mount.config = scene.mount.config := by
  cases h with
  | addRoot => rfl
  | create => rfl
  | trim => exact MountState.config_scheduledAll _ _
  | active hactive => exact Touches.config hactive.touches

/-- No pass changes the switches. -/
theorem Ui.Passes.config {ui after : Ui κ} {report : PassReport κ} (h : ui.Passes report after)
    (hsound : ui.scene.Sound) : after.scene.mount.config = ui.scene.mount.config := by
  rcases h.closes hsound with ⟨-, -, hmount, -⟩ | ⟨refreshed, log, htouches, -, -, hscene⟩
  · rw [hmount]
  · have hconfig := Touches.config htouches
    rw [hscene]
    exact hconfig

/-- No request changes the switches. -/
theorem Ui.config_serve {ui : Ui κ} {request : Request κ} (hsound : ui.scene.Sound)
    (hframes : request.FramesOnly) :
    (ui.serve request).2.scene.mount.config = ui.scene.mount.config := by
  cases request with
  | perform command =>
    show (ui.perform command).2.scene.mount.config = _
    rcases Ui.perform_cases hsound command with ⟨err, log, herr⟩ | ⟨done, hdone, heffect⟩
    · rw [herr]
    · rw [hdone]
      exact heffect.config
  | pass => exact Passes.plain.config hsound
  | layOutAndPass engine => exact (Passes.laidOut engine hframes).config hsound

end Switches

/-! ## Two runs -/

/-! The two user interfaces are compared through the *essence* of their scenes, which leaves out
what pruning discards. Commands and passes are blind to the difference, so the pairing survives
every request; what is left to show is what a flush looks like on either side. -/

/-- The user interface with another tree. -/
def Ui.withTree (ui : Ui κ) (tree : Tree κ) : Ui κ := { ui with scene := { ui.scene with tree } }

/-- A user interface with pruning off and one with pruning on that differ in what pruning discards
alone. -/
structure Ui.Paired (plain culled : Ui κ) : Prop where
  /-- Both have the same managers. -/
  managers : culled.managers = plain.managers
  /-- What is essential is the same. -/
  essence : plain.scene.essence = culled.scene.essence
  /-- Pruning is on in the second. -/
  culling : culled.scene.mount.config.pruneDrops = true

namespace Ui.Paired

variable {plain culled : Ui κ}

/-- The trees are the same. -/
theorem tree (hpaired : plain.Paired culled) : culled.scene.tree = plain.scene.tree :=
  (Scene.tree_eq_of_essence hpaired.essence).symm

/-- The same drops wait. -/
theorem dropTags (hpaired : plain.Paired culled) :
    culled.scene.mount.dropTags = plain.scene.mount.dropTags := by
  obtain ⟨-, -, -, hdrops, -⟩ :=
    MountState.essence_eq_iff.mp (Scene.mount_essence hpaired.essence)
  rw [MountState.dropTags, MountState.dropTags, hdrops]

/-- Frames may be set in both. -/
theorem withTree (hpaired : plain.Paired culled) (tree : Tree κ) :
    (plain.withTree tree).Paired (culled.withTree tree) := by
  have hmount := Scene.mount_essence hpaired.essence
  exact ⟨hpaired.managers, congrArg (Scene.mk tree · []) hmount, hpaired.culling⟩

end Ui.Paired

section Runs

variable [Coordinate κ] {plain culled ui : Ui κ} {record record' : Record κ}

/-- A user interface once frames have been set, and what a pass makes of it. -/
theorem History.reframed (h : History record ui) {framed : Tree κ}
    (hset : ui.scene.tree.Reframed framed) :
    (ui.withTree framed).scene.Sound ∧
      Touches ui.scene.opened (ui.withTree framed).scene.refreshed := by
  have hsound := h.reachable.sound
  have htree := Touches.sound (hset.touches ui.scene.mount ui.scene.log) hsound.tree
  have htouches := hset.touches { ui.scene.mount with passOpen := true } ui.scene.log
  exact ⟨⟨htree, hsound.closed⟩, htouches.trans (Mount.refreshRoots_refreshed htree).2.1⟩

namespace Ui.Paired

/-- A command is answered alike. -/
theorem perform (hpaired : plain.Paired culled) (command : Command κ) :
    (culled.perform command).1 = (plain.perform command).1 ∧
      (culled.perform command).2.managers = (plain.perform command).2.managers ∧
      (plain.perform command).2.scene.essence = (culled.perform command).2.scene.essence := by
  rw [Ui.perform, Ui.perform, hpaired.managers]
  -- a blind computation takes both sides through the same branch
  rcases (command.blind_run plain.managers).cases hpaired.essence with
    ⟨answer, a, b, ha, hb, hafter⟩ | ⟨err, a, b, ha, hb, hafter⟩
  · rw [ha, hb]
    exact ⟨rfl, rfl, hafter⟩
  · rw [ha, hb]
    exact ⟨rfl, rfl, hafter⟩

/-- What an open pass sends is alike. -/
theorem refreshed (hpaired : plain.Paired culled) :
    plain.scene.refreshed.essence = culled.scene.refreshed.essence := by
  -- the mark of an open pass is a part of the essence and the same on both sides
  have hopened : plain.scene.opened.mount.essence = culled.scene.opened.mount.essence := by
    obtain ⟨hqueue, hsent, hframes, hdrops, -⟩ :=
      MountState.essence_eq_iff.mp (Scene.mount_essence hpaired.essence)
    exact MountState.essence_eq_iff.mpr ⟨hqueue, hsent, hframes, hdrops, rfl⟩
  refine Mount.blind_refreshRoots.leaves ?_
  rw [Scene.essence, hopened, Scene.essence]
  exact congrArg (Scene.mk · _ []) hpaired.tree.symm

/-- A pass after frames may have been set flushes alike, up to what pruning discards. -/
theorem runPass (hpaired : plain.Paired culled) (hplain : History record plain)
    (hculled : History record' culled) {framed : Tree κ}
    (hset : plain.scene.tree.Reframed framed) :
    (culled.withTree framed).runPass.1 = (plain.withTree framed).runPass.1.pruned ∧
      (culled.withTree framed).runPass.2.managers = (plain.withTree framed).runPass.2.managers ∧
      (plain.withTree framed).runPass.2.scene.essence =
        (culled.withTree framed).runPass.2.scene.essence := by
  obtain ⟨hsound, htouches⟩ := hplain.reframed hset
  obtain ⟨hsound', htouches'⟩ := hculled.reframed (hpaired.tree ▸ hset)
  have hrefreshed := (hpaired.withTree framed).refreshed
  -- on the first side no drop waits in the queue, and on the second nothing is left to discard
  have hundropped := hplain.stable_refreshed MountState.stable_undropped hplain.tracks.undropped
    htouches
  have hnothing := hculled.stable_refreshed MountState.stable_culled
    (hculled.stable MountState.stable_culled) htouches'
  have hflush := MountState.closePass_pruned (Scene.mount_essence hrefreshed) hundropped
    (hnothing ((Touches.config htouches').symm ▸ hpaired.culling))
  -- both passes succeed, so the reports are their flushes
  obtain ⟨log, hpass⟩ := runPass_refreshed hsound
  obtain ⟨log', hpass'⟩ := runPass_refreshed hsound'
  rw [hpass, hpass']
  refine ⟨?_, hpaired.managers, ?_⟩
  · exact congrArg (fun flush : Flush κ =>
      ({ result := .ok flush.count, flush := some flush } : PassReport κ)) hflush
  · rw [Scene.essence, Scene.essence, Scene.tree_eq_of_essence hrefreshed,
      MountState.essence_closePass (Scene.mount_essence hrefreshed)]

/-- Every request is answered alike, up to what pruning discards. -/
theorem serve (hpaired : plain.Paired culled) (hplain : History record plain)
    (hculled : History record' culled) {request : Request κ} (hframes : request.FramesOnly) :
    (culled.serve request).1 = (plain.serve request).1.pruned ∧
      (plain.serve request).2.Paired (culled.serve request).2 := by
  have hculling : (culled.serve request).2.scene.mount.config.pruneDrops = true := by
    rw [config_serve hculled.reachable.sound hframes]
    exact hpaired.culling
  -- commands answer without a flush, passes with one, laying out as passes after frames are set
  cases request with
  | perform command =>
    obtain ⟨hresult, hmanagers, hessence⟩ := hpaired.perform command
    exact ⟨congrArg Answer.done hresult, hmanagers, hessence, hculling⟩
  | pass =>
    have hself : culled.withTree plain.scene.tree = culled := by
      rw [← hpaired.tree]
      rfl
    have hpass := hpaired.runPass hplain hculled .refl
    rw [hself] at hpass
    obtain ⟨hreport, hmanagers, hessence⟩ := hpass
    exact ⟨congrArg Answer.passed hreport, hmanagers, hessence, hculling⟩
  | layOutAndPass engine =>
    have hpass := hpaired.runPass hplain hculled
      (layOut_reframed hframes plain.scene.tree.roots plain.scene.tree)
    -- the engine is run on the same tree, and so gives the same answer
    have hframed := hpaired.withTree (layOut engine plain.scene.tree.roots plain.scene.tree).2.2
    rw [Ui.serve] at hculling ⊢
    rw [Ui.serve]
    dsimp only at hculling ⊢
    rw [layOutAndRunPass_eq hculled.reachable.sound, hpaired.tree] at hculling ⊢
    rw [layOutAndRunPass_eq hplain.reachable.sound]
    generalize layOut engine plain.scene.tree.roots plain.scene.tree = answer at *
    obtain ⟨laidOut, result, tree⟩ := answer
    cases result with
    -- a failing engine leaves both without a flush
    | error err => exact ⟨rfl, hframed⟩
    | ok _ =>
      obtain ⟨hreport, hmanagers, hessence⟩ := hpass
      refine ⟨congrArg (fun report : PassReport κ => Answer.passed { report with laidOut }) hreport,
        hmanagers, hessence, hculling⟩

/-- What is fair with pruning off is fair with pruning on. -/
theorem fair (hpaired : plain.Paired culled) (hplain : History record plain)
    (hculled : History record' culled) {request : Request κ} (hfair : plain.Fair request) :
    culled.Fair request := by
  obtain ⟨hanswer, -⟩ := hpaired.serve hplain hculled hfair.framesOnly
  refine ⟨hfair.framesOnly, ?_⟩
  rw [hanswer, request.registered_pruned, hpaired.dropTags]
  exact hfair.free

end Ui.Paired

variable {managers : Managers} {config : Config} {requests : List (Request κ)}

/-- Two fair runs, step by step. -/
theorem Ui.paired_runs
    (hfair : (Ui.new managers { config with pruneDrops := false } : Ui κ).Obeys Fair requests) :
    (Ui.new managers { config with pruneDrops := true } : Ui κ).Obeys Fair requests ∧
    (Ui.new managers { config with pruneDrops := true } : Ui κ).answers requests =
      ((Ui.new managers { config with pruneDrops := false }).answers requests).map Answer.pruned ∧
    ((Ui.new managers { config with pruneDrops := false } : Ui κ).after requests).Paired
      ((Ui.new managers { config with pruneDrops := true }).after requests) := by
  induction requests using List.reverseRecOn with
  | nil => exact ⟨trivial, rfl, rfl, rfl, rfl⟩
  | append_singleton requests request ih =>
    rw [obeys_concat] at hfair
    obtain ⟨hfair', hanswers, hpaired⟩ := ih hfair.1
    obtain ⟨record, hplain⟩ := exists_history hfair.1
    obtain ⟨record', hculled⟩ := exists_history hfair'
    obtain ⟨hanswer, hafter⟩ := hpaired.serve hplain hculled hfair.2.framesOnly
    rw [obeys_concat, answers_concat, answers_concat, after_concat, after_concat, List.map_append,
      hanswers, hanswer]
    exact ⟨⟨hfair', hpaired.fair hplain hculled hfair.2⟩, rfl, hafter⟩

/-- Both runs register alike. -/
theorem Ui.registrations_pruned {ui pruned : Ui κ}
    (hanswers : pruned.answers requests = (ui.answers requests).map Answer.pruned) :
    pruned.registrations requests = ui.registrations requests := by
  rw [registrations, hanswers, List.zipWith_map_right, registrations]
  exact congrArg (List.zipWith · requests _) (funext₂ Request.registered_pruned)

/-! ## The native side

The two native sides end up with the same views because both are faithful to the same tree. What is
left are contents: for a view that stays the same operations are executed, and a view that was
dropped is gone on both. -/

variable {platform past : List Tag} {native native' : Native.Hierarchy κ} {report : PassReport κ}
  {after : Ui κ} {flush : Flush κ}

/-- A pass that flushes leaves a faithful native side. -/
theorem Ui.Passes.faithful (h : ui.Passes report after) (hsound : ui.scene.Sound)
    (hstep : InStep platform past ui.scene native) (hflush : report.flush = some flush) :
    Faithful platform past after.scene.tree (native.absorb report) := by
  cases h with
  | plain => exact (runPass_faithful hsound hstep).2.2
  | laidOut engine hengine =>
    -- a report with a flush is one of a layout that has succeeded
    refine ((layOutAndRunPass_faithful hsound hstep hengine).2 ?_).2
    rw [layOutAndRunPass_eq hsound] at hflush
    generalize layOut engine ui.scene.tree.roots ui.scene.tree = answer at hflush
    obtain ⟨laidOut, result, tree⟩ := answer
    cases result with
    | error err => cases hflush
    | ok _ => rfl

/-- The views that a pass drops are gone once it is absorbed. -/
theorem Ui.Passes.dropped_gone (h : ui.Passes report after) (hhistory : History record ui)
    (hstep : InStep platform past ui.scene native) (hflush : report.flush = some flush) {tag : Tag}
    (hdropped : tag ∈ flush.dropped) : (native.absorb report).hasView tag = false := by
  have hsound := hhistory.reachable.sound
  have hfaithful := h.faithful hsound hstep hflush
  rcases h.closes hsound with
    ⟨-, hnone, -⟩ | ⟨refreshed, log, htouches, -, hsome, hscene⟩
  · rw [hnone] at hflush
    cases hflush
  · obtain rfl : refreshed.mount.closePass.1 = flush := Option.some.inj (hsome.symm.trans hflush)
    have hundropped := hhistory.stable_refreshed MountState.stable_undropped
      hhistory.tracks.undropped htouches
    rw [MountState.dropped_closePass hundropped, MountState.dropTags,
      Touches.drops htouches] at hdropped
    -- a view that waits for its drop has no node, and is no root to come
    refine Bool.eq_false_iff.mpr fun hview => ?_
    rw [hscene] at hfaithful
    rcases (hfaithful.views tag).mp hview with hcreated | hnew
    · have hgone := (Touches.contains htouches tag).trans (hstep.free hdropped)
      rw [Tree.contains_of_createdAt hcreated] at hgone
      cases hgone
    · exact hstep.not_dropped (.inr hnew) hdropped

end Runs

section Views

variable {tag : Tag} {flush : Flush κ} {report : PassReport κ} {native native' : Hierarchy κ}

/-- What is addressed to a view that stays is left alone. -/
theorem Flush.filter_pruned (htag : tag ∉ flush.dropped) :
    flush.pruned.operations.filter (·.target? = some tag) =
      flush.operations.filter (·.target? = some tag) := by
  rw [Flush.pruned, List.filter_filter]
  refine List.filter_congr fun operation _ => ?_
  by_cases htarget : operation.target? = some tag
  · simp [Operation.isPrunable, htarget, htag]
  · simp [htarget]

/-- A report is absorbed by receiving what its flush delivers. -/
theorem Native.Hierarchy.absorb_of_flush (native : Hierarchy κ)
    (hflush : report.flush = some flush) :
    native.absorb report = flush.deliveries.foldl receive native := by
  rw [absorb, hflush]

/-- The contents of a view after a pass without violations. -/
theorem Native.Hierarchy.content?_absorb (hflush : report.flush = some flush)
    (hquiet : (native.absorb report).violations = []) :
    (native.absorb report).content? tag =
      (flush.operations.filter (·.target? = some tag)).foldl (fun content operation =>
        contentAfter operation content) (native.content? tag) := by
  rw [native.absorb_of_flush hflush, foldl_receive_deliveries] at hquiet ⊢
  exact content?_foldl tag flush.operations native (List.append_eq_nil_iff.mp hquiet).1

/-- Hierarchies that are faithful to one tree have the same views, linked alike. -/
theorem Native.Faithful.same {platform past : List Tag} {tree : Tree κ}
    (h : Faithful platform past tree native) (h' : Faithful platform past tree native')
    (tag : Tag) : native'.hasView tag = native.hasView tag ∧
      native'.childrenOf tag = native.childrenOf tag ∧
      native'.parentOf? tag = native.parentOf? tag := by
  refine ⟨Bool.eq_iff_iff.mpr ((h'.views tag).trans (h.views tag).symm), ?_⟩
  cases hcreated : tree.createdAt tag with
  | true =>
    exact ⟨Except.ok.inj ((h'.children tag hcreated).symm.trans (h.children tag hcreated)),
      Except.ok.inj ((h'.parent tag hcreated).symm.trans (h.parent tag hcreated))⟩
  | false =>
    obtain ⟨hchildren, hparent⟩ := h.bare tag hcreated
    obtain ⟨hchildren', hparent'⟩ := h'.bare tag hcreated
    exact ⟨hchildren'.trans hchildren.symm, hparent'.trans hparent.symm⟩

/-- Hierarchies with the same views have the same views after a flush and after the flush pruned, if
both are faithful and what was dropped is gone. -/
theorem Native.Hierarchy.view?_absorb {platform past : List Tag} {tree : Tree κ}
    {report' : PassReport κ} (hviews : ∀ tag, native'.view? tag = native.view? tag)
    (hflush : report.flush = some flush) (hflush' : report'.flush = some flush.pruned)
    (hfaithful : Faithful platform past tree (native.absorb report))
    (hfaithful' : Faithful platform past tree (native'.absorb report'))
    (hgone : ∀ {tag}, tag ∈ flush.dropped → (native.absorb report).hasView tag = false)
    (tag : Tag) : (native'.absorb report').view? tag = (native.absorb report).view? tag := by
  obtain ⟨hview, hchildren, hparent⟩ := hfaithful.same hfaithful' tag
  refine view?_eq ?_ hchildren hparent
  -- a dropped view is gone on both sides; for the others the same operations are executed
  by_cases htag : tag ∈ flush.dropped
  · have hnone := hgone htag
    rw [content?_of_missing hnone, content?_of_missing (hview.trans hnone)]
  · rw [content?_absorb hflush hfaithful.consistent, content?_absorb hflush' hfaithful'.consistent,
      Flush.filter_pruned htag, content?, hviews, content?]

end Views

section Runs

variable [Coordinate κ] {managers : Managers} {config : Config} {requests : List (Request κ)}
  {platform : List Tag}

/-- Two fair runs show the same views. -/
theorem Ui.view?_pruned
    (hfair : (Ui.new managers { config with pruneDrops := false } : Ui κ).Obeys Fair requests)
    (hrooted : Registration.Rooted platform
      ((Ui.new managers { config with pruneDrops := false } : Ui κ).registrations requests))
    (tag : Tag) :
    ((Hierarchy.withRoots platform).follow
      ((Ui.new managers { config with pruneDrops := true } : Ui κ).answers requests)).view? tag =
    ((Hierarchy.withRoots platform).follow
      ((Ui.new managers { config with pruneDrops := false } : Ui κ).answers requests)).view?
        tag := by
  induction requests using List.reverseRecOn generalizing tag with
  | nil => rfl
  | append_singleton requests request ih =>
    rw [obeys_concat] at hfair
    rw [registrations_concat] at hrooted
    have hviews := ih hfair.1 hrooted.of_concat
    -- before the last request the two runs are paired, and both native sides are in step
    obtain ⟨hfair', hanswers, hpaired⟩ := paired_runs hfair.1
    obtain ⟨record, hplain⟩ := exists_history hfair.1
    obtain ⟨record', hculled⟩ := exists_history hfair'
    obtain ⟨hanswer, hafter⟩ := hpaired.serve hplain hculled hfair.2.framesOnly
    have hstep := (session hfair.1 hrooted.of_concat).inStep
    have hregistrations := registrations_pruned hanswers
    have hstep' := (session hfair' (hregistrations ▸ hrooted.of_concat)).inStep
    rw [hregistrations] at hstep'
    rw [answers_concat, answers_concat, Hierarchy.follow_concat, Hierarchy.follow_concat,
      Answer.deliveries, Answer.deliveries, hanswer, Answer.flush?_pruned]
    -- without a flush the native side has nothing to receive
    cases hflush : ((after (new managers { config with pruneDrops := false }) requests).serve
      request).1.flush? with
    | none => exact hviews tag
    | some flush =>
      have hflush' : ((after (new managers { config with pruneDrops := true }) requests).serve
          request).1.flush? = some flush.pruned := by
        rw [hanswer, Answer.flush?_pruned, hflush, Option.map_some]
      obtain ⟨report, hpass, hreport⟩ := passes_of_flush hfair.2.framesOnly hflush
      obtain ⟨report', hpass', hreport'⟩ := passes_of_flush hfair.2.framesOnly hflush'
      -- both flushes are faithful to the one tree that both runs have reached
      have hfaithful' := hpass'.faithful hstep'.1 hstep'.2 hreport'
      rw [hafter.tree] at hfaithful'
      have hsame := Hierarchy.view?_absorb hviews hreport hreport'
        (hpass.faithful hstep.1 hstep.2 hreport) hfaithful'
        (hpass.dropped_gone hplain hstep.2 hreport) tag
      rw [Hierarchy.absorb_of_flush _ hreport, Hierarchy.absorb_of_flush _ hreport'] at hsame
      exact hsame

/-- Pruning is a filter. Let two user interfaces serve the same requests, one with pruning off and
one with pruning on, and let the run of the first be fair. Then each request is answered alike, up
to operations that a flush of the first addresses to views that it destroys, creates and drops
apart: commands succeed or fail alike, passes report the same frames, and each flush of the second
is that of the first, filtered. The trees agree. If the roots of the run are registered as the
platform expects, then both native sides are without violations and show the same views. All of this
holds after every request, as every part of a fair run that comes first is a fair run. -/
theorem Ui.pruning_filters
    (hfair : (Ui.new managers { config with pruneDrops := false } : Ui κ).Obeys Fair requests) :
    let plain : Ui κ := Ui.new managers { config with pruneDrops := false }
    let culled : Ui κ := Ui.new managers { config with pruneDrops := true }
    culled.answers requests = (plain.answers requests).map Answer.pruned ∧
    (culled.after requests).scene.tree = (plain.after requests).scene.tree ∧
    ∀ {platform : List Tag}, Registration.Rooted platform (plain.registrations requests) →
      ((Hierarchy.withRoots platform).follow (plain.answers requests)).violations = [] ∧
      ((Hierarchy.withRoots platform).follow (culled.answers requests)).violations = [] ∧
      ∀ tag, ((Hierarchy.withRoots platform).follow (culled.answers requests)).view? tag =
        ((Hierarchy.withRoots platform).follow (plain.answers requests)).view? tag := by
  intro plain culled
  obtain ⟨hfair', hanswers, hpaired⟩ := paired_runs hfair
  refine ⟨hanswers, hpaired.tree, fun hrooted => ?_⟩
  -- what is registered decides what the platform owns, on either side
  have hrooted' : Registration.Rooted _ (culled.registrations requests) :=
    registrations_pruned hanswers ▸ hrooted
  exact ⟨(session hfair hrooted).inStep.2.mirror.consistent,
    (session hfair' hrooted').inStep.2.mirror.consistent, view?_pruned hfair hrooted⟩

end Runs

/-- Three nested scrollers are given their views by a command, and the inner two are removed before
the first pass. -/
def cutShort : List (Request Float32) :=
  [.perform (.addRoot 1 0 0), .perform (.create 2 "ScrollView" 1 .empty),
    .perform (.create 3 "ScrollView" 1 .empty), .perform (.create 4 "ScrollView" 1 .empty),
    .perform (.prependChildren 3 [4]), .perform (.prependChildren 2 [3]),
    .perform (.prependChildren 1 [2]), .perform (.sendCommand 3 0 []),
    .perform (.editChildren 2 { removeFrom := [0] }), .pass]

/-- Of thirteen operations pruning takes out the four that frame, fill and command the inner
scrollers. The outer one is shown in both cases. -/
theorem Ui.pruning_filters_cutShort :
    let plain := (Ui.new Managers.builtins {}).answers cutShort
    let culled := (Ui.new Managers.builtins { pruneDrops := true }).answers cutShort
    plain.filterMap (·.flush?.map Flush.count) = [13] ∧
    culled.filterMap (·.flush?.map Flush.count) = [9] ∧
    ((Hierarchy.withRoots [1]).follow culled).violations = [] ∧
    ((Hierarchy.withRoots [1]).follow culled).hasView 2 = true := by
  intro plain culled
  have hfair : (Ui.new Managers.builtins {}).Obeys Ui.Fair cutShort := by
    refine ⟨⟨trivial, ?_⟩, ⟨trivial, ?_⟩, ⟨trivial, ?_⟩, ⟨trivial, ?_⟩, ⟨trivial, ?_⟩,
      ⟨trivial, ?_⟩, ⟨trivial, ?_⟩, ⟨trivial, ?_⟩, ⟨trivial, ?_⟩, ⟨trivial, ?_⟩, trivial⟩ <;>
      decide +kernel
  have hregistrations : (Ui.new Managers.builtins {}).registrations cutShort =
      [.root 1, .node 2, .node 3, .node 4] ++ .replicate 6 .none := by decide +kernel
  have hrooted : Registration.Rooted [1]
      ((Ui.new Managers.builtins {}).registrations cutShort) := by
    rw [hregistrations]
    exact ⟨by decide, by simp, by simp⟩
  obtain ⟨hanswers, -, hnative⟩ := @Ui.pruning_filters _ _ _ {} _ hfair
  obtain ⟨-, hquiet, hviews⟩ := hnative hrooted
  have hcounts : (plain.map Answer.pruned).filterMap (·.flush?.map Flush.count) = [9] := by
    decide +kernel
  have hshown : ((Hierarchy.withRoots [1]).follow plain).hasView 2 = true := by decide +kernel
  refine ⟨by decide +kernel, ?_, hquiet, ?_⟩
  · exact (congrArg (List.filterMap (·.flush?.map Flush.count)) hanswers).trans hcounts
  · exact (congrArg Option.isSome (hviews 2)).trans hshown

end ShadowMount
