import ShadowMount.Proofs.Ui.Requests

/-!
# What is sent

Commands and passes send operations by adding them to the queue, with an entry in the list of frame
changes for each frame. They are addressed to views that exist, and so never to a view that waits
for its drop. An invariant of what waits in a mount state need only survive three things: sending,
scheduling a drop, and the handing over of everything at the end of a pass.

* **`Touches.sends`** — what is sent between two scenes.
* **`Scene.refreshed`**, **`Ui.Passes.closes`** — a pass as what is sent once it is open, and the
  handing over.
* **`MountState.Stable`**, **`History.stable`** — the induction for invariants of what waits.
-/

namespace ShadowMount

variable {κ : Type}

/-! ## Sending

What commands and passes add to a queue is addressed to views, and a new view comes with its create.
This is enough for invariants of what waits; which commands and which steps sent it does not matter.
-/

/-- A mount state sends an operation or has no need to. A frame goes into the list of frame
changes, too. -/
def MountState.Posts (state : MountState κ) (operation : Operation κ) (sent : MountState κ) :
    Prop :=
  sent.queue = state.queue ∧ sent.frameChanges = state.frameChanges ∨
    sent.queue = state.queue ++ [operation] ∧
      sent.frameChanges = state.frameChanges ++ operation.frame?.toList

namespace MountState

variable (state : MountState κ)

/-- A frame that is remembered already is not sent. -/
theorem posts_frameSent [Coordinate κ] (tag parent : Tag) (frame : Frame κ) :
    state.Posts (.setFrame tag parent frame) (state.frameSent tag parent frame) := by
  unfold frameSent
  split
  · exact .inl ⟨rfl, rfl⟩
  · exact .inr ⟨rfl, rfl⟩

/-- A child list that is remembered already is not sent. -/
theorem posts_childrenSent (tag : Tag) (children : List Tag) :
    state.Posts (.setChildren tag children) (state.childrenSent tag children) := by
  unfold childrenSent
  split
  · exact .inl ⟨rfl, rfl⟩
  · exact .inr ⟨rfl, (List.append_nil _).symm⟩

/-- Of the properties those are sent that differ from what is remembered, if there are any. -/
theorem posts_propsSent (tag : Tag) (viewClass : String) (delta : Props) : ∃ changed,
    state.Posts (.setProps tag viewClass changed) (state.propsSent tag viewClass delta) := by
  refine ⟨Props.changes (state.sent tag).props delta, ?_⟩
  unfold propsSent
  dsimp only
  split
  · exact .inl ⟨rfl, rfl⟩
  · exact .inr ⟨rfl, (List.append_nil _).symm⟩

end MountState

/-- Operations addressed to views are sent between two scenes, with an entry in the list of frame
changes for each frame. Each new view is made by one of them. -/
def Sends (scene done : Scene κ) : Prop :=
  ∃ operations, done.mount.queue = scene.mount.queue ++ operations ∧
    done.mount.frameChanges =
      scene.mount.frameChanges ++ operations.filterMap Operation.frame? ∧
    (∀ operation ∈ operations, operation.isDrop = false ∧
      ∀ tag ∈ operation.target?, done.tree.createdAt tag = true) ∧
    ∀ tag, done.tree.createdAt tag = true →
      scene.tree.createdAt tag = true ∨ tag ∈ operations.filterMap Operation.created?

namespace Sends

variable {scene mid done : Scene κ}

/-- A change of nodes alone sends nothing. It makes no view, as a new view comes with its create. -/
theorem nothing (hmount : done.mount = scene.mount)
    (hviews : ∀ tag, done.tree.createdAt tag = true → scene.tree.createdAt tag = true) :
    Sends scene done :=
  ⟨[], by simp [hmount], by simp [hmount], nofun, fun tag hview => .inl (hviews tag hview)⟩

/-- One operation is sent, or none. -/
theorem of_posts {operation : Operation κ} (h : scene.mount.Posts operation done.mount)
    (hkind : operation.isDrop = false)
    (htarget : ∀ tag ∈ operation.target?, done.tree.createdAt tag = true)
    (hviews : ∀ tag, done.tree.createdAt tag = true → scene.tree.createdAt tag = true) :
    Sends scene done := by
  -- the mount state may have found that the platform knows already
  rcases h with ⟨hqueue, hframes⟩ | ⟨hqueue, hframes⟩
  · exact ⟨[], by simp [hqueue], by simp [hframes], nofun, fun tag hview => .inl (hviews tag hview)⟩
  · refine ⟨[operation], hqueue, ?_, List.forall_mem_singleton.mpr ⟨hkind, htarget⟩,
      fun tag hview => .inl (hviews tag hview)⟩
    rw [hframes, List.filterMap_cons]
    cases operation.frame? <;> rfl

/-- A view is made. -/
theorem create (tree : Tree κ) (mount : MountState κ) (log : List Log.Line) (tag : Tag)
    (node : Node κ) : Sends ⟨tree, mount, log⟩
      ⟨tree.store tag { node with created := true }, mount.createSent tag node, log⟩ := by
  refine ⟨[.create tag node.root node.viewClass node.props], rfl, (List.append_nil _).symm,
    List.forall_mem_singleton.mpr ⟨rfl, fun t ht => ?_⟩, fun t hview => ?_⟩
  · cases ht
    exact createdAt_made
  · by_cases heq : tag = t
    · subst heq
      exact .inr (List.mem_singleton_self tag)
    · exact .inl ((Tree.createdAt_store ..).trans (if_neg heq) ▸ hview)

/-- What is sent one after the other. The later views are those of the earlier operations, too, as
no view is lost on the way. -/
theorem trans (hfirst : Sends scene mid) (hsecond : Sends mid done)
    (hmono : ∀ {tag}, mid.tree.createdAt tag = true → done.tree.createdAt tag = true) :
    Sends scene done := by
  obtain ⟨operations, hqueue, hframes, hviewed, hmade⟩ := hfirst
  obtain ⟨operations', hqueue', hframes', hviewed', hmade'⟩ := hsecond
  refine ⟨operations ++ operations', ?_, ?_, List.forall_mem_append.mpr ⟨?_, hviewed'⟩, ?_⟩
  · rw [hqueue', hqueue, List.append_assoc]
  · rw [hframes', hframes, List.filterMap_append, List.append_assoc]
  · intro operation hmem
    obtain ⟨hkind, htarget⟩ := hviewed operation hmem
    exact ⟨hkind, fun tag htag => hmono (htarget tag htag)⟩
  · intro tag hview
    rw [List.filterMap_append, List.mem_append]
    rcases hmade' tag hview with hmid | hlater
    · exact (hmade tag hmid).imp_right .inl
    · exact .inr (.inr hlater)

end Sends

section Touches

variable [Coordinate κ] {scene done : Scene κ}

/-- A step of a pass sends at most one operation, to the view that it has made or found. -/
theorem Mount.Step.sends (h : Mount.Step scene done) : Sends scene done := by
  cases h with
  | create => exact .create ..
  | @frame tree mount log tag parent frame hcreated =>
    refine .of_posts (mount.posts_frameSent tag parent frame) rfl (fun t ht => ?_) fun _ => id
    cases ht
    exact hcreated
  | @children tree mount log tag children hcreated =>
    refine .of_posts (mount.posts_childrenSent tag children) rfl (fun t ht => ?_) fun _ => id
    cases ht
    exact hcreated
  | note => exact .nothing rfl fun _ => id

/-- A climb sends the child list of the summit and the create of the promoted node, in this order.
-/
theorem Mount.Rise.sends (h : Mount.Rise scene done) : Sends scene done := by
  cases h with
  | step h => exact h.sends
  | promote hget =>
    exact .nothing rfl fun t hview => (Tree.createdAt_promote hget t).symm.trans hview
  | @insert tree mount log tag parent node children hget hpromotable hcreated hparent habove =>
    -- the list goes to a view that exists already, and only then the create makes one
    have hmounts := Node.mounts_of_promotable hpromotable
    have hgrown := Tree.grown_store (@Tree.get?_store_self _ tree tag node.promote) hmounts
    have hviews := Tree.createdAt_promote hget
    have hlisted : Sends ⟨tree, mount, log⟩
        ⟨tree.store tag node.promote, mount.childrenSent parent children, log⟩ := by
      refine .of_posts (mount.posts_childrenSent parent children) rfl (fun t ht => ?_)
        fun t hview => (hviews t).symm.trans hview
      cases ht
      exact (hviews parent).trans habove
    exact hlisted.trans (.create ..) hgrown.mono

/-- A touch of a command sends to views. -/
theorem Touch.sends (h : Touch scene done) : Sends scene done := by
  cases h with
  | rise h => exact h.sends
  | @post tree mount log operation h hframe =>
    -- a command's own operation is enqueued as it is, without a look at what is remembered
    have hposts : mount.Posts operation (mount.enqueue operation) :=
      .inr ⟨rfl, by rw [hframe]; exact (List.append_nil _).symm⟩
    exact .of_posts hposts (Operation.isPlain_iff.mp h.isPlain).2 (fun tag htag =>
      h.viewed tag (Operation.mem_mentions_of_target? htag)) fun _ => id
  | @props tree mount log tag viewClass delta hcreated =>
    obtain ⟨changed, hposts⟩ := mount.posts_propsSent tag viewClass delta
    refine .of_posts hposts rfl (fun t ht => ?_) fun _ => id
    cases ht
    exact hcreated
  | data hget frame props =>
    exact .nothing rfl fun t hview => (Tree.flags_update hget frame props t).1.symm.trans hview

/-- What is sent between two scenes is addressed to views that exist in the second one. -/
theorem Touches.sends (h : Touches scene done) : Sends scene done := by
  induction h with
  | refl => exact .nothing rfl fun _ => id
  | tail _ htouch ih => exact ih.trans htouch.sends htouch.createdAt_mono

end Touches

/-! ## Passes

A pass of a sound user interface does not fail. It is opened, sends, and hands over what waits. -/

section Passes

variable [Coordinate κ] {scene : Scene κ} {ui after : Ui κ} {report : PassReport κ}

/-- The scene in which a pass is open. -/
def Scene.opened (scene : Scene κ) : Scene κ :=
  { scene with mount := { scene.mount with passOpen := true } }

/-- The scene once an open pass has brought every root up to date. -/
def Scene.refreshed (scene : Scene κ) : Scene κ := leaves Mount.refreshRoots scene.opened

/-- Bringing every root up to date succeeds, as a run of passes over each of them. -/
theorem Mount.refreshRoots_run (hsound : scene.tree.Sound) :
    Mount.refreshRoots scene.opened = .ok () scene.refreshed ∧
      Mount.Run scene.opened scene.refreshed ∧
      ∀ root ∈ scene.refreshed.tree.roots, Mount.Settled scene.refreshed root := by
  obtain ⟨done, hrefresh, hrun, hsettled⟩ :=
    @Mount.refreshRoots_ok _ _ scene.opened hsound.wellFormed hsound.flags
  rw [Scene.refreshed, leaves_of_ok hrefresh, (Mount.Run.grown hrun).roots]
  exact ⟨hrefresh, hrun, hsettled⟩

/-- The same, where the steps are touches. -/
theorem Mount.refreshRoots_refreshed (hsound : scene.tree.Sound) :
    Mount.refreshRoots scene.opened = .ok () scene.refreshed ∧
      Touches scene.opened scene.refreshed ∧
      ∀ root ∈ scene.refreshed.tree.roots, Mount.Settled scene.refreshed root := by
  obtain ⟨hrefresh, hrun, hsettled⟩ := refreshRoots_run hsound
  exact ⟨hrefresh, Touches.ofProgress (Mount.Run.progress hrun), hsettled⟩

/-- A pass hands over what waits once every root is up to date. -/
theorem Ui.runPass_refreshed (hsound : ui.scene.Sound) : ∃ log, ui.runPass =
    ({ result := .ok ui.scene.refreshed.mount.closePass.1.count
       flush := some ui.scene.refreshed.mount.closePass.1 },
     { ui with scene :=
        ⟨ui.scene.refreshed.tree, ui.scene.refreshed.mount.closePass.2, log⟩ }) := by
  -- the mark of an open pass is off, and the tree is not broken
  have hopen : Mount.openPass ui.scene = .ok () ui.scene.opened := by
    unfold Mount.openPass
    rw [MountM.get_bind, hsound.closed]
    rfl
  rw [runPass, hsound.tree.consistent, if_neg Bool.false_ne_true, Mount.runPass, hopen]
  simp only [(Mount.refreshRoots_refreshed hsound.tree).1]
  exact ⟨_, rfl⟩

/-- A pass is left out for an error and sends nothing, or it brings every root up to date and hands
over what waits. Frames may have been set before. -/
theorem Ui.Passes.reframes (h : ui.Passes report after) (hsound : ui.scene.Sound) :
    ∃ framed, ui.scene.tree.Reframed framed ∧
      ((∃ err, report.result = .error err) ∧ report.flush = none ∧
          after.scene = { ui.scene with tree := framed } ∨
        ∃ log, let start : Scene κ := { ui.scene with tree := framed }
          report.flush = some start.refreshed.mount.closePass.1 ∧
          after.scene = ⟨start.refreshed.tree, start.refreshed.mount.closePass.2, log⟩) := by
  cases h with
  | plain =>
    obtain ⟨log, hpass⟩ := runPass_refreshed hsound
    rw [hpass]
    exact ⟨ui.scene.tree, .refl, .inr ⟨log, rfl, rfl⟩⟩
  | laidOut engine hengine =>
    -- the frames are set in a tree that stays sound, whether or not the engine fails later
    have hframed := layOut_keeps_sound hsound hengine
    have hset := layOut_reframed hengine ui.scene.tree.roots ui.scene.tree
    rw [layOutAndRunPass_eq hsound]
    generalize layOut engine ui.scene.tree.roots ui.scene.tree = answer at hframed hset
    obtain ⟨laidOut, result, tree⟩ := answer
    refine ⟨tree, hset, ?_⟩
    cases result with
    -- an engine that fails keeps the frames set until then, and no pass is run
    | error err => exact .inl ⟨⟨err, rfl⟩, rfl, rfl⟩
    | ok _ =>
      obtain ⟨log, hpass⟩ :=
        @runPass_refreshed _ _ { ui with scene := { ui.scene with tree } } hframed
      exact .inr ⟨log, congrArg (·.1.flush) hpass, congrArg (·.2.scene) hpass⟩

/-- The same, where setting frames is touching. -/
theorem Ui.Passes.refreshes (h : ui.Passes report after) (hsound : ui.scene.Sound) :
    ((∃ err, report.result = .error err) ∧ report.flush = none ∧
      after.scene.mount = ui.scene.mount ∧ Touches ui.scene after.scene) ∨
    ∃ start : Scene κ, ∃ log, start.tree.Sound ∧ Touches ui.scene.opened start.opened ∧
      report.flush = some start.refreshed.mount.closePass.1 ∧
      after.scene = ⟨start.refreshed.tree, start.refreshed.mount.closePass.2, log⟩ := by
  obtain ⟨framed, hset, ⟨herr, hflush, hscene⟩ | ⟨log, hflush, hscene⟩⟩ := h.reframes hsound
  · rw [hscene]
    exact .inl ⟨herr, hflush, rfl, hset.touches ui.scene.mount ui.scene.log⟩
  · exact .inr ⟨{ ui.scene with tree := framed }, log, hsound.tree.kept hset.kept,
      hset.touches ui.scene.opened.mount ui.scene.log, hflush, hscene⟩

/-- The same, with what is known once every root is up to date. -/
theorem Ui.Passes.closes (h : ui.Passes report after) (hsound : ui.scene.Sound) :
    ((∃ err, report.result = .error err) ∧ report.flush = none ∧
      after.scene.mount = ui.scene.mount ∧ Touches ui.scene after.scene) ∨
    ∃ refreshed log, Touches ui.scene.opened refreshed ∧
      (∀ root ∈ refreshed.tree.roots, Mount.Settled refreshed root) ∧
      report.flush = some refreshed.mount.closePass.1 ∧
      after.scene = ⟨refreshed.tree, refreshed.mount.closePass.2, log⟩ := by
  refine (h.refreshes hsound).imp_right fun ⟨start, log, hstart, hopened, hflush, hscene⟩ => ?_
  obtain ⟨-, htouches, hsettled⟩ := Mount.refreshRoots_refreshed hstart
  exact ⟨start.refreshed, log, hopened.trans htouches, hsettled, hflush, hscene⟩

end Passes

/-! ## Invariants of what waits -/

/-- An invariant of what waits in a mount state, and the three things that it survives. -/
structure MountState.Stable (P : MountState κ → Prop) : Prop where
  /-- Nothing waits. -/
  idle : ∀ {state : MountState κ}, state.queue = [] → state.frameChanges = [] → state.drops = [] →
    P state
  /-- Operations are sent to views that do not wait for their drop. -/
  sends : ∀ {state sent : MountState κ} {operations : List (Operation κ)}, P state →
    sent.config = state.config → sent.drops = state.drops →
    sent.queue = state.queue ++ operations →
    sent.frameChanges = state.frameChanges ++ operations.filterMap Operation.frame? →
    (∀ operation ∈ operations, operation.isDrop = false ∧
      ∀ tag ∈ operation.target?, tag ∉ state.dropTags) → P sent
  /-- The drop of a view is scheduled. -/
  scheduled : ∀ {state : MountState κ} (tag : Tag) (isRoot : Bool), P state →
    P (state.scheduled tag isRoot)

/-- Drops wait outside the queue. -/
theorem MountState.stable_undropped : Stable fun state : MountState κ =>
    ∀ operation ∈ state.queue, operation.isDrop = false where
  idle hqueue _ _ := by rw [hqueue]; exact nofun
  sends h _ _ hqueue _ hviewed := by
    rw [hqueue]
    exact List.forall_mem_append.mpr ⟨h, fun operation hmem => (hviewed operation hmem).1⟩
  scheduled tag isRoot h := by
    rw [queue_scheduled]
    exact fun operation hmem => h operation (List.mem_filter.mp hmem).1

namespace MountState.Stable

variable {P : MountState κ → Prop}

/-- An invariant of what waits does not look at the rest of a mount state: sending nothing survives
it. -/
theorem congr (hstable : Stable P) {state done : MountState κ} (h : P state)
    (hconfig : done.config = state.config) (hdrops : done.drops = state.drops)
    (hqueue : done.queue = state.queue) (hframes : done.frameChanges = state.frameChanges) :
    P done :=
  hstable.sends h hconfig hdrops (hqueue.trans (List.append_nil _).symm)
    (hframes.trans (List.append_nil _).symm) nofun

/-- The drops of a removed subtree are scheduled one after the other. -/
theorem scheduledAll (hstable : Stable P) {isRoot : Tag → Bool} : ∀ (tags : List Tag)
    {state : MountState κ}, P state → P (state.scheduledAll isRoot tags)
  | [], _, h => h
  | tag :: rest, _, h => hstable.scheduledAll rest (hstable.scheduled tag (isRoot tag) h)

variable [Coordinate κ] {scene done : Scene κ}

/-- What commands and passes send survives, as it goes to views and no view waits for its drop. -/
theorem touches (hstable : Stable P) (h : P scene.mount) (htouches : Touches scene done)
    (hgone : ∀ tag ∈ scene.mount.dropTags, scene.tree.contains tag = false) : P done.mount := by
  have hfixtures := Touches.fixtures htouches
  obtain ⟨operations, hqueue, hframes, hviewed, -⟩ := Touches.sends htouches
  refine hstable.sends h (congrArg (·.1) hfixtures) (congrArg (·.2.1) hfixtures) hqueue hframes ?_
  refine fun operation hmem => ⟨(hviewed operation hmem).1, fun tag htag hdropped => ?_⟩
  -- a view that waits for its drop has no node
  have hview := Tree.contains_of_createdAt ((hviewed operation hmem).2 tag htag)
  rw [Touches.contains htouches, hgone tag hdropped] at hview
  cases hview

/-- A command sends, schedules drops, or does neither. -/
theorem effect (hstable : Stable P) {managers : Managers} {registration : Registration}
    {removals : List Tag} (heffect : Effect managers registration removals scene done)
    (h : P scene.mount)
    (hgone : ∀ tag ∈ scene.mount.dropTags, scene.tree.contains tag = false) : P done.mount := by
  cases heffect with
  -- a new root may change the log and the tree, but nothing that waits
  | addRoot => exact hstable.congr h rfl rfl rfl rfl
  | create => exact h
  | trim => exact hstable.scheduledAll _ h
  | active hactive => exact hstable.touches h hactive.touches hgone

end MountState.Stable

section Runs

variable [Coordinate κ] {P : MountState κ → Prop} {record : Record κ} {ui : Ui κ}

/-- What waits when a pass hands it over. -/
theorem History.stable_refreshed (hstable : MountState.Stable P) (h : History record ui)
    (hwaiting : P ui.scene.mount) {refreshed : Scene κ}
    (htouches : Touches ui.scene.opened refreshed) : P refreshed.mount := by
  have hopened : P ui.scene.opened.mount := hstable.congr hwaiting rfl rfl rfl rfl
  exact hstable.touches hopened htouches h.tracks.dropped_gone

/-- A stable invariant holds after every run. -/
theorem History.stable (hstable : MountState.Stable P) (h : History record ui) :
    P ui.scene.mount := by
  induction h with
  | start => exact hstable.idle rfl rfl rfl
  | @perform record ui h command hok hfree ih =>
    obtain ⟨done, hdone, heffect⟩ := Ui.effect_of_ok h.reachable.sound hok
    rw [hdone]
    exact hstable.effect heffect ih h.tracks.dropped_gone
  | @refuse record ui h command err hrefused ih =>
    obtain ⟨log, herr⟩ := Ui.unchanged_of_error h.reachable.sound hrefused
    rw [herr]
    exact ih
  | @pass record ui after report h hpass ih =>
    -- a pass without a flush has sent nothing; another one leaves nothing waiting
    rcases hpass.closes h.reachable.sound with ⟨-, -, hmount, -⟩ | ⟨refreshed, log, -, -, -, hscene⟩
    · rw [hmount]
      exact ih
    · rw [hscene]
      exact hstable.idle rfl rfl rfl

end Runs

end ShadowMount
