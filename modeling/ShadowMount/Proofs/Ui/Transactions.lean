import ShadowMount.Proofs.Ui.Effects

/-!
# Transactional commands

A user interface is reached from a new one by commands and passes, with layout engines that only
set frames. Its tree is sound and no pass is open, and this is enough for every command to be a
transaction: it has its whole effect, or fails without one.

* **`Ui.Reachable.sound`** — what holds of every reachable user interface; `Reachable.invariant` is
  the induction for further invariants of the tree.
* **`perform_error_unchanged`** — a command or a pass that fails leaves the tree and the mount state
  exactly as they were.
-/

namespace ShadowMount

variable {κ : Type}

/-- The trees that setting frames, one after the other, makes of a tree. -/
abbrev Tree.Reframed (tree after : Tree κ) : Prop :=
  Relation.ReflTransGen (fun a b => ∃ tag frame, Tree.setFrame tag frame a = .ok () b) tree after

/-- An engine that changes the tree by setting frames alone, be it successful or not. -/
def LayoutEngine.FramesOnly (engine : LayoutEngine κ) : Prop :=
  ∀ root tree, Tree.Reframed tree (leaves (engine root) tree)

namespace Ui

variable [Coordinate κ]

/-- The user interfaces that commands and passes can lead to. -/
inductive Reachable : Ui κ → Prop
  /-- A new user interface has no nodes. -/
  | new (managers : Managers) (config : Config) : Reachable (Ui.new managers config)
  /-- A command is performed, be it successful or not. -/
  | perform {ui : Ui κ} (h : Reachable ui) (command : Command κ) :
      Reachable (ui.perform command).2
  /-- A pass is run. -/
  | runPass {ui : Ui κ} (h : Reachable ui) : Reachable ui.runPass.2
  /-- Roots are laid out, and a pass is run. -/
  | layOutAndRunPass {ui : Ui κ} (h : Reachable ui) (engine : LayoutEngine κ)
      (hengine : engine.FramesOnly) : Reachable (ui.layOutAndRunPass engine).2

end Ui

/-- What holds of a scene between commands. -/
structure Scene.Sound (scene : Scene κ) : Prop where
  /-- The tree is consistent: links, flags and roots fit together. -/
  tree : scene.tree.Sound
  /-- The pass that was opened has been closed. -/
  closed : scene.mount.passOpen = false

/-! Steps and touches send through the functions of a mount state, none of which looks at the
switches, the drops or the mark of an open pass. These three are the *fixtures* of a mount state. -/

/-! ## Passes stay closed -/

section Effects

variable [Coordinate κ] {managers : Managers} {registration : Registration} {removals : List Tag}
  {scene done : Scene κ}

/-- A step of a pass keeps what no sending changes. -/
theorem Mount.Step.fixtures (h : Mount.Step scene done) :
    done.mount.fixtures = scene.mount.fixtures := by
  cases h with
  | create => rfl
  | frame frame => exact MountState.fixtures_frameSent ..
  | children => exact MountState.fixtures_childrenSent ..
  | note => rfl

/-- A climb keeps it, too. -/
theorem Mount.Rise.fixtures (h : Mount.Rise scene done) :
    done.mount.fixtures = scene.mount.fixtures := by
  cases h with
  | step h => exact h.fixtures
  | promote => rfl
  | insert => exact MountState.fixtures_childrenSent ..

/-- A touch of a command keeps it, too. -/
theorem Touch.fixtures (h : Touch scene done) : done.mount.fixtures = scene.mount.fixtures := by
  cases h with
  | rise h => exact h.fixtures
  | post => rfl
  | props => exact MountState.fixtures_propsSent ..
  | data => rfl

/-- What no sending changes is the same at the end. -/
theorem Touches.fixtures (h : Touches scene done) : done.mount.fixtures = scene.mount.fixtures := by
  induction h with
  | refl => rfl
  | tail _ htouch ih => exact htouch.fixtures.trans ih

/-- The switches stay. -/
theorem Touches.config (h : Touches scene done) : done.mount.config = scene.mount.config :=
  (congrArg (·.1) (Touches.fixtures h) :)

/-- No drop is scheduled by sending. -/
theorem Touches.drops (h : Touches scene done) : done.mount.drops = scene.mount.drops :=
  (congrArg (·.2.1) (Touches.fixtures h) :)

/-- No command opens a pass or closes one. -/
theorem Effect.passOpen (h : Effect managers registration removals scene done) :
    done.mount.passOpen = scene.mount.passOpen := by
  cases h with
  | addRoot => rfl
  | create => rfl
  | trim => exact MountState.passOpen_scheduledAll ..
  | active h => exact congrArg (·.2.2) (Touches.fixtures h.touches)

/-! ## Sound trees

The invariants of trees, through touches and effects. -/

/-- A touch keeps a tree sound: it grows by flags and views alone, or gets other data. -/
theorem Touch.sound (h : Touch scene done) (hsound : scene.tree.Sound) : done.tree.Sound := by
  cases h with
  | rise h => exact hsound.kept h.kept
  | post => exact hsound
  | props => exact hsound
  | data hget frame props => exact hsound.update hget frame props

/-- Touches keep a tree sound. -/
theorem Touches.sound (h : Touches scene done) (hsound : scene.tree.Sound) : done.tree.Sound := by
  induction h with
  | refl => exact hsound
  | tail _ htouch ih => exact htouch.sound ih

/-- Every command keeps a tree sound. -/
theorem Effect.sound (h : Effect managers registration removals scene done)
    (hsound : scene.tree.Sound) : done.tree.Sound := by
  cases h with
  | addRoot hfree => exact hsound.withRootNode hfree
  | create hfresh _ hfree => exact hsound.register hfresh hfree
  | trim htrimmed => exact htrimmed.sound
  | active h => exact Touches.sound h.touches hsound

end Effects

/-! ## Layout

An engine sets frames, root after root. Frames are data of nodes, so this is a run of touches that
sends nothing. -/

section Layout

variable [Coordinate κ]

omit [Coordinate κ] in
/-- Setting a frame succeeds for a node only, and changes its frame alone. -/
theorem Tree.store_of_setFrame {tree after : Tree κ} {tag : Tag} {frame : Frame κ}
    (h : Tree.setFrame tag frame tree = .ok () after) :
    ∃ node, tree.get? tag = some node ∧ after = tree.store tag { node with frame } := by
  rw [Tree.setFrame, TreeM.update_apply] at h
  split at h
  · next node hget =>
    cases h
    exact ⟨node, hget, rfl⟩
  · cases h

/-- Setting frames is touching. -/
theorem Tree.Reframed.touches {tree after : Tree κ} (h : tree.Reframed after) (mount : MountState κ)
    (log : List Log.Line) : Touches ⟨tree, mount, log⟩ ⟨after, mount, log⟩ := by
  induction h with
  | refl => exact .refl
  | tail _ hstep ih =>
    obtain ⟨tag, frame, hset⟩ := hstep
    obtain ⟨node, hget, rfl⟩ := Tree.store_of_setFrame hset
    exact ih.tail (.data hget frame node.props)

omit [Coordinate κ] in
/-- Laying out roots sets frames, up to a failure or to the end. -/
theorem Ui.layOut_reframed {engine : LayoutEngine κ} (hengine : engine.FramesOnly) :
    ∀ (roots : List Tag) (tree : Tree κ), tree.Reframed (layOut engine roots tree).2.2
  | [], _ => .refl
  | root :: rest, tree => by
    -- the engine may have set frames before it failed, so what is asked of it covers both ends
    have hfirst := hengine root tree
    unfold layOut
    cases hrun : engine root tree with
    | error err after =>
      rw [leaves_of_error hrun] at hfirst
      exact hfirst
    | ok answer after =>
      rw [leaves_of_ok hrun] at hfirst
      exact hfirst.trans (layOut_reframed hengine rest after)

end Layout

/-! ## Passes

Passes of sound user interfaces succeed. Reachable ones are sound, so this is used for all of them.
-/

namespace Ui

variable [Coordinate κ] {ui : Ui κ}

/-- A pass of a sound user interface succeeds. -/
theorem runPass_sound (hsound : ui.scene.Sound) :
    ∃ refreshed log, Mount.Run
        { ui.scene with mount := { ui.scene.mount with passOpen := true } } refreshed ∧
      (∀ root ∈ ui.scene.tree.roots, Mount.Settled refreshed root) ∧
      ui.runPass = ({
          result := .ok refreshed.mount.closePass.1.count
          flush := some refreshed.mount.closePass.1 },
        { ui with scene := ⟨refreshed.tree, refreshed.mount.closePass.2, log⟩ }) := by
  obtain ⟨done, hrun, hsettled, hpass⟩ :=
    Mount.runPass_ok hsound.tree.wellFormed hsound.tree.flags hsound.closed
  rw [runPass, hsound.tree.consistent, if_neg Bool.false_ne_true, hpass]
  exact ⟨done, _, hrun, hsettled, rfl⟩

/-- A pass keeps a user interface sound. -/
theorem runPass_keeps_sound (hsound : ui.scene.Sound) : ui.runPass.2.scene.Sound := by
  obtain ⟨refreshed, log, hrun, -, hpass⟩ := runPass_sound hsound
  rw [hpass]
  have hkept := (Mount.Run.grown hrun).kept
  exact ⟨hsound.tree.kept hkept, rfl⟩

/-! ## Reachable user interfaces

The induction over commands and passes. A command has an effect or fails without one; a pass has the
steps of a refresh; laying out sets frames first. -/

/-- A command of a sound user interface fails and changes nothing but the log, or has an effect. -/
theorem perform_cases (hsound : ui.scene.Sound) (command : Command κ) :
    (∃ err log, ui.perform command = (.error err, { ui with scene := { ui.scene with log } })) ∨
    ∃ done, ui.perform command = (.ok (), { ui with scene := done }) ∧
      Effect ui.managers command.registration (command.removals ui.scene.tree) ui.scene done := by
  rcases command.run_cases ui.managers hsound.tree with ⟨err, log, herr⟩ | ⟨done, hok, heffect⟩
  · exact .inl ⟨err, log, by rw [perform, herr]⟩
  · exact .inr ⟨done, by rw [perform, hok], heffect⟩

/-- A command that succeeds has its effect. -/
theorem effect_of_ok (hsound : ui.scene.Sound) {command : Command κ}
    (hok : (ui.perform command).1 = .ok ()) :
    ∃ done, ui.perform command = (.ok (), { ui with scene := done }) ∧
      Effect ui.managers command.registration (command.removals ui.scene.tree) ui.scene done := by
  rcases perform_cases hsound command with ⟨err, log, herr⟩ | hdone
  · rw [herr] at hok
    cases hok
  · exact hdone

/-- A command that fails is without effect. -/
theorem unchanged_of_error (hsound : ui.scene.Sound) {command : Command κ} {err : UiError}
    (hfailed : (ui.perform command).1 = .error err) :
    ∃ log, ui.perform command = (.error err, { ui with scene := { ui.scene with log } }) := by
  rcases perform_cases hsound command with ⟨err', log, herr⟩ | ⟨done, hdone, -⟩
  · rw [herr] at hfailed
    cases hfailed
    exact ⟨log, herr⟩
  · rw [hdone] at hfailed
    cases hfailed

/-- A command keeps a user interface sound, be it successful or not. -/
theorem perform_keeps_sound (hsound : ui.scene.Sound) (command : Command κ) :
    (ui.perform command).2.scene.Sound := by
  rcases perform_cases hsound command with ⟨err, log, herr⟩ | ⟨done, hok, heffect⟩
  · rw [herr]
    exact ⟨hsound.tree, hsound.closed⟩
  · rw [hok]
    exact ⟨heffect.sound hsound.tree, heffect.passOpen.trans hsound.closed⟩

/-- The frames are set, and then a pass is run unless the engine failed. -/
theorem layOutAndRunPass_eq (hsound : ui.scene.Sound) (engine : LayoutEngine κ) :
    ui.layOutAndRunPass engine =
      let (laidOut, result, tree) := layOut engine ui.scene.tree.roots ui.scene.tree
      let framed := { ui with scene := { ui.scene with tree } }
      match result with
      | .error err => ({ result := .error err, laidOut }, framed)
      | .ok _ => ({ framed.runPass.1 with laidOut }, framed.runPass.2) := by
  unfold layOutAndRunPass
  exact if_neg (by rw [hsound.tree.consistent]; exact Bool.false_ne_true)

/-- Laying out keeps a user interface sound, also when the engine fails. -/
theorem layOut_keeps_sound (hsound : ui.scene.Sound) {engine : LayoutEngine κ}
    (hengine : engine.FramesOnly) : Scene.Sound { ui.scene with
      tree := (layOut engine ui.scene.tree.roots ui.scene.tree).2.2 } := by
  have htouches := (layOut_reframed hengine ui.scene.tree.roots ui.scene.tree).touches
    ui.scene.mount ui.scene.log
  exact ⟨Touches.sound htouches hsound.tree, hsound.closed⟩

/-- A pass after laying out keeps a user interface sound. -/
theorem layOutAndRunPass_keeps_sound (hsound : ui.scene.Sound) {engine : LayoutEngine κ}
    (hengine : engine.FramesOnly) : (ui.layOutAndRunPass engine).2.scene.Sound := by
  have hframed := layOut_keeps_sound hsound hengine
  rw [layOutAndRunPass_eq hsound]
  generalize layOut engine ui.scene.tree.roots ui.scene.tree = answer at hframed
  obtain ⟨laidOut, result, tree⟩ := answer
  cases result with
  | error err => exact hframed
  | ok _ => exact @runPass_keeps_sound _ _ { ui with scene := { ui.scene with tree } } hframed

/-- Every reachable user interface is sound. -/
theorem Reachable.sound (h : ui.Reachable) : ui.scene.Sound := by
  induction h with
  | new managers config => exact ⟨.empty, rfl⟩
  | perform _ command ih => exact perform_keeps_sound ih command
  | runPass _ ih => exact runPass_keeps_sound ih
  | layOutAndRunPass _ engine hengine ih => exact layOutAndRunPass_keeps_sound ih hengine

/-- What effects and touches keep of a sound tree holds of every reachable one. -/
theorem Reachable.invariant {P : Managers → Tree κ → Prop} (hnew : ∀ managers, P managers .empty)
    (heffect : ∀ {managers registration removals} {scene done : Scene κ},
      Effect managers registration removals scene done → scene.tree.Sound → P managers scene.tree →
        P managers done.tree)
    (htouches : ∀ {managers} {scene done : Scene κ}, Touches scene done → P managers scene.tree →
      P managers done.tree) (h : ui.Reachable) : P ui.managers ui.scene.tree := by
  -- both kinds of pass come down to a pass of a sound user interface
  have hpass : ∀ {ui : Ui κ}, ui.scene.Sound → P ui.managers ui.scene.tree →
      P ui.runPass.2.managers ui.runPass.2.scene.tree := by
    intro ui hsound hP
    obtain ⟨refreshed, log, hrun, -, hpass⟩ := runPass_sound hsound
    have hrefreshed : P ui.managers refreshed.tree :=
      htouches (Touches.ofProgress (Mount.Run.progress hrun)) hP
    rw [hpass]
    exact hrefreshed
  induction h with
  | new managers config => exact hnew managers
  | @perform ui h command ih =>
    rcases perform_cases h.sound command with ⟨err, log, herr⟩ | ⟨done, hok, hdone⟩
    · rw [herr]
      exact ih
    · rw [hok]
      exact heffect hdone h.sound.tree ih
  | runPass h ih => exact hpass h.sound ih
  | @layOutAndRunPass ui h engine hengine ih =>
    -- frames are set first, and what touches keep holds when the pass starts
    have hframed := layOut_keeps_sound h.sound hengine
    have hreframed := (layOut_reframed hengine ui.scene.tree.roots ui.scene.tree).touches
      ui.scene.mount ui.scene.log
    rw [layOutAndRunPass_eq h.sound]
    generalize layOut engine ui.scene.tree.roots ui.scene.tree = answer at hframed hreframed
    obtain ⟨laidOut, result, tree⟩ := answer
    have htree : P ui.managers tree := htouches hreframed ih
    cases result with
    | error err => exact htree
    | ok _ => exact @hpass { ui with scene := { ui.scene with tree } } hframed htree

/-- Commands one after the other. -/
def performAll (ui : Ui κ) (commands : List (Command κ)) : Ui κ :=
  commands.foldl (fun ui command => (ui.perform command).2) ui

/-- Commands lead to reachable user interfaces. -/
theorem Reachable.performAll {ui : Ui κ} (h : ui.Reachable) (commands : List (Command κ)) :
    (ui.performAll commands).Reachable := by
  induction commands generalizing ui with
  | nil => exact h
  | cons command rest ih => exact ih (.perform h command)

/-- A command that fails, or a pass that fails, leaves the tree and the mount state exactly as they
were: nodes, links, flags, properties, roots and the mark of a broken tree, and the queue, what was
sent, the frame changes, the drops and the mark of an open pass. -/
theorem perform_error_unchanged (h : ui.Reachable) {err : UiError} :
    (∀ {command : Command κ} {after : Ui κ}, ui.perform command = (.error err, after) →
      after.scene.tree = ui.scene.tree ∧ after.scene.mount = ui.scene.mount) ∧
    (ui.runPass.1.result = .error err →
      ui.runPass.2.scene.tree = ui.scene.tree ∧ ui.runPass.2.scene.mount = ui.scene.mount) := by
  constructor
  · intro command after hfailed
    rcases perform_cases h.sound command with ⟨err', log, herr⟩ | ⟨done, hok, -⟩
    · rw [herr] at hfailed
      cases hfailed
      exact ⟨rfl, rfl⟩
    · rw [hok] at hfailed
      cases hfailed
  · intro hfailed
    -- a pass of a reachable user interface does not fail
    obtain ⟨refreshed, log, -, -, hpass⟩ := runPass_sound h.sound
    rw [hpass] at hfailed
    cases hfailed

/-- A scroller with a plain node inside, both not yet below the root. -/
def looseScroller : Ui Float32 :=
  (Ui.new Managers.builtins {}).performAll [.addRoot 1 0 0, .create 2 "ScrollView" 1 .empty,
    .create 3 "View" 1 .empty, .prependChildren 2 [3]]

/-- The plain node is promoted, the scroller finds no view above it, and the promotion is taken
back. -/
theorem perform_error_unchanged_looseScroller :
    ∃ err after, looseScroller.perform (.sendCommand 3 0 []) = (.error err, after) ∧
      after.scene.tree = looseScroller.scene.tree ∧
      after.scene.mount = looseScroller.scene.mount := by
  have hreachable : looseScroller.Reachable := Reachable.performAll (.new ..) _
  have hfails : (match (looseScroller.perform (.sendCommand 3 0 [])).1 with
      | .ok _ => false
      | .error _ => true) = true := by decide +kernel
  cases hrun : looseScroller.perform (.sendCommand 3 0 []) with
  | mk result after =>
    cases result with
    | ok _ =>
      rw [hrun] at hfails
      cases hfails
    | error err => exact ⟨err, after, rfl, (perform_error_unchanged hreachable).1 hrun⟩

end Ui

end ShadowMount
