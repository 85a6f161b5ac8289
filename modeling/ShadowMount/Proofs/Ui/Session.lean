import ShadowMount.Proofs.Native.Flush

/-!
# Sessions with a native side

A session is a run of commands and passes whose flushes all go to one native hierarchy, which starts
with the platform's root views. The platform's roots are registered once each and only as roots, and
no tag is registered while it waits for its drop. Everything else is free: commands may fail,
engines may fail, and views may be destroyed before they were ever flushed.

* **`Session.inStep`** — the native side stays in step.
* **`Session.pass_faithful`** — every pass succeeds and leaves a hierarchy without violations that
  shows exactly the views of the tree, linked as in the tree.
-/

namespace ShadowMount

open Native

variable {κ : Type} {platform past : List Tag} {native : Hierarchy κ}

/-- The native side after a pass: what was flushed is delivered. -/
def Native.Hierarchy.absorb (h : Hierarchy κ) (report : PassReport κ) : Hierarchy κ :=
  match report.flush with
  | none => h
  | some flush => flush.deliveries.foldl receive h

variable [Coordinate κ] {ui : Ui κ}

/-- A run of commands and passes with the native side that it flushes to. The roots registered so
far are `past`. -/
inductive Session (platform : List Tag) : List Tag → Ui κ → Hierarchy κ → Prop
  | start (managers : Managers) (config : Config) :
      Session platform [] (Ui.new managers config) (.withRoots platform)
  | perform {past : List Tag} {ui : Ui κ} {native : Hierarchy κ} (h : Session platform past ui native)
      (command : Command κ) (hok : (ui.perform command).1 = .ok ())
      (hallowed : command.registration.Allowed platform past ui.scene.mount.dropTags) :
      Session platform (command.registration.extend past) (ui.perform command).2 native
  | refuse {past : List Tag} {ui : Ui κ} {native : Hierarchy κ} (h : Session platform past ui native)
      (command : Command κ) {err : UiError} (herr : (ui.perform command).1 = .error err) :
      Session platform past (ui.perform command).2 native
  | runPass {past : List Tag} {ui : Ui κ} {native : Hierarchy κ}
      (h : Session platform past ui native) :
      Session platform past ui.runPass.2 (native.absorb ui.runPass.1)
  | layOutAndRunPass {past : List Tag} {ui : Ui κ} {native : Hierarchy κ}
      (h : Session platform past ui native) (engine : LayoutEngine κ)
      (hengine : engine.FramesOnly) :
      Session platform past (ui.layOutAndRunPass engine).2
        (native.absorb (ui.layOutAndRunPass engine).1)

/-! ## Passes

A pass settles every root, and its flush leaves a faithful hierarchy. A failing engine leaves frames
behind, which no view depends on before the next pass. -/

/-- A pass keeps the native side in step and settles every root, so that it is faithful. -/
theorem Ui.runPass_faithful (hsound : ui.scene.Sound)
    (hstep : InStep platform past ui.scene native) :
    (∃ count, ui.runPass.1.result = .ok count) ∧
      InStep platform past ui.runPass.2.scene (native.absorb ui.runPass.1) ∧
      Faithful platform past ui.runPass.2.scene.tree (native.absorb ui.runPass.1) := by
  obtain ⟨refreshed, log, hrun, hsettled, hpass⟩ := runPass_sound hsound
  have hopened : InStep platform past
      { ui.scene with mount := { ui.scene.mount with passOpen := true } } native :=
    ⟨⟨hstep.sound, hstep.anchored, hstep.mirror.steady (.refl _) (fun _ => rfl) rfl (fun _ => rfl)
      (.inl rfl) fun _ _ hnative => hnative⟩, hstep.free⟩
  have hrefreshed := Touches.inStep (Touches.ofProgress (Mount.Run.progress hrun)) hopened
  have hroots : refreshed.tree.roots = ui.scene.tree.roots := (Mount.Run.grown hrun).roots
  rw [← hroots] at hsettled
  have hflushed := hrefreshed.flush hsettled log
  rw [hpass]
  exact ⟨⟨_, rfl⟩, hflushed, hflushed.faithful rfl rfl hsettled⟩

/-- The same for a pass after a layout, unless the engine fails. -/
theorem Ui.layOutAndRunPass_faithful (hsound : ui.scene.Sound)
    (hstep : InStep platform past ui.scene native) {engine : LayoutEngine κ}
    (hengine : engine.FramesOnly) :
    InStep platform past (ui.layOutAndRunPass engine).2.scene
      (native.absorb (ui.layOutAndRunPass engine).1) ∧
    ((layOut engine ui.scene.tree.roots ui.scene.tree).2.1 = .ok () →
      (∃ count, (ui.layOutAndRunPass engine).1.result = .ok count) ∧
      Faithful platform past (ui.layOutAndRunPass engine).2.scene.tree
        (native.absorb (ui.layOutAndRunPass engine).1)) := by
  have hframed := layOut_keeps_sound hsound hengine
  have htouches := (layOut_reframed hengine ui.scene.tree.roots ui.scene.tree).touches
    ui.scene.mount ui.scene.log
  have hlaid := Touches.inStep htouches hstep
  rw [layOutAndRunPass_eq hsound]
  generalize layOut engine ui.scene.tree.roots ui.scene.tree = answer at hframed hlaid
  obtain ⟨laidOut, result, tree⟩ := answer
  cases result with
  | error err =>
    -- the frames written so far stay, and no pass is run
    exact ⟨hlaid, nofun⟩
  | ok _ =>
    obtain ⟨hresult, hpassed, hfaithful⟩ :=
      @runPass_faithful _ _ _ _ _ { ui with scene := { ui.scene with tree } } hframed hlaid
    exact ⟨hpassed, fun _ => ⟨hresult, hfaithful⟩⟩

/-! ## Sessions

The native side receives every flush and nothing else. By induction on the session it is in step
before each request. -/

/-- In a session the scene is sound between commands and the native side is in step. -/
theorem Session.inStep (h : Session platform past ui native) :
    ui.scene.Sound ∧ InStep platform past ui.scene native := by
  induction h with
  | start managers config => exact ⟨⟨.empty, rfl⟩, ⟨.empty, .empty, .start platform config []⟩, nofun⟩
  | @perform past ui native h command hok hallowed ih =>
    obtain ⟨hsound, hstep⟩ := ih
    refine ⟨Ui.perform_keeps_sound hsound command, ?_⟩
    obtain ⟨done, hdone, heffect⟩ := Ui.effect_of_ok hsound hok
    rw [hdone]
    exact heffect.inStep hstep hallowed
  | @refuse past ui native h command err hrefused ih =>
    obtain ⟨hsound, hstep⟩ := ih
    refine ⟨Ui.perform_keeps_sound hsound command, ?_⟩
    -- a refused command adds to the log alone
    obtain ⟨log, herr⟩ := Ui.unchanged_of_error hsound hrefused
    rw [herr]
    exact Touches.inStep (Touches.note log) hstep
  | runPass h ih =>
    exact ⟨Ui.runPass_keeps_sound ih.1, (Ui.runPass_faithful ih.1 ih.2).2.1⟩
  | layOutAndRunPass h engine hengine ih =>
    exact ⟨Ui.layOutAndRunPass_keeps_sound ih.1 hengine,
      (Ui.layOutAndRunPass_faithful ih.1 ih.2 hengine).1⟩

/-- At every moment of a session the native side is without violations, and the next pass succeeds
and leaves it without any. After the pass a native view exists exactly for the nodes that have one
and for the roots to come, every attached node that mounts has a view, and the native child lists
and parents are those of the tree. So does a pass after a layout that succeeds. -/
theorem Session.pass_faithful (h : Session platform past ui native) :
    native.violations = [] ∧
    (∃ count, ui.runPass.1.result = .ok count) ∧
    Faithful platform past ui.runPass.2.scene.tree (native.absorb ui.runPass.1) ∧
    ∀ {engine : LayoutEngine κ}, engine.FramesOnly →
      (Ui.layOut engine ui.scene.tree.roots ui.scene.tree).2.1 = .ok () →
        (∃ count, (ui.layOutAndRunPass engine).1.result = .ok count) ∧
        Faithful platform past (ui.layOutAndRunPass engine).2.scene.tree
          (native.absorb (ui.layOutAndRunPass engine).1) := by
  obtain ⟨hsound, hstep⟩ := h.inStep
  obtain ⟨hresult, -, hfaithful⟩ := Ui.runPass_faithful hsound hstep
  refine ⟨hstep.mirror.consistent, hresult, hfaithful, fun hengine hlaid => ?_⟩
  exact (Ui.layOutAndRunPass_faithful hsound hstep hengine).2 hlaid

/-- A scroller below the only root. -/
def scrollerUi : Ui Float32 :=
  (Ui.new Managers.builtins { pruneDrops := true }).performAll
    [.addRoot 1 0 0, .create 2 "ScrollView" 1 .empty, .prependChildren 1 [2]]

/-- The first pass gives the scroller its native view. -/
theorem Session.pass_faithful_scroller : Session [1] [1] scrollerUi (.withRoots [1]) ∧
    ((Hierarchy.withRoots [1]).absorb scrollerUi.runPass.1).hasView 2 = true := by
  have hrooted : Session [1] [1] _ (Hierarchy.withRoots [1] : Hierarchy Float32) :=
    .perform (.start Managers.builtins { pruneDrops := true }) (.addRoot 1 0 0) (by decide +kernel)
      ⟨by decide, by decide, by decide +kernel⟩
  have hcreated := Session.perform hrooted (.create 2 "ScrollView" 1 .empty) (by decide +kernel)
    ⟨by decide, by decide +kernel⟩
  have hsession : Session [1] [1] scrollerUi (.withRoots [1]) :=
    .perform hcreated (.prependChildren 1 [2]) (by decide +kernel) trivial
  refine ⟨hsession, ?_⟩
  have hview : scrollerUi.runPass.2.scene.tree.createdAt 2 = true := by decide +kernel
  exact (hsession.pass_faithful.2.2.1.views 2).mpr (.inl hview)

end ShadowMount
