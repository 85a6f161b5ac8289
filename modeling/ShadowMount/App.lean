import ShadowMount.Modules.Registry
import ShadowMount.Ui.Basic

/-!
# Running instances

A running instance is a user interface together with the native modules that live as long as it
does. Completing a batch runs a pass and then tells the modules, also when the pass failed. The
modules hear of it while the instance lives, between its start and its stop.
-/

namespace ShadowMount

/-- A user interface with its native modules. -/
structure App (κ σ ι μ : Type) where
  ui : Ui κ := {}
  modules : Registry σ ι μ

namespace App

variable {κ σ ι μ : Type}

instance [Inhabited σ] : Inhabited (App κ σ ι μ) := ⟨{ modules := default }⟩

/-- Logs a line with those of the scene. -/
def say (app : App κ σ ι μ) (level : Log.Level) (message : String) : App κ σ ι μ :=
  let scene := app.ui.scene
  let scene := { scene with log := scene.log ++ [⟨level, message⟩] }
  { app with ui := { app.ui with scene } }

variable [NativeModule σ μ] [DecidableEq ι]

/-- Starts the modules. -/
def start (app : App κ σ ι μ) : Except (ModuleError ι) Unit × App κ σ ι μ :=
  let noted := app.say .debug s!"initializing instance with {app.modules.modules.size} modules"
  let (result, modules) := noted.modules.start
  (result, { noted with modules })

/-- Stops the modules. -/
def stop (app : App κ σ ι μ) : Except (ModuleError ι) Unit × App κ σ ι μ :=
  let noted := app.say .debug "destroying instance"
  let (result, modules) := noted.modules.stop
  (result, { noted with modules })

/-- Completes a batch of commands: lays out, runs a pass, then tells the modules, however the pass
ended. -/
def completeBatch [Coordinate κ] (app : App κ σ ι μ) (engine : LayoutEngine κ) :
    PassReport κ × App κ σ ι μ :=
  let (report, ui) := app.ui.layOutAndRunPass engine
  let passed := { app with ui }
  let noted := match report.result with
    | .error err => passed.say .error s!"hierarchy pass failed: {err.message}"
    | .ok _ => passed
  (report, { noted with modules := noted.modules.tellBatch })

end App

end ShadowMount
