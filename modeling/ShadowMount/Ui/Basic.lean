import ShadowMount.Mount.Pass
import ShadowMount.Tree.Action
import ShadowMount.Ui.Command

/-!
# The user interface

View classes and a scene. Commands change the scene; a hierarchy pass brings the native side up
to date, after a layout engine has computed the frames if one is given.
-/

namespace ShadowMount

/-- The user interface of a host. -/
structure Ui (κ : Type) where
  managers : Managers := .empty
  scene : Scene κ := {}

namespace Ui

variable {κ : Type}

instance : Inhabited (Ui κ) := ⟨{}⟩

/-- A user interface without nodes. -/
def new (managers : Managers) (config : Config) : Ui κ :=
  { managers, scene := { mount := { config } } }

variable [Coordinate κ]

/-- Carries out a command. -/
def perform (ui : Ui κ) (command : Command κ) : Except UiError Unit × Ui κ :=
  match command.run ui.managers ui.scene with
  | .ok _ scene => (.ok (), { ui with scene })
  | .error err scene => (.error err, { ui with scene })

/-- Runs a pass over all roots. A poisoned tree is refused. -/
def runPass (ui : Ui κ) : PassReport κ × Ui κ :=
  if ui.scene.tree.poisoned then ({ result := .error .treePoisoned }, ui)
  else
    let (report, scene) := Mount.runPass ui.scene
    match report.flush with
    | none => (report, { ui with scene })
    | some flush =>
      let line := ⟨.debug, s!"hierarchy pass flushed {flush.count} operations"⟩
      (report, { ui with scene := { scene with log := scene.log ++ [line] } })

/-- Lays out the given roots in order, up to the first failure. Answers the roots that were laid
out, a failing one included, and the failure. -/
def layOut (engine : LayoutEngine κ) :
    List Tag → Tree κ → List Tag × Except UiError Unit × Tree κ
  | [], tree => ([], .ok (), tree)
  | root :: rest, tree =>
    match engine root tree with
    | .error err tree => ([root], .error err, tree)
    | .ok _ tree =>
      let (laidOut, result, tree) := layOut engine rest tree
      (root :: laidOut, result, tree)

/-- Lays out every root, then runs a pass. A failure of the engine leaves the pass out. -/
def layOutAndRunPass (ui : Ui κ) (engine : LayoutEngine κ) : PassReport κ × Ui κ :=
  if ui.scene.tree.poisoned then ({ result := .error .treePoisoned }, ui)
  else
    let (laidOut, result, tree) := layOut engine ui.scene.tree.roots ui.scene.tree
    let ui := { ui with scene := { ui.scene with tree } }
    match result with
    | .error err => ({ result := .error err, laidOut }, ui)
    | .ok _ =>
      let (report, ui) := ui.runPass
      ({ report with laidOut }, ui)

end Ui

end ShadowMount
