import ShadowMount.Log
import ShadowMount.Modules.Basic
import ShadowMount.OrderedMap
import ShadowMount.Text

/-!
# The module registry

Modules are keyed by what they are, one of each, and every sweep over them goes in the order of
their registration. The registry moves through the life of the instance: modules are registered
before it starts, started once, told about batches while it lives, and stopped once. A sweep runs
the hooks one after the other, each on what those before it left of the shared state. It reaches
every module, whatever fails on the way, and reports the failures together.

The registry keeps what the modules share, and the lines it logged, oldest first.
-/

namespace ShadowMount

/-- Where the registry is in the life of the instance. -/
inductive Stage where
  | registered
  | initialized
  | destroyed
  deriving DecidableEq, Inhabited

/-- The name of a stage. -/
def Stage.name : Stage → String
  | registered => "Registered"
  | initialized => "Initialized"
  | destroyed => "Destroyed"

/-- A sweep that may fail. -/
inductive Phase where
  | start
  | stop
  deriving DecidableEq, Inhabited

/-- The name of a phase. -/
def Phase.name : Phase → String
  | start => "initialize"
  | stop => "destroy"

/-- A module that failed in a sweep. -/
structure HookFailure where
  name : String
  reason : String
  deriving DecidableEq, Inhabited

/-- Why a request to the registry failed. -/
inductive ModuleError (ι : Type) where
  /-- A module of this kind is registered already. -/
  | duplicate (name : String)
  /-- The instance has started or stopped. -/
  | late (name : String)
  /-- No module of this kind is registered. -/
  | unknown (key : ι)
  /-- Modules failed in a sweep. -/
  | hooksFailed (phase : Phase) (failures : List HookFailure)
  deriving DecidableEq

/-- The wording of an error, with `describe` to name a kind of module. -/
def ModuleError.message {ι : Type} (describe : ι → String) : ModuleError ι → String
  | duplicate name => s!"module {name} registered twice"
  | late name => s!"module {name} registered after the instance was initialized"
  | unknown key => s!"module {describe key} is not registered"
  | hooksFailed phase failures =>
    s!"{failures.length} module(s) failed to {phase.name}: " ++
      ", ".intercalate (failures.map fun failure => s!"{failure.name} ({failure.reason})")

/-- The modules of an instance. -/
structure Registry (σ ι μ : Type) where
  /-- The modules, in the order of their registration. -/
  modules : OrderedMap ι μ := .empty
  /-- The modules that wanted to hear about batches when they were registered. -/
  listeners : List ι := []
  stage : Stage := .registered
  /-- What the modules share. -/
  shared : σ
  /-- The lines logged so far, oldest first. -/
  log : List Log.Line := []

namespace Registry

variable {σ ι μ : Type}

instance [Inhabited σ] : Inhabited (Registry σ ι μ) := ⟨{ shared := default }⟩

/-- Logs a line. -/
def say (registry : Registry σ ι μ) (level : Log.Level) (message : String) : Registry σ ι μ :=
  { registry with log := registry.log ++ [⟨level, message⟩] }

variable [NativeModule σ μ]

/-- The names of the modules, in the order of their registration. -/
def names (registry : Registry σ ι μ) : List String :=
  registry.modules.values.map NativeModule.name

/-- A picture of the registry. -/
def describe (registry : Registry σ ι μ) : String :=
  let names := Text.bracketed (registry.names.map Text.quoted)
  s!"NativeModuleRegistry \x7b modules: {names}, state: {registry.stage.name} \x7d"

variable [DecidableEq ι]

/-! ## Sweeps -/

/-- Runs the hook of a phase on a module, which is kept as the hook leaves it. A failure is logged
and joins those before it. -/
def runHook (phase : Phase) (run : List HookFailure × Registry σ ι μ) (entry : ι × μ) :
    List HookFailure × Registry σ ι μ :=
  let (failures, registry) := run
  let (outcome, member, shared) := match phase with
    | .start => NativeModule.start entry.2 registry.shared
    | .stop => NativeModule.stop entry.2 registry.shared
  let after := { registry with modules := registry.modules.put entry.1 member, shared }
  match outcome with
  | .ok _ => (failures, after)
  | .error reason =>
    let name := NativeModule.name member
    (failures ++ [⟨name, reason⟩],
      after.say .warn s!"native module {name} failed to {phase.name}: {reason}")

/-- Runs the hook of a phase on every module. The failures are reported together. -/
def sweep (registry : Registry σ ι μ) (phase : Phase) :
    Except (ModuleError ι) Unit × Registry σ ι μ :=
  let (failures, swept) := registry.modules.entries.foldl (runHook phase) ([], registry)
  (if failures.isEmpty then .ok () else .error (.hooksFailed phase failures), swept)

/-- Tells a listener that a batch is complete. -/
def hearBatch (registry : Registry σ ι μ) (key : ι) : Registry σ ι μ :=
  match registry.modules.get? key with
  | some member =>
    let (member, shared) := NativeModule.batchDone member registry.shared
    { registry with modules := registry.modules.put key member, shared }
  | none => registry

/-! ## Life of an instance -/

/-- Registers a module, before the instance starts. -/
def register (registry : Registry σ ι μ) (key : ι) (member : μ) :
    Except (ModuleError ι) Unit × Registry σ ι μ :=
  let name := NativeModule.name member
  if registry.stage ≠ .registered then (.error (.late name), registry)
  else if registry.modules.contains key then (.error (.duplicate name), registry)
  else
    let listeners :=
      if NativeModule.hearsBatches member then registry.listeners ++ [key]
      else registry.listeners
    let added := { registry with listeners, modules := registry.modules.put key member }
    (.ok (), added.say .debug s!"registered native module {name}")

/-- Starts every module, once. -/
def start (registry : Registry σ ι μ) : Except (ModuleError ι) Unit × Registry σ ι μ :=
  if registry.stage ≠ .registered then
    (.ok (), registry.say .warn s!"instance initialized twice, ignoring ({registry.stage.name})")
  else { registry with stage := .initialized }.sweep .start

/-- Stops every module, once. An instance that never started may be stopped. -/
def stop (registry : Registry σ ι μ) : Except (ModuleError ι) Unit × Registry σ ι μ :=
  if registry.stage = .destroyed then
    (.ok (), registry.say .warn "instance destroyed twice, ignoring")
  else { registry with stage := .destroyed }.sweep .stop

/-- Tells the listeners that a batch is complete, while the instance lives. -/
def tellBatch (registry : Registry σ ι μ) : Registry σ ι μ :=
  if registry.stage ≠ .initialized then
    registry.say .trace s!"batch complete outside of the live instance ({registry.stage.name})"
  else registry.listeners.foldl hearBatch registry

/-! ## Single modules -/

/-- The module of a kind. -/
def get (registry : Registry σ ι μ) (key : ι) : Except (ModuleError ι) μ :=
  match registry.modules.get? key with
  | some member => .ok member
  | none => .error (.unknown key)

/-- Changes the module of a kind. -/
def modify (registry : Registry σ ι μ) (key : ι) (change : μ → μ) :
    Except (ModuleError ι) Unit × Registry σ ι μ :=
  match registry.modules.get? key with
  | some member =>
    (.ok (), { registry with modules := registry.modules.put key (change member) })
  | none => (.error (.unknown key), registry)

end Registry

end ShadowMount
