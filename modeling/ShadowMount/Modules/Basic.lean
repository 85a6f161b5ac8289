/-!
# Native modules

A native module is a service that lives as long as an instance. It is told when the instance
starts and stops, and, if it asks for it, when a batch is complete. Starting and stopping may fail.

A module is a value: each hook answers the module as it is afterwards. Beside their own state
modules may share some, with each other and with their host, so a hook also gets the shared state
as the hooks before it left it, and answers what it makes of it. The order in which hooks run
shows in the shared state.
-/

namespace ShadowMount

/-- The hooks of a kind of module, whose modules share a state of type `σ`. -/
class NativeModule (σ : outParam Type) (μ : Type) where
  /-- The name under which a module is reported. -/
  name : μ → String
  /-- Runs once when the instance is up. -/
  start : μ → σ → Except String Unit × μ × σ := fun member shared => (.ok (), member, shared)
  /-- Runs once before the instance goes away. -/
  stop : μ → σ → Except String Unit × μ × σ := fun member shared => (.ok (), member, shared)
  /-- Whether the module wants to hear about every complete batch. -/
  hearsBatches : μ → Bool := fun _ => false
  /-- Runs after every batch, for modules that want it. -/
  batchDone : μ → σ → μ × σ := fun member shared => (member, shared)

/-- A module described entirely by its answers, which counts the batches it hears about. Plain
modules share a journal, in which their hooks write that they run. -/
structure PlainModule where
  name : String
  /-- Why starting fails, if it does. -/
  startFailure : Option String := none
  /-- Why stopping fails, if it does. -/
  stopFailure : Option String := none
  hearsBatches : Bool := false
  /-- The number of batches heard about. -/
  batches : Nat := 0
  /-- Whether the module writes in the journal. -/
  journals : Bool := true
  deriving DecidableEq, Inhabited

namespace PlainModule

/-- Writes in the journal that a hook runs. -/
def note (member : PlainModule) (event : String) (journal : List String) : List String :=
  if member.journals then journal ++ [s!"{event}:{member.name}"] else journal

/-- Fails for the given reason, if there is one. -/
def failWith : Option String → Except String Unit
  | some reason => .error reason
  | none => .ok ()

end PlainModule

instance : NativeModule (List String) PlainModule where
  name := PlainModule.name
  start member journal :=
    (PlainModule.failWith member.startFailure, member, member.note "init" journal)
  stop member journal :=
    (PlainModule.failWith member.stopFailure, member, member.note "destroy" journal)
  hearsBatches := PlainModule.hearsBatches
  batchDone member journal :=
    ({ member with batches := member.batches + 1 }, member.note "batch" journal)

end ShadowMount
