import ShadowMount.Log
import ShadowMount.Tree.Edit

/-!
# Mount state

Native views are made lazily. The mount state remembers, for each view, what was last sent, so
that only changes are enqueued. Everything in this folder works on a `Scene`: the tree, its mount
state, and the log lines said on the way.

Operations wait in a queue until the next flush. Drops wait apart from it and are enqueued last,
when the views have been detached from their native parents.
-/

namespace ShadowMount

/-! ## Switches

How dropped views are treated. Both switches are off unless asked for. A setting is text: a switch
is on when its text, without the blanks around it, is anything but empty, `0` or `false`. -/

/-- The switches of the mount core. -/
structure Config where
  /-- Log every dropped view. -/
  logDrops : Bool := false
  /-- Discard queued operations addressed to a view when the view is dropped, creates excepted. -/
  pruneDrops : Bool := false
  deriving DecidableEq, Inhabited

namespace Config

/-- The texts that leave a switch off. -/
def offTexts : List (List Char) := [[], "0".toList, "false".toList]

/-- Whether a setting turns its switch on; an absent one does not. -/
def enabled : Option String → Bool
  | none => false
  | some text => decide (Text.trimBlanks text.toList ∉ offTexts)

/-- The switches given by the texts of their settings. -/
def ofSettings (logDropped prune : Option String) : Config :=
  { logDrops := enabled logDropped, pruneDrops := enabled prune }

end Config

/-! ## State -/

/-- What was last sent for one native view. -/
structure SentState (κ : Type) where
  props : Props := .empty
  /-- The frame, if one was sent. -/
  frame : Option (Frame κ) := none
  /-- The native child list. -/
  children : List Tag := []

/-- A destroyed view whose drop is still to be sent. -/
structure PendingDrop where
  tag : Tag
  /-- Whether the view was that of a root. -/
  isRoot : Bool
  deriving DecidableEq, Inhabited

/-- What is known of the native side, and what waits to be sent there. -/
structure MountState (κ : Type) where
  config : Config := {}
  /-- Operations waiting for the next flush. -/
  queue : OperationQueue κ := []
  /-- What was last sent, by view. -/
  sentStates : Std.ExtTreeMap Tag (SentState κ) := ∅
  /-- Frames sent since the last flush, to be reported after it. -/
  frameChanges : List (Tag × Frame κ) := []
  /-- Views destroyed since the last flush, children before parents. -/
  drops : List PendingDrop := []
  /-- Whether a hierarchy pass is open. -/
  passOpen : Bool := false

namespace MountState

variable {κ : Type}

instance : Inhabited (MountState κ) := ⟨{}⟩

/-- What was last sent for a view; nothing at all for a view that was never heard of. -/
def sent (state : MountState κ) (tag : Tag) : SentState κ := state.sentStates[tag]?.getD {}

/-- Remembers what was sent for a view. -/
def remember (state : MountState κ) (tag : Tag) (sent : SentState κ) : MountState κ :=
  { state with sentStates := state.sentStates.insert tag sent }

/-- Remembering replaces what is known of one view. -/
@[simp] theorem sent_remember (state : MountState κ) (tag other : Tag) (sent : SentState κ) :
    (state.remember tag sent).sent other = if tag = other then sent else state.sent other := by
  by_cases h : tag = other <;>
    simp [remember, MountState.sent, Std.ExtTreeMap.getElem?_insert, h]

/-- Adds an operation to the queue. -/
def enqueue (state : MountState κ) (operation : Operation κ) : MountState κ :=
  { state with queue := state.queue.enqueue operation }

/-- Discards the queued operations addressed to a view, its create excepted. -/
def prune (state : MountState κ) (tag : Tag) : MountState κ :=
  { state with queue := state.queue.prune tag }

/-- Forgets a view and schedules its drop. -/
def forget (state : MountState κ) (tag : Tag) (isRoot : Bool) : MountState κ :=
  { state with
    sentStates := state.sentStates.erase tag
    frameChanges := state.frameChanges.filter (·.1 != tag)
    drops := state.drops ++ [⟨tag, isRoot⟩] }

end MountState

/-- The tree with its mount state. -/
structure Scene (κ : Type) where
  tree : Tree κ := {}
  mount : MountState κ := {}
  /-- The lines logged so far, oldest first. -/
  log : List Log.Line := []

instance {κ : Type} : Inhabited (Scene κ) := ⟨{}⟩

/-- An action on the scene that may fail; a failure keeps what was done before it. -/
abbrev MountM (κ : Type) := EStateM UiError (Scene κ)

namespace MountM

variable {κ α : Type}

/-- Asks the tree; a query changes nothing. -/
def query (ask : Tree κ → Except UiError α) : MountM κ α := fun scene =>
  match ask scene.tree with
  | .ok answer => .ok answer scene
  | .error err => .error err scene

/-- The node with a tag, which has to be there. -/
def node (tag : Tag) : MountM κ (Node κ) := query (·.node tag)

/-- Edits the tree. -/
def onTree (edit : TreeM κ α) : MountM κ α := fun scene =>
  match edit scene.tree with
  | .ok answer tree => .ok answer { scene with tree }
  | .error err tree => .error err { scene with tree }

/-- Changes the mount state. -/
def onMount (change : MountState κ → MountState κ) : MountM κ Unit :=
  modify fun scene => { scene with mount := change scene.mount }

/-- Adds an operation to the queue. -/
def enqueue (operation : Operation κ) : MountM κ Unit := onMount (·.enqueue operation)

/-- Logs a line. -/
def say (level : Log.Level) (message : String) : MountM κ Unit :=
  modify fun scene => { scene with log := scene.log ++ [⟨level, message⟩] }

/-- Runs `action` and, if it fails, `cleanUp` before the failure is passed on. -/
def onFailure (action : MountM κ α) (cleanUp : MountM κ Unit) : MountM κ α :=
  tryCatch action fun err => do
    cleanUp
    throw err

end MountM

namespace Mount

open MountM

/-- Starts tracking a root of the tree. The platform owns its view, so nothing is enqueued. -/
def trackRoot {κ : Type} (root : Tag) : MountM κ Unit := do
  if (← get).tree.isRoot root then
    let node ← node root
    onMount (·.remember root { frame := some node.frame })
  else throw (.contract (.notARoot root))

end Mount

end ShadowMount
