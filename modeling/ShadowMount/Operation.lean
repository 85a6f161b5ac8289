import ShadowMount.Error
import ShadowMount.Geometry
import ShadowMount.Props

/-!
# View operations

What the mount core asks of the native side, and the queue that carries it there. Operations are
executed in the order in which they were enqueued.
-/

namespace ShadowMount

/-- One request to the native side. -/
inductive Operation (κ : Type) where
  /-- Make a native view of a class, with its full properties. -/
  | create (tag root : Tag) (viewClass : String) (props : Props)
  /-- Overwrite properties of a view. -/
  | setProps (tag : Tag) (viewClass : String) (props : Props)
  /-- Give a view its frame, relative to its native parent. -/
  | setFrame (tag parent : Tag) (frame : Frame κ)
  /-- Replace the whole native child list of a view. -/
  | setChildren (tag : Tag) (children : List Tag)
  /-- Destroy a view. -/
  | drop (tag : Tag)
  /-- Destroy a root view. -/
  | dropRoot (tag : Tag)
  /-- Route touches to a view, on behalf of the node `initial`. -/
  | setResponder (tag initial : Tag) (blockNative : Bool)
  /-- Stop routing touches. -/
  | clearResponder
  /-- Report the frame of a view. -/
  | measure (tag : Tag) (callback : Callback)
  /-- Report a frame given as fractions of the size of a view. -/
  | measureRelative (tag : Tag) (fractions : Frame κ) (callback : Callback)
  /-- Report the frame of a view inside the window. -/
  | measureInWindow (tag : Tag) (callback : Callback)
  /-- Report the view below a point of a view. -/
  | findSubview (tag : Tag) (x y : κ) (callback : Callback)
  /-- Send a command to a view. -/
  | command (tag : Tag) (command : Nat) (args : List PropValue)
  /-- Open a menu at a view. -/
  | popupMenu (tag : Tag) (items : List String) (callback : Callback)
  /-- Send an accessibility event to a view. -/
  | accessibilityEvent (tag : Tag) (event : Nat)
  deriving DecidableEq, Inhabited

namespace Operation

variable {κ : Type}

/-- The view to which an operation is addressed. -/
def target? : Operation κ → Option Tag
  | create tag .. | setProps tag .. | setFrame tag .. | setChildren tag ..
  | drop tag | dropRoot tag | setResponder tag .. | measure tag .. | measureRelative tag ..
  | measureInWindow tag .. | findSubview tag .. | command tag .. | popupMenu tag ..
  | accessibilityEvent tag .. => some tag
  | clearResponder => none

/-- The view that an operation makes. -/
def created? : Operation κ → Option Tag
  | create tag .. => some tag
  | _ => none

/-- Whether an operation makes a view. -/
def isCreate : Operation κ → Bool
  | create .. => true
  | _ => false

/-- Whether pruning for `tag` keeps an operation: creates stay, and whatever is addressed
elsewhere. -/
def survivesPruning (tag : Tag) (operation : Operation κ) : Bool :=
  operation.isCreate || operation.target? != some tag

end Operation

/-- Operations waiting to be executed, oldest first. -/
abbrev OperationQueue (κ : Type) := List (Operation κ)

namespace OperationQueue

variable {κ : Type}

/-- Adds an operation at the end. -/
def enqueue (queue : OperationQueue κ) (operation : Operation κ) : OperationQueue κ :=
  queue ++ [operation]

/-- Discards the operations addressed to `tag`, its create excepted; the others keep their
order. -/
def prune (queue : OperationQueue κ) (tag : Tag) : OperationQueue κ :=
  queue.filter (Operation.survivesPruning tag)

/-- How many operations pruning for `tag` discards. -/
def prunedCount (queue : OperationQueue κ) (tag : Tag) : Nat :=
  List.length queue - List.length (prune queue tag)

end OperationQueue

end ShadowMount
