import ShadowMount.Children.Edit
import ShadowMount.Mount.Measure
import ShadowMount.Ui.Managers

/-!
# Commands of the bridge

What the script can ask of the user interface, one constructor for each request. Structural
commands edit the tree; commands that need a native view escalate their target first; every
native effect waits in the queue for the next pass. `Command.run` gives each request its meaning.
-/

namespace ShadowMount

/-- A request from the bridge. -/
inductive Command (κ : Type) where
  /-- Add a root whose native view the platform owns. -/
  | addRoot (tag : Tag) (width height : κ)
  /-- Remove a root with everything below it. -/
  | removeRoot (tag : Tag)
  /-- Create a node of a view class, detached. -/
  | create (tag : Tag) (viewClass : String) (root : Tag) (props : Props)
  /-- Overwrite properties of a node. -/
  | update (tag : Tag) (viewClass : String) (props : Props)
  /-- Rearrange the children of a node. -/
  | editChildren (parent : Tag) (batch : Batch)
  /-- Put children in front of those of a node. -/
  | prependChildren (parent : Tag) (children : List Tag)
  /-- Give a node its frame. -/
  | setFrame (tag : Tag) (frame : Frame κ)
  /-- Report the frame of a node. -/
  | measure (tag : Tag) (callback : Callback)
  /-- Report the frame of a node inside the window. -/
  | measureInWindow (tag : Tag) (callback : Callback)
  /-- Report the view below a point of a node. -/
  | findSubview (tag : Tag) (x y : κ) (callback : Callback)
  /-- Send a command to the view of a node. -/
  | sendCommand (tag : Tag) (command : Nat) (args : List PropValue)
  /-- Open a menu at a node. -/
  | popupMenu (tag : Tag) (items : List String) (callback : Callback)
  /-- Send an accessibility event to a node. -/
  | accessibilityEvent (tag : Tag) (event : Nat)
  /-- Route touches to a node. -/
  | setResponder (tag : Tag) (blockNative : Bool)
  /-- Stop routing touches. -/
  | clearResponder

namespace Bridge

open MountM

variable {κ : Type} [Coordinate κ]

/-- The class of root nodes. -/
def rootViewClass : String := "Root"

/-! ## Structure -/

/-- Adds a root whose native view the platform owns. -/
def addRoot (tag : Tag) (width height : κ) : MountM κ Unit := do
  onTree (Tree.registerRoot tag rootViewClass width height)
  Mount.trackRoot tag
  let size := Coordinate.text width ++ "x" ++ Coordinate.text height
  say .debug s!"registered root view {tag} ({size})"

/-- Removes a root with everything below it. -/
def removeRoot (tag : Tag) : MountM κ Unit := do
  let removed ← Mount.destroyRoot tag
  say .debug s!"removed root view {tag} with {removed.length} nodes"

/-- Creates a detached node of a view class for a root. -/
def create (managers : Managers) (tag : Tag) (viewClass : String) (root : Tag) (props : Props) :
    MountM κ Unit := do
  if !(← get).tree.isRoot root then throw (.contract (.notARoot root))
  else
    let manager ← query fun _ => managers.resolve viewClass
    let node := (Node.ofManager tag root manager : Node κ).mergeProps props
    onTree (Tree.register node)
    if node.mounts then discard (Mount.sendProps tag props)

/-- Overwrites properties of a node and sends the changes to its view. A class other than the
node's is only noted. -/
def update (tag : Tag) (viewClass : String) (props : Props) : MountM κ Unit := do
  let node ← node tag
  if node.viewClass ≠ viewClass then
    say .warn s!"update for {tag} names class {viewClass} but the node is a {node.viewClass}"
  onTree (Tree.mergeProps tag props)
  if node.mounts then discard (Mount.sendProps tag props)

/-! ## Native views -/

/-- Gives a node a view. Tells whether the node was promoted or its view was created. -/
def ensureMounted (tag : Tag) : MountM κ Bool := do
  let promoted := !(← node tag).mounts
  let created ← Mount.escalate tag
  return promoted || created

/-- Gives the target of an operation a view and enqueues the operation. -/
def enqueueMounted (tag : Tag) (operation : Operation κ) : MountM κ Unit := do
  let _ ← ensureMounted tag
  enqueue operation

/-- Measures a node: natively if it mounts, else as fractions of its native parent. -/
def measure (tag : Tag) (callback : Callback) : MountM κ Unit := do
  if (← node tag).mounts then
    let _ ← Mount.escalate tag
    enqueue (.measure tag callback)
  else
    let frame ← Mount.relativeFrame tag
    enqueue (.measureRelative frame.tag frame.fractions callback)

/-- Sends a command to the view of a node. If the node had no view, its subtree is brought up to
date first, so that the command does not reach an empty view. -/
def sendCommand (tag : Tag) (command : Nat) (args : List PropValue) : MountM κ Unit := do
  if ← ensureMounted tag then Mount.refreshSubtree tag
  enqueue (.command tag command args)

/-- Routes touches to the view that receives those of a node. -/
def setResponder (tag : Tag) (blockNative : Bool) : MountM κ Unit := do
  let target ← Mount.touchView tag
  enqueue (.setResponder target tag blockNative)

end Bridge

/-- The meaning of a command, given the view classes of the host. -/
def Command.run {κ : Type} [Coordinate κ] (managers : Managers) : Command κ → MountM κ Unit
  | addRoot tag width height => Bridge.addRoot tag width height
  | removeRoot tag => Bridge.removeRoot tag
  | create tag viewClass root props => Bridge.create managers tag viewClass root props
  | update tag viewClass props => Bridge.update tag viewClass props
  | editChildren parent batch => Children.applyBatch parent batch
  | prependChildren parent children => Children.prepend parent children
  | setFrame tag frame => MountM.onTree (Tree.setFrame tag frame)
  | measure tag callback => Bridge.measure tag callback
  | measureInWindow tag callback => Bridge.enqueueMounted tag (.measureInWindow tag callback)
  | findSubview tag x y callback => Bridge.enqueueMounted tag (.findSubview tag x y callback)
  | sendCommand tag command args => Bridge.sendCommand tag command args
  | popupMenu tag items callback => Bridge.enqueueMounted tag (.popupMenu tag items callback)
  | accessibilityEvent tag event => Bridge.enqueueMounted tag (.accessibilityEvent tag event)
  | setResponder tag blockNative => Bridge.setResponder tag blockNative
  | clearResponder => MountM.enqueue .clearResponder

end ShadowMount
