import ShadowMount.Mount.State

/-!
# Reconciliation

Each step compares what the tree asks for with what was last sent and enqueues the difference:
the creation of a view, its frame, its child list, its properties. `reconcile` takes these steps
for a whole subtree.
-/

namespace ShadowMount.Mount

open MountM

variable {κ : Type} [Coordinate κ]

/-! ## Single views -/

/-- Creates the view of a node, with all its properties, unless it exists. -/
def materialize (tag : Tag) : MountM κ Unit := do
  let node ← node tag
  if node.created then return
  else
    onTree (TreeM.update tag ({ · with created := true }))
    enqueue (.create tag node.root node.viewClass node.props)
    onMount (·.remember tag { props := node.props })

/-- Sends the frame of a view inside its native parent if it differs from the last one. -/
def sendFrame (tag parent : Tag) (frame : Frame κ) : MountM κ Unit :=
  onMount fun state =>
    let sent := state.sent tag
    if sent.frame.any (·.same frame) then state
    else
      let updated := (state.remember tag { sent with frame := some frame }).enqueue
        (.setFrame tag parent frame)
      { updated with frameChanges := updated.frameChanges ++ [(tag, frame)] }

/-- Sends the native child list of a view if it differs from the last one. -/
def sendChildren (tag : Tag) : MountM κ Unit := do
  let children ← query (·.nativeChildren tag)
  onMount fun state =>
    let sent := state.sent tag
    if sent.children = children then state.remember tag sent
    else (state.remember tag { sent with children }).enqueue (.setChildren tag children)

/-- Sends the entries of `delta` that differ from what was last sent, if the node has a view. A
view that is still to be created needs nothing: its create will carry all properties. Tells
whether an update was enqueued. -/
def sendProps (tag : Tag) (delta : Props) : MountM κ Bool := do
  let node ← node tag
  if !node.mounts then throw (.contract (.notMountingToView tag))
  else if !node.created then return false
  else
    let sent := (← get).mount.sent tag
    let changed := Props.changes sent.props delta
    if changed.isEmpty then
      onMount (·.remember tag sent)
      return false
    else
      onMount (·.remember tag { sent with props := Props.merge sent.props changed })
      enqueue (.setProps tag node.viewClass changed)
      return true

/-! ## Subtrees -/

/-- Brings the views of a subtree up to date: each view is created before those below it and gets
its child list after them. `(dx, dy)` is the position of the parent node inside the native parent
`above`. -/
def reconcile : (steps : Nat) → (tag : Tag) → (dx dy : κ) → (above : Option Tag) → MountM κ Unit
  | 0, tag, _, _, _ => throw (.cyclicLinks tag)
  | steps + 1, tag, dx, dy, above => do
    let node ← node tag
    if node.mounts then
      materialize tag
      match above with
      | some parent => sendFrame tag parent (node.frame.shift dx dy)
      | none => pure ()
      node.children.forM fun child => reconcile steps child 0 0 (some tag)
      sendChildren tag
    else
      node.children.forM fun child =>
        reconcile steps child (dx + node.frame.x) (dy + node.frame.y) above

/-- Brings the views of the subtree of `tag` up to date. -/
def reconcileSubtree (tag : Tag) (dx dy : κ) (above : Option Tag) : MountM κ Unit := do
  reconcile (← get).tree.budget tag dx dy above

/-- Brings the subtree of a node, and the child list of its native parent, up to date. -/
def reconcileBelow (tag parent : Tag) : MountM κ Unit := do
  let (dx, dy) ← query (·.offsetInNativeParent tag)
  reconcileSubtree tag dx dy (some parent)
  sendChildren parent

end ShadowMount.Mount
