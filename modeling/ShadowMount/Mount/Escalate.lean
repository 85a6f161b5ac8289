import ShadowMount.Mount.Reconcile

/-!
# Escalation

Some commands need a node to have a native view right now. Escalation gives it one: the node is
promoted to mount, its native parent is escalated first so that the view has a place, and then
the node's subtree is brought up to date. If the native parent cannot have a view the promotion
is taken back.
-/

namespace ShadowMount.Mount

open MountM

variable {κ : Type} [Coordinate κ]

/-- Sends the frame and the child list of an existing view if they changed. The platform places
root views, so a root's frame is not sent. -/
def refreshView (tag : Tag) : MountM κ Unit := do
  if !(← get).tree.isRoot tag then
    match ← query (·.nativeParent tag) with
    | none => pure ()
    | some parent =>
      let (dx, dy) ← query (·.offsetInNativeParent tag)
      let node ← node tag
      sendFrame tag parent (node.frame.shift dx dy)
  sendChildren tag

/-- Makes sure that a node has a view, with the given number of steps allowed on the way up. Tells
whether this call created it. -/
def escalateWithin : (steps : Nat) → (tag : Tag) → MountM κ Bool
  | 0, tag => throw (.cyclicLinks tag)
  | steps + 1, tag => do
    let node ← node tag
    if node.isVirtual then throw (.virtualNode tag)
    else if node.created then
      refreshView tag
      return false
    else
      match ← query (·.nativeParent tag) with
      | none => throw (.noMountingAncestor tag)
      | some parent =>
        let promoted ← onTree (Tree.promote tag)
        let _ ← onFailure (escalateWithin steps parent) do
          if promoted then onTree (TreeM.update tag Node.demote)
        if promoted then say .debug s!"node {tag} forced to mount to a view"
        reconcileBelow tag parent
        return true

/-- Makes sure that a node has a view. Tells whether this call created it. -/
def escalate (tag : Tag) : MountM κ Bool := do
  escalateWithin (← get).tree.budget tag

/-- Enqueues every create, frame and child list that is pending in the subtree of a node. -/
def refreshSubtree (tag : Tag) : MountM κ Unit := do
  if (← get).tree.isRoot tag then reconcileSubtree tag 0 0 none
  else
    match ← query (·.nativeParent tag) with
    | none => throw (.noMountingAncestor tag)
    | some parent =>
      if !(← node parent).created then discard (escalate parent)
      reconcileBelow tag parent

end ShadowMount.Mount
