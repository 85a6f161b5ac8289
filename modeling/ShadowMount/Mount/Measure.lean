import ShadowMount.Mount.Escalate

/-!
# Nodes without a view of their own

A node that does not mount is drawn by its native parent. Its frame is then reported as fractions
of the size of that view, and its touches go there.
-/

namespace ShadowMount

/-- The frame of a node in fractions of the size of a view. -/
structure RelativeFrame (κ : Type) where
  /-- The view. -/
  tag : Tag
  fractions : Frame κ
  deriving DecidableEq

/-- A part of an extent; nothing of an extent that is zero. -/
def fraction {κ : Type} [Coordinate κ] (value extent : κ) : κ :=
  if extent == 0 then 0 else value / extent

namespace Tree

variable {κ : Type}

/-- From `start` upwards, the first mounting node, and `position` moved by the positions of the
nodes below it. -/
def positionFrom [Coordinate κ] (tree : Tree κ) (origin : Tag) :
    Nat → (start : Option Tag) → (position : κ × κ) → Except UiError (Tag × κ × κ)
  | _, none, _ => throw (.noMountingAncestor origin)
  | 0, some tag, _ => throw (.cyclicLinks tag)
  | steps + 1, some tag, (x, y) => do
    let node ← tree.node tag
    if node.mounts then return (tag, x, y)
    else tree.positionFrom origin steps node.parent (x + node.frame.x, y + node.frame.y)

/-- The first node on the way up from `tag`, itself included, that does not satisfy `skip`. -/
def climbPast (tree : Tree κ) (skip : Node κ → Bool) (origin : Tag) :
    Nat → (tag : Tag) → Except UiError Tag
  | 0, tag => throw (.cyclicLinks tag)
  | steps + 1, tag => do
    let node ← tree.node tag
    if skip node then
      match node.parent with
      | none => throw (.noMountingAncestor origin)
      | some parent => tree.climbPast skip origin steps parent
    else return tag

/-- The node whose view receives the touches of `tag`: virtual nodes are passed over first, then
nodes that do not mount. -/
def touchTarget (tree : Tree κ) (tag : Tag) : Except UiError Tag := do
  let visible ← tree.climbPast (·.isVirtual) tag tree.budget tag
  tree.climbPast (!·.mounts) tag tree.budget visible

end Tree

namespace Mount

open MountM

variable {κ : Type} [Coordinate κ]

/-- The frame of a node inside its native parent, which is given a view. -/
def relativeFrame (tag : Tag) : MountM κ (RelativeFrame κ) := do
  let target ← node tag
  let (parent, x, y) ← query fun tree =>
    tree.positionFrom tag tree.budget target.parent (target.frame.x, target.frame.y)
  let _ ← escalate parent
  let bounds := (← node parent).frame
  return {
    tag := parent
    fractions := {
      x := fraction x bounds.width
      y := fraction y bounds.height
      width := fraction target.frame.width bounds.width
      height := fraction target.frame.height bounds.height } }

/-- The view that receives the touches of a node, which is given one. -/
def touchView (tag : Tag) : MountM κ Tag := do
  let target ← query (·.touchTarget tag)
  let _ ← escalate target
  return target

end Mount

end ShadowMount
