import ShadowMount.Operation

/-!
# Shadow nodes

A shadow node stands for one element of the user interface. It may or may not be backed by a
native view: `kind` says what its view manager asks for, `mounts` whether the node is to have a
view, and `created` whether the view has been asked for already.
-/

namespace ShadowMount

/-- How a node relates to native views. -/
inductive MountKind where
  /-- Never backed by a view, such as a run of text. -/
  | virtual
  /-- Drawn by its nearest mounting ancestor until something forces a view. -/
  | layoutOnly
  /-- Always backed by a view. -/
  | viewMounting
  deriving DecidableEq, Inhabited

/-- The name of a mount kind. -/
def MountKind.name : MountKind → String
  | virtual => "Virtual"
  | layoutOnly => "LayoutOnly"
  | viewMounting => "ViewMounting"

/-- What a view class asks of the core. -/
structure ViewManager where
  /-- The name of the class. -/
  name : String
  /-- How its nodes relate to native views. -/
  kind : MountKind
  /-- Whether it positions its own children, so that each of them needs a view. -/
  laysOutChildren : Bool := false
  deriving DecidableEq, Inhabited

/-- A node of the shadow tree. -/
structure Node (κ : Type) where
  tag : Tag
  /-- The root below which the node was created. -/
  root : Tag
  viewClass : String
  kind : MountKind
  /-- Whether every child that can have a view must have one. -/
  forcesChildren : Bool
  parent : Option Tag
  /-- The children, in document order. -/
  children : List Tag
  /-- The frame, relative to the parent node. -/
  frame : Frame κ
  props : Props
  /-- Whether the node is to be backed by a native view. -/
  mounts : Bool
  /-- Whether its native view has been created. -/
  created : Bool
  deriving DecidableEq

namespace Node

variable {κ : Type}

/-- A detached node without children; it mounts exactly if its kind always does. -/
def fresh [Coordinate κ] (tag root : Tag) (viewClass : String) (kind : MountKind)
    (forcesChildren : Bool := false) : Node κ where
  tag
  root
  viewClass
  kind
  forcesChildren
  parent := none
  children := []
  frame := .zero
  props := .empty
  mounts := kind == .viewMounting
  created := false

/-- A detached node of the class of a view manager. -/
def ofManager [Coordinate κ] (tag root : Tag) (manager : ViewManager) : Node κ :=
  fresh tag root manager.name manager.kind manager.laysOutChildren

/-- Whether the node can never have a view. -/
def isVirtual (node : Node κ) : Bool := node.kind == .virtual

/-- Whether forcing the node to mount would change it. -/
def isPromotable (node : Node κ) : Bool := !node.isVirtual && !node.mounts

/-- Makes the node mount to a view, unless it is virtual. -/
def promote (node : Node κ) : Node κ :=
  if node.isPromotable then { node with mounts := true } else node

/-- Takes back a promotion whose view could not be created. -/
def demote (node : Node κ) : Node κ :=
  if !node.created && node.kind != .viewMounting then { node with mounts := false } else node

/-- Overwrites properties with those of `delta`. -/
def mergeProps (node : Node κ) (delta : Props) : Node κ :=
  { node with props := Props.merge node.props delta }

end Node

end ShadowMount
