import ShadowMount.Mount.State

/-!
# Sample scenes

A scene with one tracked root, and shorthands for growing plain nodes below it. Examples start
from these.
-/

namespace ShadowMount.Sample

open MountM

variable {κ : Type} [Coordinate κ]

/-- The frame of the root of a sample scene. -/
def rootFrame : Frame κ := .ofSize (Coordinate.ofCount 400) (Coordinate.ofCount 800)

/-- Registers a root and starts tracking it. -/
def addRoot (root : Tag) : MountM κ Unit := do
  onTree (Tree.registerRoot root "Root" rootFrame.width rootFrame.height)
  Mount.trackRoot root

/-- A scene with one tracked root. -/
def scene (root : Tag) (config : Config) : Scene κ :=
  let blank : Scene κ := { mount := { config } }
  match addRoot root blank with
  | .ok _ scene | .error _ scene => scene

/-- Registers a detached plain node of the given kind. -/
def addNode (root tag : Tag) (kind : MountKind) : MountM κ Unit :=
  onTree (Tree.register (.fresh tag root "View" kind))

/-- The children of a node; none if there is no such node. -/
def childrenOf (scene : Scene κ) (tag : Tag) : List Tag :=
  ((scene.tree.get? tag).map (·.children)).getD []

/-- Registers a plain node of the given kind and attaches it as the last child of `parent`. -/
def addChild (root parent tag : Tag) (kind : MountKind) : MountM κ Unit := do
  addNode root tag kind
  let index := (childrenOf (← get) parent).length
  onTree (Tree.attach parent tag index)

end ShadowMount.Sample
