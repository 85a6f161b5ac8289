import ShadowMount.Tree.Edit

/-!
# Edits as data

A layout engine, or any other writer of the tree, can be described by the list of edits it makes.
`TreeEdit.run` gives each edit its meaning; `LayoutPlan.engine` runs a list of them for a root.
-/

namespace ShadowMount

/-- One edit of the tree. -/
inductive TreeEdit (κ : Type) where
  | register (node : Node κ)
  | replace (node : Node κ)
  | registerRoot (tag : Tag) (viewClass : String) (width height : κ)
  | setFrame (tag : Tag) (frame : Frame κ)
  | attach (parent child : Tag) (index : Nat)
  | detachAt (parent : Tag) (index : Nat)
  | removeSubtree (tag : Tag)
  | promote (tag : Tag)
  | mergeProps (tag : Tag) (delta : Props)
  /-- Lays the children of a node out below one another, each of the given size. -/
  | stack (tag : Tag) (width height : κ)
  /-- Reports a node as missing. -/
  | fail (tag : Tag)

/-- What an edit answers. -/
inductive EditAnswer where
  | done
  | changed (value : Bool)
  | detached (tag : Tag)
  | removed (tags : List Tag)
  deriving DecidableEq, Inhabited

namespace Tree

variable {κ : Type} [Coordinate κ]

/-- Gives `children` rows of the given size, from `row` on. -/
def stackFrom (width height : κ) (row : Nat) : List Tag → TreeM κ Unit
  | [] => return
  | child :: rest => do
    setFrame child ⟨0, Coordinate.ofCount row * height, width, height⟩
    stackFrom width height (row + 1) rest

/-- Lays the children of a node out below one another, each of the given size. -/
def stack (tag : Tag) (width height : κ) : TreeM κ Unit := do
  stackFrom width height 0 (← TreeM.query (·.children tag))

end Tree

/-- The meaning of an edit. -/
def TreeEdit.run {κ : Type} [Coordinate κ] : TreeEdit κ → TreeM κ EditAnswer
  | register node => do Tree.register node; return .done
  | replace node => do Tree.replace node; return .done
  | registerRoot tag viewClass width height => do
    Tree.registerRoot tag viewClass width height; return .done
  | setFrame tag frame => do Tree.setFrame tag frame; return .done
  | attach parent child index => do Tree.attach parent child index; return .done
  | detachAt parent index => return .detached (← Tree.detachAt parent index)
  | removeSubtree tag => return .removed (← Tree.removeSubtree tag)
  | promote tag => return .changed (← Tree.promote tag)
  | mergeProps tag delta => do Tree.mergeProps tag delta; return .done
  | stack tag width height => do Tree.stack tag width height; return .done
  | fail tag => throw (.missing tag)

/-- Computes the frames below a root before a hierarchy pass reads them. -/
abbrev LayoutEngine (κ : Type) := (root : Tag) → TreeM κ Unit

/-- Edits to make, each for every root or for one root only. -/
abbrev LayoutPlan (κ : Type) := List (Option Tag × TreeEdit κ)

/-- The engine that makes the edits of a plan that concern the root at hand, in order, up to the
first that fails. -/
def LayoutPlan.engine {κ : Type} [Coordinate κ] (plan : LayoutPlan κ) : LayoutEngine κ :=
  fun root => plan.forM fun (only, edit) =>
    if only.all (· == root) then discard edit.run else return

end ShadowMount
