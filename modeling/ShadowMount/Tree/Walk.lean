import ShadowMount.Tree.Basic

/-!
# Walks along the links of the tree

Walks go up along parent links or down along child links. Links are tags, so nothing in the data
bounds a walk; each one therefore carries a budget of steps that is larger than the number of
nodes. A walk that spends it has followed a cycle and fails with `UiError.cyclicLinks`, which no
tree with acyclic links does.

Downward walks look nodes up in document order, each node before its children, so the first
dangling link in that order is the one reported.
-/

namespace ShadowMount

/-- Concatenates the answers to `f` along a list; the first failure wins. -/
def gather {ε α β : Type} (f : α → Except ε (List β)) : List α → Except ε (List β)
  | [] => return []
  | a :: as => return (← f a) ++ (← gather f as)

namespace Tree

variable {κ : Type}

/-- More steps than any walk along acyclic links can take. -/
def budget (tree : Tree κ) : Nat := tree.size + 1

/-! ## Upwards -/

/-- `tag` followed by its ancestors, nearest first. -/
def lineageFrom (tree : Tree κ) : Nat → Tag → Except UiError (List Tag)
  | 0, tag => throw (.cyclicLinks tag)
  | steps + 1, tag => do
    match (← tree.node tag).parent with
    | none => return [tag]
    | some parent => return tag :: (← tree.lineageFrom steps parent)

/-- A node followed by every ancestor up to the topmost one. -/
def lineage (tree : Tree κ) (tag : Tag) : Except UiError (List Tag) :=
  tree.lineageFrom tree.budget tag

/-- The first node that mounts to a view on the way up from `start`, `start` included. -/
def firstMounting (tree : Tree κ) : Nat → (start : Option Tag) → Except UiError (Option Tag)
  | _, none => return none
  | 0, some tag => throw (.cyclicLinks tag)
  | steps + 1, some tag => do
    let node ← tree.node tag
    if node.mounts then return some tag else tree.firstMounting steps node.parent

/-- The nearest strict ancestor that mounts to a view: the parent of the node's view if it has one,
and else the view that draws the node. -/
def nativeParent (tree : Tree κ) (tag : Tag) : Except UiError (Option Tag) := do
  tree.firstMounting tree.budget (← tree.node tag).parent

/-- Adds to `total` the positions of the nodes from `start` up to, but without, the first mounting
one. -/
def sumOffsets [Coordinate κ] (tree : Tree κ) :
    Nat → (start : Option Tag) → (total : κ × κ) → Except UiError (κ × κ)
  | _, none, total => return total
  | 0, some tag, _ => throw (.cyclicLinks tag)
  | steps + 1, some tag, (dx, dy) => do
    let node ← tree.node tag
    if node.mounts then return (dx, dy)
    else tree.sumOffsets steps node.parent (dx + node.frame.x, dy + node.frame.y)

/-- The position of a node's parent inside the nearest mounting ancestor: the sum of the positions
of the ancestors in between, nearest first. -/
def offsetInNativeParent [Coordinate κ] (tree : Tree κ) (tag : Tag) :
    Except UiError (κ × κ) := do
  tree.sumOffsets tree.budget (← tree.node tag).parent (0, 0)

/-! ## Downwards -/

/-- What a node contributes to the child list of the native view above it: itself if it mounts
and has a view, nothing if its view is still to come, else what its children contribute. -/
def contribution (tree : Tree κ) : Nat → Tag → Except UiError (List Tag)
  | 0, tag => throw (.cyclicLinks tag)
  | steps + 1, tag => do
    let node ← tree.node tag
    if node.mounts then return if node.created then [tag] else []
    else gather (tree.contribution steps) node.children

/-- The nearest mounting descendants that have a view, in document order: the child list of the
node's native view. -/
def nativeChildren (tree : Tree κ) (tag : Tag) : Except UiError (List Tag) := do
  gather (tree.contribution tree.budget) (← tree.children tag)

/-- The subtree of a node with children before parents and siblings in order. -/
def postOrderFrom (tree : Tree κ) : Nat → Tag → Except UiError (List Tag)
  | 0, tag => throw (.cyclicLinks tag)
  | steps + 1, tag => do
    return (← gather (tree.postOrderFrom steps) (← tree.children tag)) ++ [tag]

/-- A node and its descendants, children before parents, siblings in order. -/
def postOrder (tree : Tree κ) (tag : Tag) : Except UiError (List Tag) :=
  tree.postOrderFrom tree.budget tag

end Tree

end ShadowMount
