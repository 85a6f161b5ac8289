import ShadowMount.Tree.Walk

/-!
# Edits of the tree

Registration, attachment and detachment of nodes. Each edit checks first and changes the tree
only when every check has passed. The one exception is the detachment of a child that is not
registered: the parent's list loses the entry before the missing child is reported.
-/

namespace ShadowMount.Tree

variable {κ : Type}

/-! ## Registration -/

/-- Adds a node whose tag is free. -/
def register (node : Node κ) : TreeM κ Unit := do
  if (← get).contains node.tag then throw (.duplicateTag node.tag)
  else modify (·.store node.tag node)

/-- Overwrites the node that has the same tag. The links of its neighbours are left as they
are. -/
def replace (node : Node κ) : TreeM κ Unit :=
  TreeM.update node.tag fun _ => node

/-- The tags of `roots` with `tag` among them, at the end if it is new. -/
def withRoot (roots : List Tag) (tag : Tag) : List Tag :=
  if tag ∈ roots then roots else roots ++ [tag]

/-- Adds a root. The platform owns its native view, so it counts as created from the start. -/
def registerRoot [Coordinate κ] (tag : Tag) (viewClass : String) (width height : κ) :
    TreeM κ Unit := do
  let node : Node κ := .fresh tag tag viewClass .viewMounting
  register { node with frame := .ofSize width height, created := true }
  modify fun tree => { tree with roots := withRoot tree.roots tag }

/-! ## Fields of one node -/

/-- Gives a node its frame. -/
def setFrame (tag : Tag) (frame : Frame κ) : TreeM κ Unit :=
  TreeM.update tag ({ · with frame := frame })

/-- Overwrites properties of a node. -/
def mergeProps (tag : Tag) (delta : Props) : TreeM κ Unit :=
  TreeM.update tag (·.mergeProps delta)

/-- Makes a node mount to a view, unless it is virtual; tells whether that changed it. -/
def promote (tag : Tag) : TreeM κ Bool := do
  let node ← TreeM.node tag
  TreeM.update tag Node.promote
  return node.isPromotable

/-! ## Links -/

/-- Fails unless `child` is a registered node without a parent that may be attached below
`parent`: not a root, and neither `parent` nor one of its ancestors. -/
def checkAttachable (tree : Tree κ) (parent child : Tag) : Except UiError Unit := do
  match (← tree.node child).parent with
  | some existing => throw (.contract (.childAlreadyAttached child existing))
  | none =>
    if tree.isRoot child then throw (.contract (.cyclicInsertion child parent))
    else if (← tree.lineage parent).contains child then
      throw (.contract (.cyclicInsertion child parent))
    else return

/-- Attaches a node below `parent`, at `index` of its child list. A parent that lays out its own
children makes the child mount. -/
def attach (parent child : Tag) (index : Nat) : TreeM κ Unit := do
  let above ← TreeM.node parent
  let length := above.children.length
  if length < index then throw (.contract (.indexOutOfRange index length))
  else
    TreeM.query (·.checkAttachable parent child)
    TreeM.update parent fun node => { node with children := node.children.insertIdx index child }
    TreeM.update child fun node =>
      let attached := { node with parent := some parent }
      if above.forcesChildren then attached.promote else attached

/-- Detaches the child at `index` and answers its tag. -/
def detachAt (parent : Tag) (index : Nat) : TreeM κ Tag := do
  let above ← TreeM.node parent
  match above.children[index]? with
  | none => throw (.contract (.indexOutOfRange index above.children.length))
  | some child =>
    TreeM.update parent fun node => { node with children := node.children.eraseIdx index }
    TreeM.update child ({ · with parent := none })
    return child

/-- Detaches a node and removes it with all its descendants. Answers the removed tags, children
before parents. -/
def removeSubtree (tag : Tag) : TreeM κ (List Tag) := do
  let removed ← TreeM.query (·.postOrder tag)
  let node ← TreeM.node tag
  match node.parent with
  | none => pure ()
  | some parent =>
    TreeM.update parent fun node => { node with children := node.children.filter (· != tag) }
  modify fun tree => { tree.eraseAll removed with roots := tree.roots.erase tag }
  return removed

end ShadowMount.Tree
