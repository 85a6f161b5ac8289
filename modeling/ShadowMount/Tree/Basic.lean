import Std.Data.ExtTreeMap
import ShadowMount.Error
import ShadowMount.Node

/-!
# The shadow tree

Nodes by tag. A parent owns the ordered list of its children's tags and a child names its parent;
the two directions are separate data, kept in step by the edits of `ShadowMount.Tree.Edit`.

An edit is an action of `TreeM`: it either answers or fails, and in both cases leaves a tree, so
what a failing edit has changed is part of its meaning.
-/

namespace ShadowMount

/-- The nodes of the user interface, with the roots in the order of their registration. -/
structure Tree (κ : Type) where
  nodes : Std.ExtTreeMap Tag (Node κ) := ∅
  /-- The tags registered as roots, oldest first. -/
  roots : List Tag := []
  /-- Set when an edit failed midway; such a tree refuses further edits. -/
  poisoned : Bool := false

/-- An action on a tree that may fail; a failure keeps what was done before it. -/
abbrev TreeM (κ : Type) := EStateM UiError (Tree κ)

namespace Tree

variable {κ : Type}

/-- The tree without nodes. -/
def empty : Tree κ := {}

instance : Inhabited (Tree κ) := ⟨empty⟩

/-! ## Queries -/

/-- The number of nodes. -/
def size (tree : Tree κ) : Nat := tree.nodes.size

/-- The node with a tag. -/
def get? (tree : Tree κ) (tag : Tag) : Option (Node κ) := tree.nodes[tag]?

/-- Whether a node has this tag. -/
def contains (tree : Tree κ) (tag : Tag) : Bool := (tree.get? tag).isSome

/-- Whether a tag is registered as a root. -/
def isRoot (tree : Tree κ) (tag : Tag) : Bool := tree.roots.contains tag

/-- The node with a tag, which has to be there. -/
def node (tree : Tree κ) (tag : Tag) : Except UiError (Node κ) :=
  match tree.get? tag with
  | some node => .ok node
  | none => .error (.missing tag)

/-- The children of a node, in document order. -/
def children (tree : Tree κ) (tag : Tag) : Except UiError (List Tag) :=
  (·.children) <$> tree.node tag

/-- Fails on a tree that a failed edit has left inconsistent. -/
def checkConsistent (tree : Tree κ) : Except UiError Unit :=
  if tree.poisoned then .error .treePoisoned else .ok ()

/-! ## Updates -/

/-- Stores a node under a tag. -/
def store (tree : Tree κ) (tag : Tag) (node : Node κ) : Tree κ :=
  { tree with nodes := tree.nodes.insert tag node }

/-- Removes the nodes with the given tags. -/
def eraseAll (tree : Tree κ) (tags : List Tag) : Tree κ :=
  { tree with nodes := tags.foldl (fun nodes tag => nodes.erase tag) tree.nodes }

/-- Marks the tree as inconsistent. -/
def poison (tree : Tree κ) : Tree κ := { tree with poisoned := true }

/-- Storing a node changes what its tag names, and nothing else. -/
@[simp] theorem get?_store (tree : Tree κ) (tag other : Tag) (node : Node κ) :
    (tree.store tag node).get? other = if tag = other then some node else tree.get? other := by
  simp [store, get?, Std.ExtTreeMap.getElem?_insert]

/-- Exactly the removed tags lose their nodes. -/
@[simp] theorem get?_eraseAll (tree : Tree κ) (tags : List Tag) (other : Tag) :
    (tree.eraseAll tags).get? other = if other ∈ tags then none else tree.get? other := by
  have h : ∀ nodes : Std.ExtTreeMap Tag (Node κ),
      (tags.foldl (fun nodes tag => nodes.erase tag) nodes)[other]? =
        if other ∈ tags then none else nodes[other]? := by
    induction tags with
    | nil => simp
    | cons tag rest ih =>
      intro nodes
      rw [List.foldl_cons, ih, Std.ExtTreeMap.getElem?_erase]
      by_cases hrest : other ∈ rest
      · simp [hrest]
      · by_cases htag : tag = other
        · subst htag
          simp
        · simp [hrest, htag, Ne.symm htag]
  exact h tree.nodes

end Tree

namespace TreeM

variable {κ : Type} {α : Type}

/-- Asks the tree; a query changes nothing. -/
def query (ask : Tree κ → Except UiError α) : TreeM κ α := fun tree =>
  match ask tree with
  | .ok answer => .ok answer tree
  | .error err => .error err tree

/-- The node with a tag, which has to be there. -/
def node (tag : Tag) : TreeM κ (Node κ) := query (·.node tag)

/-- Replaces the node with a tag, which has to be there, by its image under `change`. -/
def update (tag : Tag) (change : Node κ → Node κ) : TreeM κ Unit := do
  let node ← node tag
  modify (·.store tag (change node))

/-- An update fails exactly on a missing node, and then changes nothing. -/
theorem update_apply (tag : Tag) (change : Node κ → Node κ) (tree : Tree κ) :
    update tag change tree =
      match tree.get? tag with
      | some node => .ok () (tree.store tag (change node))
      | none => .error (.missing tag) tree := by
  simp only [update, TreeM.node, query, Tree.node, bind, EStateM.bind]
  cases tree.get? tag <;> rfl

end TreeM

end ShadowMount
