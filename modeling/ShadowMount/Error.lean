import ShadowMount.Text

/-!
# Tags and errors

Every node and every native view is named by a tag. The bridge chooses tags; the core only
compares them.

Commands fail for two kinds of reason. A `ContractViolation` is malformed input from the bridge;
the other cases of `UiError` say that the tree or its mount state is not ready for the command.
Both are data; `message` gives the one wording of each.
-/

namespace ShadowMount

/-- The name of a node and of its native view. -/
abbrev Tag := Nat

/-- A token by which the bridge routes a result back to the script. -/
abbrev Callback := Nat

/-- Malformed input from the bridge. -/
inductive ContractViolation where
  /-- The two arrays of moves differ in length. -/
  | mismatchedMoveArrays (moveFrom moveTo : Nat)
  /-- The two arrays of additions differ in length. -/
  | mismatchedAddArrays (tags indices : Nat)
  /-- A removal pass went up instead of down. -/
  | unsortedRemoval (index previous : Nat)
  /-- An insertion pass went down instead of up. -/
  | unsortedInsertion (index previous : Nat)
  /-- One index is named twice. -/
  | indexCollision (index : Nat)
  /-- An index lies outside the child list. -/
  | indexOutOfRange (index length : Nat)
  /-- A child to insert has a parent already. -/
  | childAlreadyAttached (child parent : Tag)
  /-- A node would become its own ancestor, or a root would get a parent. -/
  | cyclicInsertion (tag parent : Tag)
  /-- A move has no child waiting for its target. -/
  | missingMovedChild (index : Nat)
  /-- No view manager has this name. -/
  | unknownViewClass (name : String)
  /-- The node has no view of its own to address. -/
  | notMountingToView (tag : Tag)
  /-- The tag is not that of a root. -/
  | notARoot (tag : Tag)
  deriving DecidableEq, Inhabited

/-- The wording of a contract violation. -/
def ContractViolation.message : ContractViolation → String
  | mismatchedMoveArrays moveFrom moveTo =>
    s!"moveFrom has {moveFrom} entries but moveTo has {moveTo}"
  | mismatchedAddArrays tags indices =>
    s!"addChildTags has {tags} entries but addAtIndices has {indices}"
  | unsortedRemoval index previous =>
    s!"invariant failure, needs sorting: removing {index} after {previous}"
  | unsortedInsertion index previous =>
    s!"invariant failure, needs sorting: inserting {index} after {previous}"
  | indexCollision index => s!"index {index} appears in more than one edit stream"
  | indexOutOfRange index length => s!"index {index} out of range for {length} children"
  | childAlreadyAttached child parent => s!"child {child} is already attached to {parent}"
  | cyclicInsertion tag parent =>
    s!"node {tag} cannot become a child of itself or its descendant {parent}"
  | missingMovedChild index => s!"no detached child is waiting for move target {index}"
  | unknownViewClass name => "no view manager registered for class " ++ Text.quoted name
  | notMountingToView tag => s!"node {tag} does not mount to a view"
  | notARoot tag => s!"node {tag} is not a root view"

/-- Why a command on the tree or on the mount state failed. -/
inductive UiError where
  /-- No node has this tag. -/
  | missing (tag : Tag)
  /-- A node with this tag is registered already. -/
  | duplicateTag (tag : Tag)
  /-- The node can never have a view. -/
  | virtualNode (tag : Tag)
  /-- No ancestor of the node mounts to a view. -/
  | noMountingAncestor (tag : Tag)
  /-- A hierarchy pass is open. -/
  | passInProgress
  /-- An edit failed midway and left the tree inconsistent. -/
  | treePoisoned
  /-- A walk along the links of the tree met more nodes than the tree has. -/
  | cyclicLinks (tag : Tag)
  /-- The input was malformed. -/
  | contract (violation : ContractViolation)
  deriving DecidableEq, Inhabited

/-- The wording of an error. -/
def UiError.message : UiError → String
  | missing tag => s!"node {tag} missing"
  | duplicateTag tag => s!"node {tag} already registered"
  | virtualNode tag => s!"node {tag} is virtual and never mounts to a view"
  | noMountingAncestor tag => s!"node {tag} has no view-mounting ancestor"
  | passInProgress => "a hierarchy pass is already in progress"
  | treePoisoned => "shadow tree was left inconsistent by a failed batch; rebuild required"
  | cyclicLinks tag => s!"the links of node {tag} form a cycle"
  | contract violation => violation.message

end ShadowMount
