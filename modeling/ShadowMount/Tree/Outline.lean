import ShadowMount.Tree.Walk

/-!
# Outlines

A readable picture of a subtree: one line for each node, indented by its depth, with its class,
its kind and the state of its view.
-/

namespace ShadowMount

/-- The state of a node's view as an outline shows it: nothing for a node that does not mount. -/
def Node.mountMark {κ : Type} (node : Node κ) : String :=
  if node.mounts then if node.created then " mounted" else " pending" else ""

namespace Tree

variable {κ : Type}

/-- The lines of a subtree, two blanks further in at each level. Children that are not registered
are shown as missing. -/
def outlineFrom (tree : Tree κ) : Nat → Nat → Tag → String
  | 0, _, _ => ""
  | steps + 1, depth, tag =>
    let indent := String.join (List.replicate depth "  ")
    match tree.get? tag with
    | none => s!"{indent}[{tag}] (missing)\n"
    | some node =>
      s!"{indent}[{tag}] {node.viewClass} {node.kind.name}{node.mountMark}\n" ++
        String.join (node.children.map (tree.outlineFrom steps (depth + 1)))

/-- A picture of the subtree of `root`. -/
def outline (tree : Tree κ) : Option Tag → String
  | none => "(no root)\n"
  | some root => tree.outlineFrom tree.budget 0 root

end Tree

end ShadowMount
