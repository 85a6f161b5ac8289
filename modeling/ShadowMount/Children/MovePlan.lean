import ShadowMount.Children.Batch

/-!
# Moves between two orders

The moves of a batch are met twice: first by their source positions from the highest down, when
the children are detached, then by their target positions from the lowest up, when they are put
back. A `MovePlan` joins the two orders: a detached child is parked at the rank of its target,
where the second pass finds it.
-/

namespace ShadowMount

/-- The moves of a batch in both orders, with the children detached so far. -/
structure MovePlan where
  /-- The source positions, ascending. -/
  sources : List Nat
  /-- For each source position, in that order, the rank of its target. -/
  ranks : List Nat
  /-- The target positions, ascending. -/
  targets : List Nat
  /-- For each target position, in that order, the child waiting for it. -/
  parked : List (Option Tag)
  deriving DecidableEq, Inhabited

namespace MovePlan

/-- The first element that equals its successor. -/
def firstRepeat? : List Nat → Option Nat
  | a :: b :: rest => if a = b then some a else firstRepeat? (b :: rest)
  | _ => none

/-- The plan for moving the child at each position of `moveFrom` to the position of `moveTo` in
the same place. The arrays must have one length and no target may occur twice. -/
def ofArrays (moveFrom moveTo : List Nat) : Except ContractViolation MovePlan :=
  if moveFrom.length ≠ moveTo.length then
    throw (.mismatchedMoveArrays moveFrom.length moveTo.length)
  else
    let moves := sortOn Prod.fst (moveFrom.zip moveTo)
    let byTarget := sortOn (fun (move, _) => move.2) moves.zipIdx
    let targets := byTarget.map fun (move, _) => move.2
    let entries := byTarget.map Prod.snd
    match firstRepeat? targets with
    | some index => throw (.indexCollision index)
    | none => return {
        sources := moves.map Prod.fst
        ranks := (List.range moves.length).map entries.idxOf
        targets
        parked := List.replicate moves.length none }

/-- The number of moves. -/
def size (plan : MovePlan) : Nat := plan.sources.length

/-- Parks the child detached for the `entry`-th source at the rank of its target. -/
def park (plan : MovePlan) (entry : Nat) (child : Tag) : MovePlan :=
  match plan.ranks[entry]? with
  | some rank => { plan with parked := plan.parked.set rank (some child) }
  | none => plan

/-- The child waiting for the `rank`-th target. -/
def waiting? (plan : MovePlan) (rank : Nat) : Option Tag :=
  plan.parked[rank]?.join

/-- Takes the child waiting for the `rank`-th target, which then waits no more. -/
def takeParked (plan : MovePlan) (rank : Nat) : Option Tag × MovePlan :=
  (plan.waiting? rank, { plan with parked := plan.parked.set rank none })

end MovePlan

end ShadowMount
