import ShadowMount.Children.MovePlan
import ShadowMount.Tree.Edit

/-!
# Checked batches and their schedules

A batch is checked as a whole against the child list it is meant for, before anything is touched.
A batch that passes becomes an `EditPlan`, whose streams are sorted, and the plan yields two
schedules: the positions to empty, from the highest down, and the positions to fill, from the
lowest up. Each schedule is the merge of two streams and meets every position once.
-/

namespace ShadowMount

/-- A checked batch, with its streams in ascending order. -/
structure EditPlan where
  moves : MovePlan
  /-- Positions of the children to destroy. -/
  removals : List Nat
  /-- The children to add, with their positions. -/
  additions : List (Nat × Tag)
  deriving DecidableEq, Inhabited

/-! ## Checks -/

/-- Fails at the first position that lies outside a list of the given length or was seen
before. -/
def checkPositions (length : Nat) : (seen positions : List Nat) → Except UiError Unit
  | _, [] => return
  | seen, index :: rest =>
    if length ≤ index then throw (.contract (.indexOutOfRange index length))
    else if seen.contains index then throw (.contract (.indexCollision index))
    else checkPositions length (index :: seen) rest

/-- Fails at the first child that may not be attached below `parent` or was seen before. -/
def Tree.checkNewChildren {κ : Type} (tree : Tree κ) (parent : Tag) :
    (seen children : List Tag) → Except UiError Unit
  | _, [] => return
  | seen, child :: rest => do
    tree.checkAttachable parent child
    if seen.contains child then throw (.contract (.childAlreadyAttached child parent))
    else tree.checkNewChildren parent (child :: seen) rest

/-- Checks a batch against the children of `parent`. -/
def Batch.plan {κ : Type} (batch : Batch) (tree : Tree κ) (parent : Tag) :
    Except UiError EditPlan := do
  let count := (← tree.node parent).children.length
  let moves ← (MovePlan.ofArrays batch.moveFrom batch.moveTo).mapError UiError.contract
  let removals := sortOn id batch.removeFrom
  checkPositions count [] (batch.moveFrom ++ removals)
  if batch.addTags.length ≠ batch.addAt.length then
    throw (.contract (.mismatchedAddArrays batch.addTags.length batch.addAt.length))
  else
    let additions := sortOn Prod.fst (batch.addAt.zip batch.addTags)
    checkPositions (count - removals.length + additions.length) [] (batch.moveTo ++ batch.addAt)
    tree.checkNewChildren parent [] (additions.map Prod.snd)
    return { moves, removals, additions }

/-! ## Schedules -/

/-- One step of emptying positions. -/
inductive DetachStep where
  /-- Detach the child at `index` and park it as the `entry`-th move. -/
  | move (index entry : Nat)
  /-- Detach the child at `index` and destroy it. -/
  | remove (index : Nat)
  /-- Both streams name `index`. -/
  | collision (index : Nat)
  deriving DecidableEq, Inhabited

/-- Merges moves, given as positions with their entries, and removals, both descending. -/
def detachSteps : (moves : List (Nat × Nat)) → (removals : List Nat) → List DetachStep
  | [], [] => []
  | (index, entry) :: moves, [] => .move index entry :: detachSteps moves []
  | [], index :: removals => .remove index :: detachSteps [] removals
  | (source, entry) :: moves, removal :: removals =>
    if removal < source then .move source entry :: detachSteps moves (removal :: removals)
    else if source < removal then .remove removal :: detachSteps ((source, entry) :: moves) removals
    else [.collision source]
termination_by moves removals => moves.length + removals.length

/-- One step of filling positions. -/
inductive AttachStep where
  /-- Insert a new child at `index`. -/
  | add (index : Nat) (child : Tag)
  /-- Insert at `index` the child parked for the `rank`-th target. -/
  | move (index rank : Nat)
  /-- Both streams name `index`. -/
  | collision (index : Nat)
  deriving DecidableEq, Inhabited

/-- Merges additions and moves, given as positions with their ranks, both ascending. -/
def attachSteps : (additions : List (Nat × Tag)) → (moves : List (Nat × Nat)) → List AttachStep
  | [], [] => []
  | (index, child) :: additions, [] => .add index child :: attachSteps additions []
  | [], (index, rank) :: moves => .move index rank :: attachSteps [] moves
  | (index, child) :: additions, (target, rank) :: moves =>
    if index < target then .add index child :: attachSteps additions ((target, rank) :: moves)
    else if target < index then .move target rank :: attachSteps ((index, child) :: additions) moves
    else [.collision index]
termination_by additions moves => additions.length + moves.length

namespace EditPlan

/-- The positions to empty, from the highest down. -/
def detachSchedule (plan : EditPlan) : List DetachStep :=
  detachSteps plan.moves.sources.zipIdx.reverse plan.removals.reverse

/-- The positions to fill, from the lowest up. -/
def attachSchedule (plan : EditPlan) : List AttachStep :=
  attachSteps plan.additions plan.moves.targets.zipIdx

end EditPlan

end ShadowMount
