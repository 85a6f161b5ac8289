import ShadowMount.Children.Schedule
import ShadowMount.Mount.Destroy

/-!
# Edits of a child list

A checked batch is carried out in two passes over the real tree: one empties positions from the
highest down, destroying the removed children with their views, the other fills positions from
the lowest up. Should a pass fail midway, the tree is poisoned and refuses further edits.
-/

namespace ShadowMount.Children

open MountM

variable {κ : Type}

/-- Fails unless `index` lies below the previous position. -/
def checkDescending (previous : Option Nat) (index : Nat) : MountM κ Unit :=
  match previous with
  | some previous =>
    if previous ≤ index then throw (.contract (.unsortedRemoval index previous)) else return
  | none => return

/-- Fails unless `index` lies above the previous position. -/
def checkAscending (previous : Option Nat) (index : Nat) : MountM κ Unit :=
  match previous with
  | some previous =>
    if index ≤ previous then throw (.contract (.unsortedInsertion index previous)) else return
  | none => return

/-- Empties the scheduled positions. Answers the moves with the detached children parked. -/
def detachAll (parent : Tag) :
    (previous : Option Nat) → MovePlan → List DetachStep → MountM κ MovePlan
  | _, moves, [] => return moves
  | previous, moves, .move index entry :: rest => do
    checkDescending previous index
    let child ← onTree (Tree.detachAt parent index)
    detachAll parent (some index) (moves.park entry child) rest
  | previous, moves, .remove index :: rest => do
    checkDescending previous index
    let child ← onTree (Tree.detachAt parent index)
    let _ ← Mount.destroySubtree child
    detachAll parent (some index) moves rest
  | _, _, .collision index :: _ => throw (.contract (.indexCollision index))

/-- Fills the scheduled positions with new children and with the parked ones of `moves`. -/
def attachAll (parent : Tag) :
    (previous : Option Nat) → MovePlan → List AttachStep → MountM κ Unit
  | _, _, [] => return
  | previous, moves, .add index child :: rest => do
    checkAscending previous index
    onTree (Tree.attach parent child index)
    attachAll parent (some index) moves rest
  | previous, moves, .move index rank :: rest => do
    match moves.takeParked rank with
    | (none, _) => throw (.contract (.missingMovedChild index))
    | (some child, moves) =>
      checkAscending previous index
      onTree (Tree.attach parent child index)
      attachAll parent (some index) moves rest
  | _, _, .collision index :: _ => throw (.contract (.indexCollision index))

/-- Marks the tree as inconsistent. -/
def poisonTree : MountM κ Unit :=
  modify fun scene => { scene with tree := scene.tree.poison }

/-- Carries out a checked batch. A failure poisons the tree. -/
def carryOut (parent : Tag) (plan : EditPlan) : MountM κ Unit :=
  onFailure
    (do
      let moves ← detachAll parent none plan.moves plan.detachSchedule
      attachAll parent none moves plan.attachSchedule)
    poisonTree

/-- Applies a batch to the children of `parent`. A malformed batch is rejected before the tree is
touched. -/
def applyBatch (parent : Tag) (batch : Batch) : MountM κ Unit := do
  query (·.checkConsistent)
  let moves := batch.moveFrom.length
  let adds := batch.addTags.length
  let removes := batch.removeFrom.length
  say .debug s!"manage_children parent={parent} moves={moves} adds={adds} removes={removes}"
  tryCatch (do carryOut parent (← query (batch.plan · parent))) fun err => do
    say .error s!"rejected child edits for {parent}: {err.message}"
    throw err

/-- Attaches children one after the other, from position `index` on. -/
def attachFrom (parent : Tag) (index : Nat) : List Tag → MountM κ Unit
  | [] => return
  | child :: rest => do
    onTree (Tree.attach parent child index)
    attachFrom parent (index + 1) rest

/-- Puts `children`, in order, in front of the children of `parent`. -/
def prepend (parent : Tag) (children : List Tag) : MountM κ Unit := do
  query (·.checkConsistent)
  let _ ← node parent
  query (·.checkNewChildren parent [] children)
  onFailure (attachFrom parent 0 children) poisonTree

end ShadowMount.Children
