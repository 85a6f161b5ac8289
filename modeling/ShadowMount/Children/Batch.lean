import ShadowMount.Error

/-!
# Edit batches

One batch rearranges the children of one node. It names positions in two lists: moves and
removals take children from positions of the list before the batch, moves and additions put
children at positions of the list after it. None of the arrays has to be sorted.

`Batch.onList` says what a batch means for a list of children, one step after the other and
without regard for anything else: it is the measure against which the real edit is held.
-/

namespace ShadowMount

/-- The elements in ascending order of their keys; those with equal keys keep their order. -/
def sortOn {α : Type} (key : α → Nat) (xs : List α) : List α :=
  xs.mergeSort fun a b => key a ≤ key b

@[simp] theorem sortOn_nil {α : Type} (key : α → Nat) : sortOn key [] = [] :=
  List.mergeSort_nil

theorem sortOn_perm {α : Type} (key : α → Nat) (xs : List α) : (sortOn key xs).Perm xs :=
  List.mergeSort_perm ..

theorem pairwise_sortOn {α : Type} (key : α → Nat) (xs : List α) :
    (sortOn key xs).Pairwise fun a b => key a ≤ key b := by
  have hsorted := @List.pairwise_mergeSort _ (fun a b => decide (key a ≤ key b))
    (fun a b c => by simpa using Nat.le_trans) (fun a b => by simpa using Nat.le_total _ _) xs
  exact hsorted.imp of_decide_eq_true

/-- The five arrays of one edit of a child list. -/
structure Batch where
  /-- Positions, before the batch, of the children to move. -/
  moveFrom : List Nat := []
  /-- Positions, after the batch, of the moved children, in the order of `moveFrom`. -/
  moveTo : List Nat := []
  /-- The children to add. -/
  addTags : List Tag := []
  /-- Positions, after the batch, of the added children, in the order of `addTags`. -/
  addAt : List Nat := []
  /-- Positions, before the batch, of the children to destroy. -/
  removeFrom : List Nat := []
  deriving DecidableEq, Inhabited

namespace Batch

/-- Whether the batch asks for nothing. -/
def isEmpty (batch : Batch) : Bool :=
  batch.moveFrom.isEmpty && batch.moveTo.isEmpty && batch.addTags.isEmpty &&
    batch.addAt.isEmpty && batch.removeFrom.isEmpty

/-- Removes the element at an index of the list. -/
def removeAt? (list : List Tag) (index : Nat) : Option (List Tag) :=
  if index < list.length then some (list.eraseIdx index) else none

/-- Inserts an element at an index of the list, its end included. -/
def insertAt? (list : List Tag) (entry : Nat × Tag) : Option (List Tag) :=
  if entry.1 ≤ list.length then some (list.insertIdx entry.1 entry.2) else none

/-- The moved children with their targets. Arrays of unequal length count up to the shorter. -/
def movedEntries? (batch : Batch) (children : List Tag) : Option (List (Nat × Tag)) :=
  (batch.moveTo.zip batch.moveFrom).mapM fun (target, source) =>
    (target, ·) <$> children[source]?

/-- The child list after the batch: the moved and removed positions are emptied from the highest
down, then the moved and added children are inserted from the lowest position up. There is no
answer if a position lies outside the list it is used on. -/
def onList (batch : Batch) (children : List Tag) : Option (List Tag) := do
  let detached := (sortOn id (batch.moveFrom ++ batch.removeFrom)).reverse
  let remaining ← detached.foldlM removeAt? children
  let moved ← batch.movedEntries? children
  let inserted := sortOn Prod.fst (moved ++ batch.addAt.zip batch.addTags)
  inserted.foldlM insertAt? remaining

end Batch

end ShadowMount
