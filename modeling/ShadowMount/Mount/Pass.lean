import ShadowMount.Mount.Escalate

/-!
# Hierarchy passes

A pass brings every root's subtree up to date and then flushes: the pending drops join the queue,
the queue goes to the native side in order, and the frames sent since the last flush are reported
to the listener. What was enqueued before a failure is flushed all the same.

A flush is data. `Flush.deliveries` lists the calls that the native side and the listener see, in
order.
-/

namespace ShadowMount

/-- One call to the native side or to the listener of passes. -/
inductive Delivery (κ : Type) where
  /-- Execute an operation. -/
  | execute (operation : Operation κ)
  /-- The operations of one batch are complete. -/
  | endBatch
  /-- The frame of a view has changed. -/
  | frameChanged (tag : Tag) (frame : Frame κ)
  /-- A pass is complete; it flushed so many operations. -/
  | passDone (flushed : Nat)

/-- The deliveries of one batch of operations. -/
def Delivery.ofBatch {κ : Type} (operations : List (Operation κ)) : List (Delivery κ) :=
  operations.map .execute ++ [.endBatch]

/-- What one pass hands over. -/
structure Flush (κ : Type) where
  /-- The operations, in the order of their execution. -/
  operations : List (Operation κ)
  /-- The frames to report once the operations are executed. -/
  frameChanges : List (Tag × Frame κ)

namespace Flush

variable {κ : Type}

/-- The number of operations flushed. -/
def count (flush : Flush κ) : Nat := flush.operations.length

/-- The calls of a flush, in order. -/
def deliveries (flush : Flush κ) : List (Delivery κ) :=
  Delivery.ofBatch flush.operations ++
    flush.frameChanges.map (fun (tag, frame) => .frameChanged tag frame) ++
    [.passDone flush.count]

end Flush

/-- The operation that sends a pending drop. -/
def PendingDrop.operation {κ : Type} (drop : PendingDrop) : Operation κ :=
  if drop.isRoot then .dropRoot drop.tag else .drop drop.tag

namespace MountState

variable {κ : Type}

/-- Closes a pass: what has piled up is handed over and nothing waits any more. -/
def closePass (state : MountState κ) : Flush κ × MountState κ :=
  ({ operations := state.queue ++ state.drops.map PendingDrop.operation
     frameChanges := state.frameChanges },
   { state with queue := [], drops := [], frameChanges := [], passOpen := false })

/-- Hands the queued operations over, outside any pass. -/
def drainQueue (state : MountState κ) : List (Operation κ) × MountState κ :=
  (state.queue, { state with queue := [] })

end MountState

/-- The outcome of a pass: its result, the roots that were laid out first, and what was flushed,
unless the pass was refused. -/
structure PassReport (κ : Type) where
  /-- The number of flushed operations, or the error that stopped the pass. -/
  result : Except UiError Nat
  laidOut : List Tag := []
  flush : Option (Flush κ) := none

namespace Mount

open MountM

variable {κ : Type}

/-- Opens a pass. Passes do not nest. -/
def openPass : MountM κ Unit := do
  if (← get).mount.passOpen then throw .passInProgress
  else onMount ({ · with passOpen := true })

/-- Closes a pass and answers what it hands over. -/
def closePass (scene : Scene κ) : Flush κ × Scene κ :=
  let (flush, mount) := scene.mount.closePass
  (flush, { scene with mount })

/-- Brings the subtrees of all roots up to date, in order, up to the first failure. -/
def refreshRoots [Coordinate κ] : MountM κ Unit := do
  (← get).tree.roots.forM refreshSubtree

/-- Runs a whole pass over all roots. -/
def runPass [Coordinate κ] (scene : Scene κ) : PassReport κ × Scene κ :=
  match openPass scene with
  | .error err scene => ({ result := .error err }, scene)
  | .ok _ opened =>
    match refreshRoots opened with
    | .ok _ refreshed =>
      let (flush, closed) := closePass refreshed
      ({ result := .ok flush.count, flush := some flush }, closed)
    | .error err refreshed =>
      let (flush, closed) := closePass refreshed
      ({ result := .error err, flush := some flush }, closed)

end Mount

end ShadowMount
