import ShadowMount.Log
import ShadowMount.Mount.Pass

/-!
# The channel between the layout side and the native side

The layout side feeds a `Sender`, which buffers operations until their batch is complete. The
native side owns the `Channel` and drains whole batches, oldest first. A batch that arrives asks
for a frame and wakes the registered waker once, after the batch has been counted.

Wakers belong to the host. The channel knows them by a name of type `ω` and answers whom to wake.
-/

namespace ShadowMount.Native

/-- A call of the frame waker. -/
structure Wake (ω : Type) where
  waker : ω
  /-- The number of batches waiting at that moment. -/
  pending : Nat
  deriving DecidableEq

/-- The native end: batches that were delivered and not yet drained. -/
structure Channel (ω κ : Type) where
  /-- Delivered batches, oldest first. -/
  batches : List (List (Operation κ)) := []
  /-- Whether a batch has arrived since the last time this was asked. -/
  frameRequested : Bool := false
  waker : Option ω := none

/-- The layout end: the operations of the batch being built. -/
structure Sender (κ : Type) where
  buffered : List (Operation κ) := []

namespace Channel

variable {ω κ : Type}

instance : Inhabited (Channel ω κ) := ⟨{}⟩

/-- The number of batches waiting. -/
def pendingBatches (channel : Channel ω κ) : Nat := channel.batches.length

/-- Delivers a batch. Answers whom to wake. -/
def push (channel : Channel ω κ) (batch : List (Operation κ)) :
    Option (Wake ω) × Channel ω κ :=
  let delivered :=
    { channel with batches := channel.batches ++ [batch], frameRequested := true }
  (channel.waker.map (⟨·, delivered.pendingBatches⟩), delivered)

/-- Whether a batch has arrived since the last time this was asked. -/
def takeFrameRequest (channel : Channel ω κ) : Bool × Channel ω κ :=
  (channel.frameRequested, { channel with frameRequested := false })

/-- Registers a waker in place of the last one. -/
def setWaker (channel : Channel ω κ) (waker : ω) : Channel ω κ :=
  { channel with waker := some waker }

/-- Removes the waker. -/
def clearWaker (channel : Channel ω κ) : Channel ω κ := { channel with waker := none }

/-- Takes all waiting batches out. -/
def drain (channel : Channel ω κ) : List (List (Operation κ)) × Channel ω κ :=
  (channel.batches, { channel with batches := [] })

/-- A picture of the channel. -/
def describe (channel : Channel ω κ) : String :=
  s!"OperationChannel \x7b pending_batches: {channel.pendingBatches}, " ++
    s!"frame_requested: {channel.frameRequested} \x7d"

end Channel

/-- The deliveries of drained batches, each batch closed. -/
def drainDeliveries {κ : Type} (batches : List (List (Operation κ))) : List (Delivery κ) :=
  batches.flatMap Delivery.ofBatch

/-- The number of operations in drained batches. -/
def drainedCount {κ : Type} (batches : List (List (Operation κ))) : Nat :=
  batches.flatten.length

/-- What draining logs: nothing if there was nothing to execute. -/
def drainLog {κ : Type} (batches : List (List (Operation κ))) : List Log.Line :=
  let executed := drainedCount batches
  if executed = 0 then []
  else [⟨.trace, s!"executed {executed} view operations on the UI context"⟩]

namespace Sender

variable {ω κ : Type}

instance : Inhabited (Sender κ) := ⟨{}⟩

/-- Adds an operation to the batch being built. -/
def execute (sender : Sender κ) (operation : Operation κ) : Sender κ :=
  { sender with buffered := sender.buffered ++ [operation] }

/-- Delivers the batch being built, be it empty, and starts the next. -/
def endBatch (sender : Sender κ) (channel : Channel ω κ) :
    Option (Wake ω) × Sender κ × Channel ω κ :=
  let (wake, channel) := channel.push sender.buffered
  (wake, {}, channel)

/-- A picture of the sender. -/
def describe (sender : Sender κ) : String :=
  s!"OperationSender \x7b buffered: {sender.buffered.length} \x7d"

end Sender

end ShadowMount.Native
