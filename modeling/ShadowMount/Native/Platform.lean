import ShadowMount.Native.Channel
import ShadowMount.Native.Hierarchy

/-!
# The native side of a host

A host has one view hierarchy, one channel and one sender that feeds the channel. Deliveries go
either straight to the hierarchy or through the sender; in between, the host may drain the
channel.
-/

namespace ShadowMount.Native

/-- Where deliveries go. -/
inductive Route where
  /-- Straight to the view hierarchy. -/
  | hierarchy
  /-- To the sender of the channel. -/
  | channel
  deriving DecidableEq, Inhabited

/-- The view hierarchy and the channel of a host. -/
structure Platform (ω κ : Type) where
  hierarchy : Hierarchy κ := {}
  channel : Channel ω κ := {}
  sender : Sender κ := {}

namespace Platform

variable {ω κ : Type}

instance : Inhabited (Platform ω κ) := ⟨{}⟩

/-- Hands a delivery over. Answers whom to wake. -/
def deliver (platform : Platform ω κ) (route : Route) (delivery : Delivery κ) :
    Option (Wake ω) × Platform ω κ :=
  match route, delivery with
  | .hierarchy, delivery =>
    (none, { platform with hierarchy := platform.hierarchy.receive delivery })
  | .channel, .execute operation =>
    (none, { platform with sender := platform.sender.execute operation })
  | .channel, .endBatch =>
    let (wake, sender, channel) := platform.sender.endBatch platform.channel
    (wake, { platform with sender, channel })
  | .channel, .frameChanged .. | .channel, .passDone .. => (none, platform)

/-- Hands deliveries over one after the other. Answers each with whom it woke. -/
def deliverAll (platform : Platform ω κ) (route : Route) :
    List (Delivery κ) → List (Delivery κ × Option (Wake ω)) × Platform ω κ
  | [] => ([], platform)
  | delivery :: rest =>
    let (wake, handed) := platform.deliver route delivery
    let (woken, final) := handed.deliverAll route rest
    ((delivery, wake) :: woken, final)

/-- Takes the waiting batches out of the channel. -/
def drain (platform : Platform ω κ) : List (List (Operation κ)) × Platform ω κ :=
  let (batches, channel) := platform.channel.drain
  (batches, { platform with channel })

end Platform

end ShadowMount.Native
