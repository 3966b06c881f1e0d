import Av1Transport.Proofs.Aggregation.FramePackets
import Av1Transport.Proofs.Reassembly.StreamRuns

/-! Frames that are packed, sent in order and put together again.
Main statement: a receiver that is given the packets of a frame stores the units of the frame that
are sent over RTP, each with its size, and then waits for nothing.
-/

namespace Av1Transport.Reassembly

open Av1Transport.Aggregation

/-- The units of a frame that are sent, in stream order. -/
def transmitted (frame : Bytes) : List Obu :=
  (Obu.split frame).values.filter Obu.isTransmitted

/-- No unit of the frame that is cut to be sent is longer than a receiver lets a cut unit become. -/
def FragmentsFit (mtu : Nat) (frame : Bytes) : Prop :=
  ∀ obu ∈ transmitted frame, mtu - 1 < obu.bareLength → obu.bareLength ≤ maxPendingSize

theorem fragmentsFit_of_length_le {frame : Bytes} (short : frame.length ≤ maxPendingSize)
    (mtu : Nat)
    : FragmentsFit mtu frame :=
  fun _ member _ =>
    Nat.le_trans (Obu.bareLength_le_of_mem_split (List.mem_filter.mp member).1) short

theorem sendable_of_mem_transmitted {frame : Bytes} {obu : Obu}
    (member : obu ∈ transmitted frame)
    : Sendable obu := by
  obtain ⟨listed, kind⟩ := List.mem_filter.mp member
  exact ⟨Obu.fitted_of_mem_split listed, kind⟩

namespace StreamReceiver

/-- The packets of a group yield its units, whatever was pending before, by cases on the group. -/
theorem yields_group {mtu : Nat} (room : 2 ≤ mtu) (addressable : mtu < UInt64.size) {group : Group}
    (fits : group.Fits mtu) (sendable : ∀ obu ∈ group.obus, Sendable obu)
    (capped : ∀ obu ∈ group.obus, mtu - 1 < obu.bareLength → obu.bareLength ≤ maxPendingSize)
    (receiver : StreamReceiver)
    : receiver.Yields ((group.packets mtu).map Packet.toBytes) (Obu.joinBytes group.obus)
        initial := by
  cases group with
  | bundle obus =>
      obtain ⟨present, short, _⟩ := fits
      exact yields_packet present
        (fun obu member => Nat.lt_trans (short obu member) addressable) sendable receiver
  | fragments obu =>
      have long : mtu ≤ obu.bareLength := fits
      have single : obu ∈ (Group.fragments obu).obus := List.mem_singleton.mpr rfl
      have run := yields_fragmentPackets (sendable obu single) room long
        (capped obu single (by omega)) receiver
      simpa [Group.packets, Group.obus, Obu.joinBytes] using run

/-- The packets of a frame yield the units of the frame that are sent, group by group. -/
theorem yields_packetize {mtu : Nat} (room : 2 ≤ mtu) (addressable : mtu < UInt64.size)
    {frame : Bytes} (capped : FragmentsFit mtu frame)
    : initial.Yields (packetize mtu frame).payloads (Obu.joinBytes (transmitted frame))
        initial := by
  refine packetize_induction room frame
    (motive := fun packets obus =>
      initial.Yields (packets.map Packet.toBytes) (Obu.joinBytes obus) initial)
    (yields_nil initial) ?_ ?_
  · intro packets more obus others first later
    have run := first.append later
    rwa [← List.map_append, Obu.joinBytes, Obu.joinBytes, ← List.flatMap_append] at run
  · intro group fits units
    have sent (obu : Obu) (member : obu ∈ group.obus) : obu ∈ transmitted frame :=
      List.mem_filter.mpr (units obu member)
    exact yields_group room addressable fits
      (fun obu member => sendable_of_mem_transmitted (sent obu member))
      (fun obu member => capped obu (sent obu member)) initial

/-- A new receiver accepts every packet of a frame. What it gives for them is, byte for byte, the
units in front of the first failure that are sent, each with its size; nothing stays pending.
-/
theorem receiveAll_packetize {mtu : Nat} (room : 2 ≤ mtu) (addressable : mtu < UInt64.size)
    {frame : Bytes} (capped : FragmentsFit mtu frame)
    : ∃ outputs : List Chunked,
        initial.receiveAll (packetize mtu frame).payloads = (outputs.map .ok, initial)
        ∧ outputs.flatMap Chunked.bytes
          = Obu.joinBytes ((Obu.split frame).values.filter Obu.isTransmitted) :=
  yields_packetize room addressable capped

/-- A frame with a delimiter, a sequence header, a layered frame that is cut and bytes that are no
unit: the delimiter is left out, the rest up to the failure is stored as it was.
-/
theorem receiveAll_packetize_layered
    : let frame : Bytes := [0x12, 0, 0x0A, 1, 0xAA, 0x36, 8, 3, 1, 2, 3, 0x80]
      FragmentsFit 3 frame
      ∧ (packetize 3 frame).payloads.length = 4
      ∧ ∃ outputs : List Chunked,
          initial.receiveAll (packetize 3 frame).payloads = (outputs.map .ok, initial)
          ∧ outputs.flatMap Chunked.bytes = [0x0A, 1, 0xAA, 0x36, 8, 3, 1, 2, 3] := by
  intro frame
  have capped : FragmentsFit 3 frame := fragmentsFit_of_length_le (by decide) 3
  obtain ⟨outputs, results, stored⟩ := receiveAll_packetize (by decide) (by decide) capped
  refine ⟨capped, by decide +kernel, outputs, results, stored.trans ?_⟩
  decide +kernel

end StreamReceiver

end Av1Transport.Reassembly
