import Av1Transport.Proofs.Rtp.PacketRoundTrip
import Av1Transport.Rtp.Sender

/-! The packets of a sender.
Main statements: a packet that is sent leaves its payload the bytes of the budget and is read
back with a payload type of seven bits; the payloads of a frame take one number after another, and the
marker is set on the last packet of a frame alone.
-/

namespace Av1Transport.Rtp

/-- The packet with the part of its payload type that fits the header. -/
def Packet.masked (packet : Packet) : Packet :=
  { packet with
    header :=
      { packet.header with
        payloadType := UInt8.ofNat (packet.header.payloadType.toNat % 128) } }

namespace Sender

/-- A packet that is sent can be written and is read back. Witness: its header has nothing but
fixed fields and at most fifteen sources.
-/
theorem exists_toBytes_packet (sender : Sender) (number : UInt16) (marker : Bool) (payload : Bytes)
    : ∃ bytes,
        (sender.packet number marker payload).toBytes = .ok bytes
        ∧ bytes.length = fixedLength + 4 * sender.csrcs.length + payload.length
        ∧ Packet.parse bytes = .ok (sender.packet number marker payload).masked := by
  have valid : (sender.packet number marker payload).header.check = .ok () := by
    rw [Header.check_eq_ok_iff]
    exact ⟨sender.csrcs_le, fun extended => by cases extended⟩
  obtain ⟨front, header⟩ := Header.exists_toBytesWith valid
    ((sender.packet number marker payload).header.paddingSize != 0)
  have written := Packet.toBytes_eq_ok_iff.mpr ⟨front, header, rfl⟩
  refine ⟨_, written, ?_, Packet.parse_of_toBytes written⟩
  rw [Packet.length_of_toBytes written]
  rfl

-----------------------------------------------------------------------------------------
-- Payload by payload
-----------------------------------------------------------------------------------------

section

variable (sender : Sender) (last : Nat)

/-- The first payload takes a number, and the others take theirs from the numbers after it. -/
theorem run_packets_cons (entry : Bytes × Nat) (payloads : List (Bytes × Nat))
    (sequencer : Sequencer)
    : (sender.packets last (entry :: payloads)).run sequencer
      = let later := (sender.packets last payloads).run sequencer.take.2
        (sender.packet sequencer.take.1 (entry.2 == last) entry.1 :: later.1, later.2) := by
  simp only [packets, List.mapM_cons, StateT.run_bind]
  rfl

variable (payloads : List (Bytes × Nat)) (sequencer : Sequencer)

/-- The payloads take one number after another, by induction on them: a payload takes the next
number and leaves the one after it to the others.
-/
theorem run_packets
    : (sender.packets last payloads).run sequencer
      = (((List.range' sequencer.next.value payloads.length).zip payloads).map fun slot =>
          sender.packet (UInt16.ofNat slot.1) (slot.2.2 == last) slot.2.1,
        ⟨⟨sequencer.next.value + payloads.length⟩⟩) := by
  induction payloads generalizing sequencer with
  | nil => rfl
  | cons entry payloads ih =>
      rw [run_packets_cons, ih, List.length_cons, List.range'_succ, List.zip_cons_cons,
        List.map_cons, Nat.add_comm payloads.length, ← Nat.add_assoc]
      rfl

/-- What packets have from their payloads alone is in the order of the payloads. -/
theorem map_packets {β : Type} {f : Packet → β} {g : Bytes × Nat → β}
    (same : ∀ number entry, f (sender.packet number (entry.2 == last) entry.1) = g entry)
    : ((sender.packets last payloads).run sequencer).1.map f = payloads.map g := by
  have entries
      : ((List.range' sequencer.next.value payloads.length).zip payloads).map Prod.snd
        = payloads :=
    List.map_snd_zip (Nat.le_of_eq List.length_range'.symm)
  rw [run_packets, List.map_map, ← congrArg (List.map g) entries, List.map_map]
  exact List.map_congr_left fun slot _ => same _ slot.2

theorem payloads_packets
    : ((sender.packets last payloads).run sequencer).1.map Packet.payload
      = payloads.map Prod.fst :=
  sender.map_packets last payloads sequencer fun _ _ => rfl

/-- The payload at the last index is marked. -/
theorem markers_packets
    : ((sender.packets last payloads).run sequencer).1.map (fun packet => packet.header.marker)
      = payloads.map fun entry => entry.2 == last :=
  sender.map_packets last payloads sequencer fun _ _ => rfl

theorem sequenceNumbers_packets
    : ((sender.packets last payloads).run sequencer).1.map
          (fun packet => packet.header.sequenceNumber)
        = (List.range' sequencer.next.value payloads.length).map UInt16.ofNat := by
  have numbers
      : ((List.range' sequencer.next.value payloads.length).zip payloads).map Prod.fst
        = List.range' sequencer.next.value payloads.length :=
    List.map_fst_zip (Nat.le_of_eq List.length_range')
  rw [run_packets, List.map_map, ← congrArg (List.map UInt16.ofNat) numbers, List.map_map]
  rfl

/-- Every packet is the sender's for one of the payloads. -/
theorem exists_payload_of_mem_packets {packet : Packet}
    (member : packet ∈ ((sender.packets last payloads).run sequencer).1)
    : ∃ number marker,
      ∃ entry ∈ payloads, packet = sender.packet number marker entry.1 := by
  rw [run_packets] at member
  obtain ⟨slot, listed, rfl⟩ := List.mem_map.mp member
  exact ⟨_, _, slot.2, (List.of_mem_zip listed).2, rfl⟩

end

-----------------------------------------------------------------------------------------
-- The packets of one frame
-----------------------------------------------------------------------------------------

variable {sender : Sender} {payloads : List Bytes} {samples : UInt32}

theorem payloads_send (sender : Sender) (payloads : List Bytes) (samples : UInt32)
    : (sender.send payloads samples).1.map Packet.payload = payloads :=
  (sender.payloads_packets _ _ _).trans (List.zipIdx_map_fst 0 payloads)

theorem exists_payload_of_mem_send {packet : Packet}
    (member : packet ∈ (sender.send payloads samples).1)
    : ∃ number marker,
      ∃ payload ∈ payloads, packet = sender.packet number marker payload := by
  obtain ⟨number, marker, entry, listed, rfl⟩ := exists_payload_of_mem_packets sender _ _ _ member
  exact ⟨number, marker, entry.1, List.fst_mem_of_mem_zipIdx listed, rfl⟩

@[simp]
theorem length_send (sender : Sender) (payloads : List Bytes) (samples : UInt32)
    : (sender.send payloads samples).1.length = payloads.length := by
  rw [← List.length_map (f := Packet.payload), payloads_send]

theorem timestamp_of_mem_send {packet : Packet}
    (member : packet ∈ (sender.send payloads samples).1)
    : packet.header.timestamp = sender.timestamp := by
  obtain ⟨number, marker, payload, -, rfl⟩ := exists_payload_of_mem_send member
  rfl

/-- The packets of a frame are numbered one after another, from the next number on. -/
theorem sequenceNumbers_send (sender : Sender) (payloads : List Bytes) (samples : UInt32)
    : (sender.send payloads samples).1.map (fun packet => packet.header.sequenceNumber)
      = (List.range' sender.sequencer.next.value payloads.length).map UInt16.ofNat := by
  have numbers := sender.sequenceNumbers_packets (payloads.length - 1) payloads.zipIdx
    sender.sequencer
  rwa [List.length_zipIdx] at numbers

/-- The number after those of a frame is as many steps on as the frame has packets. -/
theorem value_send (sender : Sender) (payloads : List Bytes) (samples : UInt32)
    : (sender.send payloads samples).2.sequencer.next.value
      = sender.sequencer.next.value + payloads.length := by
  have taken := sender.run_packets (payloads.length - 1) payloads.zipIdx sender.sequencer
  rw [List.length_zipIdx] at taken
  exact congrArg (fun result => result.2.next.value) taken

/-- The last packet of a frame is marked, and no other is. Witness: the packets are marked where
their index is that of the last payload.
-/
theorem marker_of_send_eq_append {front : List Packet} {last : Packet}
    (sent : (sender.send payloads samples).1 = front ++ [last])
    : last.header.marker = true ∧ ∀ packet ∈ front, packet.header.marker = false := by
  have count : payloads.length = front.length + 1 := by
    rw [← sender.length_send payloads samples, sent, List.length_append, List.length_singleton]
  have indices := List.zipIdx_map_snd 0 payloads
  have marks
      : (sender.send payloads samples).1.map (fun packet => packet.header.marker)
        = payloads.zipIdx.map fun entry => entry.2 == payloads.length - 1 :=
    sender.markers_packets _ _ _
  rw [← Function.comp_def (· == payloads.length - 1) Prod.snd, ← List.map_map, indices, sent,
    count, Nat.add_sub_cancel, List.range'_1_concat, List.map_append, List.map_append] at marks
  obtain ⟨earlier, final⟩ := List.append_inj' marks rfl
  refine ⟨?_, ?_⟩
  · simpa using final
  · intro packet member
    have mark := List.mem_map_of_mem (f := fun packet => packet.header.marker) member
    rw [earlier] at mark
    obtain ⟨index, bound, same⟩ := List.mem_map.mp mark
    have inside := (List.mem_range'_1.mp bound).2
    rw [← same, beq_eq_false_iff_ne]
    omega

end Sender

end Av1Transport.Rtp
