import Av1Transport.Proofs.Aggregation.FramePackets
import Av1Transport.Proofs.Aggregation.GroupBoundaries
import Av1Transport.Proofs.Obu.StreamUnits

/-! Frames packed in one go and one after the other.
Main statement: nothing of a frame is carried over a temporal delimiter, the start of a coded video
sequence or the end of what can be read, so that the packets of two frames are those of their bytes
back to back.
-/

namespace Av1Transport.Aggregation

open Grouping

variable {mtu : Nat}

/-- The unit ends the packet in front of it, whatever that holds. -/
def EndsPacket (obu : Obu) : Prop :=
  obu.header.kind = .temporalDelimiter ∨ obu.header.kind = .sequenceHeader

/-- A unit that ends the packet in front of it closes the bundle, by cases on its kind. -/
theorem add_close_of_endsPacket {obu : Obu} (ends : EndsPacket obu) (grouping : Grouping)
    : add mtu grouping obu = add mtu grouping.close obu := by
  rcases ends with delimiter | sequence
  · exact add_close_of_delimiter delimiter
  · exact add_close_of_isTransmitted (Obu.isTransmitted_of_sequenceHeader sequence)
      (Bundle.admits_of_sequenceHeader sequence)

/-- Units behind one that ends the packet in front of it are grouped on their own. -/
theorem groups_append {front back : List Obu} (ends : ∀ obu ∈ back.head?, EndsPacket obu)
    : groups mtu (front ++ back) = groups mtu front ++ groups mtu back := by
  cases back with
  | nil =>
      have none : groups mtu [] = [] := rfl
      rw [none, List.append_nil, List.append_nil]
  | cons obu later =>
      exact groups_append_of_add_close (add_close_of_endsPacket (ends obu rfl) _)

/-- The first unit of a stream is the one read off its front. -/
theorem endsPacket_of_mem_head?_split {bytes : Bytes}
    (opens : ∀ obu count, Obu.parse bytes = .ok (obu, count) → EndsPacket obu)
    : ∀ obu ∈ (Obu.split bytes).values.head?, EndsPacket obu := by
  intro obu first
  by_cases empty : bytes = []
  · subst empty
    simp [Obu.split, Reading.values] at first
  · cases read : Obu.parse bytes with
    | error failure =>
        rw [Obu.split, readAll_error empty read] at first
        cases first
    | ok found =>
        rw [Obu.split_of_parse empty read] at first
        cases first
        exact opens _ _ read

/-- Bytes that start with a unit that ends the packet in front of it, or with no unit, are packed on
their own behind a stream of units with sizes. Witness: their groups are.
-/
theorem packetize_append (room : 2 ≤ mtu) {front back : Bytes}
    (whole : (Obu.split front).failure = none)
    (sized : ∀ obu ∈ (Obu.split front).values, obu.header.hasSize = true)
    (opens : ∀ obu count, Obu.parse back = .ok (obu, count) → EndsPacket obu)
    : packetize mtu (front ++ back)
      = ⟨(packetize mtu front).packets ++ (packetize mtu back).packets,
        (packetize mtu back).failure⟩ := by
  have stream := Obu.split_append whole sized back
  have units
      : (Obu.split (front ++ back)).values
        = (Obu.split front).values ++ (Obu.split back).values := by
    rw [stream, Reading.values, List.map_append]
    rfl
  have packets
      : (packetize mtu (front ++ back)).packets
        = (packetize mtu front).packets ++ (packetize mtu back).packets := by
    rw [packets_packetize room, packets_packetize room, packets_packetize room, units,
      groups_append (endsPacket_of_mem_head?_split opens), List.flatMap_append]
  have failure : (packetize mtu (front ++ back)).failure = (packetize mtu back).failure := by
    rw [failure_packetize room, failure_packetize room, stream]
  rw [← packets, ← failure]

/-- Two frames back to back. Behind a stream of units with sizes, bytes that start with a temporal
delimiter, with a sequence header or with no unit are packed on their own, and what goes wrong in
them is what goes wrong in both. So of a frame that cannot be read to its end the packets are those
of the units in front of the failure, and these are sent.
-/
theorem concatenation_packetize (room : 2 ≤ mtu)
    : (∀ front back,
        (Obu.split front).failure = none
        → (∀ obu ∈ (Obu.split front).values, obu.header.hasSize = true)
        → (∀ obu count,
            Obu.parse back = .ok (obu, count)
            → obu.header.kind = .temporalDelimiter ∨ obu.header.kind = .sequenceHeader)
        → packetize mtu (front ++ back)
            = ⟨(packetize mtu front).packets ++ (packetize mtu back).packets,
              (packetize mtu back).failure⟩
          ∧ (packetize mtu (front ++ back)).payloads
            = (packetize mtu front).payloads ++ (packetize mtu back).payloads)
      ∧ ∀ frame failure,
          (Obu.split frame).failure = some failure
          → ∃ front back,
              frame = front ++ back
              ∧ (Obu.split front).failure = none
              ∧ (Obu.split front).values = (Obu.split frame).values
              ∧ Obu.parse back = .error failure
              ∧ packetize mtu front = ⟨(packetize mtu front).packets, none⟩
              ∧ packetize mtu frame = ⟨(packetize mtu front).packets, some failure⟩
              ∧ (packetize mtu frame).payloads = (packetize mtu front).payloads := by
  constructor
  · intro front back whole sized opens
    have packed := packetize_append room whole sized opens
    refine ⟨packed, ?_⟩
    rw [packed, Packetization.payloads, List.map_append]
    rfl
  · intro frame failure fails
    obtain ⟨front, back, rfl, whole, values, sized, remains, failed⟩ :=
      Obu.exists_whole_prefix fails
    have nothing : Obu.split back = ⟨[], some failure⟩ := readAll_error remains failed
    have none : (packetize mtu back).packets = [] := by
      rw [packets_packetize room, nothing]
      rfl
    have packed := packetize_append room whole sized
      (show ∀ obu count, Obu.parse back = .ok (obu, count) → EndsPacket obu by simp [failed])
    rw [none, List.append_nil, failure_packetize room back, nothing] at packed
    refine ⟨front, back, rfl, whole, values, failed, ?_, packed, ?_⟩
    · rw [← whole, ← failure_packetize room]
    · rw [packed]
      rfl

/-- A sequence header, and a frame that is said to be longer than the bytes that are left. -/
def brokenSequence : Bytes :=
  [0x0A, 1, 0x0C, 0x32, 5, 0xBB]

/-- Behind a whole frame the packets are those of both, the second of which announces the sequence,
and of the bytes that cannot be read to their end the sequence header is sent.
-/
theorem concatenation_packetize_broken
    : (packetize 100 ([0x32, 1, 0xAA] ++ brokenSequence)).payloads
        = [[0x10, 0x30, 0xAA], [0x18, 0x08, 0x0C]]
      ∧ (packetize 100 ([0x32, 1, 0xAA] ++ brokenSequence)).failure
        = some (.sizeExceedsBuffer 5 1)
      ∧ ∃ front back,
          brokenSequence = front ++ back
          ∧ Obu.parse back = .error (.sizeExceedsBuffer 5 1)
          ∧ (packetize 100 brokenSequence).payloads = (packetize 100 front).payloads := by
  obtain ⟨append, cut⟩ := concatenation_packetize (show 2 ≤ 100 by decide)
  have opens (obu : Obu) (count : Nat) (read : Obu.parse brokenSequence = .ok (obu, count))
      : obu.header.kind = .temporalDelimiter ∨ obu.header.kind = .sequenceHeader := by
    cases read
    exact .inr rfl
  obtain ⟨packed, payloads⟩ :=
    append [0x32, 1, 0xAA] brokenSequence (by decide +kernel) (by decide +kernel) opens
  obtain ⟨front, back, split, _, _, failed, _, _, sent⟩ :=
    cut brokenSequence (.sizeExceedsBuffer 5 1) (by decide +kernel)
  refine ⟨?_, ?_, front, back, split, failed, sent⟩
  · rw [payloads]
    decide +kernel
  · rw [packed]
    decide +kernel

end Av1Transport.Aggregation
