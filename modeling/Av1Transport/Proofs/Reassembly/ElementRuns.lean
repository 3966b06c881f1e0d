import Av1Transport.Proofs.Reassembly.RoundTrip
import Av1Transport.Reassembly

/-! Runs of the element receiver over the packets of a frame.
A step lemma says what each kind of packet does to the pending parts; the runs follow the units of a
bundle and the parts of a cut unit. Main statement: a receiver that is given the packets of a frame
gives one element for each unit that is sent, as it was sent, and then waits for nothing.
-/

namespace Av1Transport.Reassembly

open Av1Transport.Aggregation

-----------------------------------------------------------------------------------------
-- Single elements
-----------------------------------------------------------------------------------------

namespace ElementProgress

/-- The element of a unit that is sent goes to the output: its first byte says the unit's kind. -/
theorem emit_bareBytes {obu : Obu} (sendable : Sendable obu) {element : Chunked}
    (whole : element.bytes = obu.bareBytes) (progress : ElementProgress)
    : progress.emit element = { progress with elements := progress.elements.push element } := by
  obtain ⟨first, rest, bytes, kind⟩ := Obu.kind_of_bareBytes sendable.fitted
  have start : (element.take 1).bytes = [first] := by
    rw [Chunked.bytes_take, whole, bytes]
    rfl
  have sent : (Obu.Header.kindOfByte first).isTransmitted = true :=
    kind ▸ sendable.transmitted
  simp only [emit, start, sent, if_true]

/-- Whole units go to the output one after the other, by induction on the units. -/
theorem foldl_absorb_whole {obus : List Obu} (sendable : ∀ obu ∈ obus, Sendable obu)
    (progress : ElementProgress)
    : (obus.map fun obu => (⟨obu.bareBytes, false, false⟩ : Piece)).foldl absorb progress
      = { progress with
          elements := progress.elements
            ++ (obus.map fun obu => Chunked.ofBytes obu.bareBytes).toArray } := by
  induction obus generalizing progress with
  | nil => simp
  | cons obu obus ih =>
      have first := emit_bareBytes (sendable obu List.mem_cons_self)
        (Chunked.bytes_ofBytes obu.bareBytes) progress
      have absorbed
          : progress.absorb ⟨obu.bareBytes, false, false⟩
            = progress.emit (.ofBytes obu.bareBytes) :=
        rfl
      rw [List.map_cons, List.foldl_cons, absorbed, first,
        ih fun next member => sendable next (List.mem_cons_of_mem _ member)]
      simp

end ElementProgress

-----------------------------------------------------------------------------------------
-- Runs that give elements
-----------------------------------------------------------------------------------------

namespace ElementReceiver

/-- The receiver gives these elements for the packets, in order, and is left as `last`. -/
def Gives (receiver : ElementReceiver) (packets : List Packet) (elements : List Bytes)
    (last : ElementReceiver)
    : Prop :=
  ∃ outputs : List (List Chunked),
    receiver.receiveAll packets = (outputs, last)
    ∧ outputs.flatten.map Chunked.bytes = elements

variable {receiver middle last : ElementReceiver} {packets later : List Packet}
  {elements more : List Bytes}

theorem gives_nil (receiver : ElementReceiver) : receiver.Gives [] [] receiver :=
  ⟨[], rfl, rfl⟩

theorem Gives.cons {packet : Packet} {output : List Chunked}
    (received : receiver.receive packet = (output, middle))
    (run : middle.Gives packets elements last)
    : receiver.Gives (packet :: packets) (output.map Chunked.bytes ++ elements) last := by
  obtain ⟨outputs, results, joined⟩ := run
  exact ⟨output :: outputs, by simp [receiveAll, received, results], by simp [← joined]⟩

/-- The answers to a longer run are those to its parts, by induction on the first part. -/
theorem receiveAll_append (receiver : ElementReceiver) (packets later : List Packet)
    : receiver.receiveAll (packets ++ later)
      = ((receiver.receiveAll packets).1
          ++ ((receiver.receiveAll packets).2.receiveAll later).1,
        ((receiver.receiveAll packets).2.receiveAll later).2) := by
  induction packets generalizing receiver with
  | nil => rfl
  | cons packet packets ih => simp [receiveAll, ih]

theorem Gives.append (run : receiver.Gives packets elements middle)
    (next : middle.Gives later more last)
    : receiver.Gives (packets ++ later) (elements ++ more) last := by
  obtain ⟨outputs, results, joined⟩ := run
  obtain ⟨outputs', results', joined'⟩ := next
  refine ⟨outputs ++ outputs', ?_, ?_⟩
  · rw [receiveAll_append, results, results']
  · rw [List.flatten_append, List.map_append, joined, joined']

-----------------------------------------------------------------------------------------
-- Groups
-----------------------------------------------------------------------------------------

/-- A packet of whole units gives their elements, and leaves nothing pending, whatever was pending
before.
-/
theorem gives_packet {obus : List Obu} (sendable : ∀ obu ∈ obus, Sendable obu)
    (receiver : ElementReceiver)
    : receiver.Gives [Bundle.packet obus] (obus.map Obu.bareBytes) initial := by
  have received
      : receiver.receive (Bundle.packet obus)
        = (obus.map fun obu => Chunked.ofBytes obu.bareBytes, initial) := by
    unfold receive
    rw [Bundle.pieces_packet, ElementProgress.foldl_absorb_whole sendable]
    simp only [Array.empty_append]
    rfl
  have run := Gives.cons received (gives_nil _)
  simpa [Function.comp_def] using run

/-- The first part of a unit is kept, and nothing else of what was pending before. -/
theorem receive_first_part (receiver : ElementReceiver) (startsSequence : Bool) (part : Bytes)
    : receiver.receive (Group.partPacket false true startsSequence part)
      = ([], ⟨some (.ofBytes part)⟩) := by
  unfold receive
  rw [Group.pieces_partPacket]
  rfl

section Parts

variable {pending : Chunked} {part : Bytes}

/-- A further part of a unit joins the parts before it. -/
theorem receive_middle_part (capped : pending.bytes.length + part.length ≤ maxPendingSize)
    : receive ⟨some pending⟩ (Group.partPacket true true false part)
      = ([], ⟨some (pending.push part)⟩) := by
  have short : ¬ maxPendingSize < (pending.push part).size := by
    rw [Chunked.size_eq_length, Chunked.bytes_push, List.length_append]
    exact Nat.not_lt.mpr capped
  unfold receive
  rw [Group.pieces_partPacket]
  simp [pendingFor, Group.partPacket, ElementProgress.absorb, short]

/-- The last part of a unit completes its element. -/
theorem receive_last_part {obu : Obu} (sendable : Sendable obu)
    (capped : obu.bareLength ≤ maxPendingSize) (whole : pending.bytes ++ part = obu.bareBytes)
    : receive ⟨some pending⟩ (Group.partPacket true false false part)
      = ([pending.push part], initial) := by
  have joined : (pending.push part).bytes = obu.bareBytes := by
    rw [Chunked.bytes_push, whole]
  have short : ¬ maxPendingSize < (pending.push part).size := by
    rw [Chunked.size_eq_length, joined, Obu.length_bareBytes]
    exact Nat.not_lt.mpr capped
  have given := ElementProgress.emit_bareBytes sendable joined ⟨none, #[]⟩
  unfold receive
  rw [Group.pieces_partPacket]
  simp [pendingFor, Group.partPacket, ElementProgress.absorb, short, given, initial]

end Parts

/-- The parts that are left of a unit complete its element. Witness: induction on the parts; the
pending bytes and the parts to come are the element throughout.
-/
theorem gives_continuationPackets {obu : Obu} (sendable : Sendable obu)
    (capped : obu.bareLength ≤ maxPendingSize) {pending : Chunked} {parts : List Bytes}
    (remaining : parts ≠ []) (whole : pending.bytes ++ parts.flatten = obu.bareBytes)
    : Gives ⟨some pending⟩ (Group.continuationPackets parts) [obu.bareBytes] initial := by
  induction parts generalizing pending with
  | nil => exact absurd rfl remaining
  | cons part parts ih =>
      cases parts with
      | nil =>
          rw [List.flatten_cons, List.flatten_nil, List.append_nil] at whole
          have run := Gives.cons (receive_last_part sendable capped whole) (gives_nil _)
          rwa [List.map_singleton, Chunked.bytes_push, whole] at run
      | cons next parts =>
          have length := congrArg List.length whole
          simp only [List.length_append, List.flatten_cons, Obu.length_bareBytes] at length
          have received
              : receive ⟨some pending⟩ (Group.partPacket true true false part)
                = ([], ⟨some (pending.push part)⟩) :=
            receive_middle_part (by omega)
          have joined
              : (pending.push part).bytes ++ (next :: parts).flatten = obu.bareBytes := by
            simpa using whole
          exact Gives.cons received (ih (List.cons_ne_nil next parts) joined)

/-- The packets of a unit that is cut give its element, whatever was pending before. -/
theorem gives_fragmentPackets {obu : Obu} (sendable : Sendable obu) {mtu : Nat} (room : 2 ≤ mtu)
    (long : mtu ≤ obu.bareLength) (capped : obu.bareLength ≤ maxPendingSize)
    (receiver : ElementReceiver)
    : receiver.Gives (Group.fragmentPackets mtu obu) [obu.bareBytes] initial := by
  obtain ⟨first, parts, cut, remaining, whole, _⟩ := Group.exists_blocks_of_long room long
  have continued : (!parts.isEmpty) = true := by simpa using remaining
  have later
      : Gives ⟨some (.ofBytes first)⟩ (Group.continuationPackets parts) [obu.bareBytes]
          initial :=
    gives_continuationPackets sendable capped remaining (by simpa using whole)
  rw [Group.fragmentPackets_of_blocks cut, continued]
  exact Gives.cons (receive_first_part receiver _ first) later

/-- The packets of a group give the elements of its units, by cases on the group. -/
theorem gives_group {mtu : Nat} (room : 2 ≤ mtu) {group : Group} (fits : group.Fits mtu)
    (sendable : ∀ obu ∈ group.obus, Sendable obu)
    (capped : ∀ obu ∈ group.obus, mtu - 1 < obu.bareLength → obu.bareLength ≤ maxPendingSize)
    (receiver : ElementReceiver)
    : receiver.Gives (group.packets mtu) (group.obus.map Obu.bareBytes) initial := by
  cases group with
  | bundle obus => exact gives_packet sendable receiver
  | fragments obu =>
      have long : mtu ≤ obu.bareLength := fits
      have single : obu ∈ (Group.fragments obu).obus := List.mem_singleton.mpr rfl
      exact gives_fragmentPackets (sendable obu single) room long
        (capped obu single (by omega)) receiver

/-- The packets of a frame give the elements of the units that are sent, group by group. -/
theorem gives_packetize {mtu : Nat} (room : 2 ≤ mtu) {frame : Bytes}
    (capped : FragmentsFit mtu frame)
    : initial.Gives (packetize mtu frame).packets ((transmitted frame).map Obu.bareBytes)
        initial := by
  refine packetize_induction room frame
    (motive := fun packets obus => initial.Gives packets (obus.map Obu.bareBytes) initial)
    (gives_nil initial) ?_ ?_
  · intro packets more obus others first later
    rw [List.map_append]
    exact first.append later
  · intro group fits units
    have sent (obu : Obu) (member : obu ∈ group.obus) : obu ∈ transmitted frame :=
      List.mem_filter.mpr (units obu member)
    exact gives_group room fits (fun obu member => sendable_of_mem_transmitted (sent obu member))
      (fun obu member => capped obu (sent obu member)) initial

/-- Every payload of a frame is a packet. A new receiver that is given these packets gives one
element for each unit in front of the first failure that is sent, in stream order: the unit's header,
which says that no size follows, and the unit's payload. Nothing stays pending.
-/
theorem assembled_packetize {mtu : Nat} (room : 2 ≤ mtu) (addressable : mtu < UInt64.size)
    {frame : Bytes} (capped : FragmentsFit mtu frame)
    : ∃ (packets : List Packet) (outputs : List (List Chunked)),
        (packetize mtu frame).payloads.map Packet.parse = packets.map .ok
        ∧ initial.receiveAll packets = (outputs, initial)
        ∧ outputs.flatten.map Chunked.bytes
          = ((Obu.split frame).values.filter Obu.isTransmitted).map Obu.bareBytes := by
  obtain ⟨outputs, results, given⟩ := gives_packetize room capped
  exact ⟨(packetize mtu frame).packets, outputs, parse_payloads room addressable frame, results,
    given⟩

/-- A delimiter, a sequence header, a layered frame that is cut, two short frames that share a packet
and bytes that are no unit: each of the four units that are sent is given as an element of its own.
-/
theorem assembled_packetize_layered
    : let frame : Bytes :=
        [0x12, 0, 0x0A, 1, 0xAA, 0x36, 8, 5, 1, 2, 3, 4, 5, 0x32, 0, 0x32, 1, 9, 0x80]
      FragmentsFit 6 frame
      ∧ ∃ (packets : List Packet) (outputs : List (List Chunked)),
          (packetize 6 frame).payloads.map Packet.parse = packets.map .ok
          ∧ initial.receiveAll packets = (outputs, initial)
          ∧ outputs.flatten.map Chunked.bytes
            = [[0x08, 0xAA], [0x34, 8, 1, 2, 3, 4, 5], [0x30], [0x30, 9]] := by
  intro frame
  have capped : FragmentsFit 6 frame := fragmentsFit_of_length_le (by decide) 6
  obtain ⟨packets, outputs, read, results, given⟩ :=
    assembled_packetize (show 2 ≤ 6 by decide) (by decide) capped
  refine ⟨capped, packets, outputs, read, results, given.trans ?_⟩
  decide +kernel

end ElementReceiver

end Av1Transport.Reassembly
