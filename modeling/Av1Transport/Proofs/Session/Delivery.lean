import Av1Transport.Proofs.Reassembly.ElementRuns
import Av1Transport.Proofs.Reassembly.RoundTrip
import Av1Transport.Proofs.Rtp.SentPackets
import Av1Transport.Session

/-! Frames that are sent in RTP packets and received in order.
Main statements: every packet stays within the MTU and is read back, one receiver stores every frame
from the payloads, and the packets tell where a frame starts and ends; a receiver that is given the
bytes of the packets stores the frames and gives their units as they were sent.
-/

namespace Av1Transport.Session

open Av1Transport.Reassembly
open Av1Transport.Rtp

/-- The packets of each frame, and the sender after them. Every frame has its own duration. -/
def sendEach (sender : Sender) : List (Bytes × UInt32) → List (List Packet) × Sender
  | [] => ([], sender)
  | (frame, samples) :: frames =>
      let (packets, next) := sendFrame sender frame samples
      let (later, last) := sendEach next frames
      (packets :: later, last)

theorem sendFrames_eq (sender : Sender) (samples : UInt32) (frames : List Bytes)
    : sendFrames sender samples frames
      = ((sendEach sender (frames.map fun frame => (frame, samples))).1.flatten,
        (sendEach sender (frames.map fun frame => (frame, samples))).2) := by
  induction frames generalizing sender with
  | nil => rfl
  | cons frame frames ih => simp [sendFrames, sendEach, ih]

/-- The packets of a frame, as they are on the wire: each is read back from at most `mtu` bytes,
the first starts with an element, and the last alone has the marker.
-/
structure Carried (mtu : Nat) (packets : List Packet) : Prop where
  written
    : ∀ packet ∈ packets,
        ∃ bytes,
          packet.toBytes = .ok bytes
          ∧ bytes.length ≤ mtu
          ∧ Packet.parse bytes = .ok packet.masked
  starts
    : ∀ first later, packets = first :: later → Aggregation.startsElement first.payload = true
  ends
    : ∀ front last,
        packets = front ++ [last]
        → Aggregation.endsFrame last.header.marker = true
          ∧ ∀ packet ∈ front, Aggregation.endsFrame packet.header.marker = false

-----------------------------------------------------------------------------------------
-- One frame
-----------------------------------------------------------------------------------------

section

variable {sender : Sender}

theorem two_le_payloadBudget (room : 14 + 4 * sender.csrcs.length ≤ sender.mtu)
    : 2 ≤ sender.payloadBudget := by
  unfold Sender.payloadBudget fixedLength
  omega

theorem payloadBudget_lt_size (addressable : sender.mtu < UInt64.size)
    : sender.payloadBudget < UInt64.size :=
  Nat.lt_of_le_of_lt (Nat.sub_le _ _) addressable

theorem payloads_sendFrame (sender : Sender) (frame : Bytes) (samples : UInt32)
    : (sendFrame sender frame samples).1.map Packet.payload
      = (Aggregation.packetize sender.payloadBudget frame).payloads :=
  sender.payloads_send _ samples

/-- The packets of a frame are carried. Witness: the budget leaves the header its bytes. -/
theorem carried_sendFrame (room : 14 + 4 * sender.csrcs.length ≤ sender.mtu) (frame : Bytes)
    (samples : UInt32)
    : Carried sender.mtu (sendFrame sender frame samples).1 := by
  have budget := two_le_payloadBudget room
  refine ⟨?_, ?_, ?_⟩
  · intro packet member
    obtain ⟨index, marker, payload, listed, rfl⟩ := Sender.exists_payload_of_mem_send member
    obtain ⟨bytes, written, length, read⟩ := sender.exists_toBytes_packet index marker payload
    have short := (Aggregation.length_of_mem_payloads budget listed).2
    refine ⟨bytes, written, ?_, read⟩
    unfold Sender.payloadBudget fixedLength at short
    unfold fixedLength at length
    omega
  · intro first later sent
    have payloads := payloads_sendFrame sender frame samples
    rw [sent, List.map_cons] at payloads
    exact Aggregation.startsElement_of_payloads_eq_cons budget payloads.symm
  · intro front last sent
    exact Sender.marker_of_send_eq_append sent

/-- A receiver stores a frame from its packets, and then waits for nothing. -/
theorem receiveAll_sendFrame (room : 14 + 4 * sender.csrcs.length ≤ sender.mtu)
    (addressable : sender.mtu < UInt64.size) {frame : Bytes}
    (capped : FragmentsFit sender.payloadBudget frame) (samples : UInt32)
    : ∃ outputs : List Chunked,
        StreamReceiver.initial.receiveAll
            ((sendFrame sender frame samples).1.map Packet.payload)
          = (outputs.map .ok, .initial)
        ∧ outputs.length = (sendFrame sender frame samples).1.length
        ∧ outputs.flatMap Chunked.bytes = Obu.joinBytes (transmitted frame) := by
  obtain ⟨outputs, run, stored⟩ :=
    StreamReceiver.yields_packetize (two_le_payloadBudget room) (payloadBudget_lt_size addressable)
      capped
  rw [← payloads_sendFrame sender frame samples] at run
  have count := StreamReceiver.length_receiveAll .initial
    ((sendFrame sender frame samples).1.map Packet.payload)
  rw [run, List.length_map, List.length_map] at count
  exact ⟨outputs, run, count, stored⟩

/-- The payloads of a frame are packets of units, and give the elements of its units. -/
theorem gives_sendFrame (room : 14 + 4 * sender.csrcs.length ≤ sender.mtu)
    (addressable : sender.mtu < UInt64.size) {frame : Bytes}
    (capped : FragmentsFit sender.payloadBudget frame) (samples : UInt32)
    : ∃ contents : List Aggregation.Packet,
        ((sendFrame sender frame samples).1.map Packet.payload).map Aggregation.Packet.parse
          = contents.map .ok
        ∧ ElementReceiver.initial.Gives contents ((transmitted frame).map Obu.bareBytes)
            .initial := by
  refine ⟨(Aggregation.packetize sender.payloadBudget frame).packets, ?_,
    ElementReceiver.gives_packetize (two_le_payloadBudget room) capped⟩
  rw [payloads_sendFrame]
  exact Aggregation.parse_payloads (two_le_payloadBudget room) (payloadBudget_lt_size addressable)
    frame

-----------------------------------------------------------------------------------------
-- All frames
-----------------------------------------------------------------------------------------

/-- The packets of every frame are carried, by induction on the frames. -/
theorem carried_of_mem_sendEach (sender : Sender)
    (room : 14 + 4 * sender.csrcs.length ≤ sender.mtu)
    {frames : List (Bytes × UInt32)} {packets : List Packet}
    (member : packets ∈ (sendEach sender frames).1)
    : Carried sender.mtu packets := by
  induction frames generalizing sender with
  | nil => cases member
  | cons frame frames ih =>
      obtain ⟨bytes, samples⟩ := frame
      rcases List.mem_cons.mp member with rfl | member
      · exact carried_sendFrame room bytes samples
      · -- a sender keeps its sources and its MTU, so the next frame has the same room
        exact ih (sendFrame sender bytes samples).2 room member

/-- One receiver stores frame after frame, by induction on the frames: it waits for nothing when
a frame is complete.
-/
theorem receiveAll_sendEach (sender : Sender) (room : 14 + 4 * sender.csrcs.length ≤ sender.mtu)
    (addressable : sender.mtu < UInt64.size) {frames : List (Bytes × UInt32)}
    (capped : ∀ frame ∈ frames, FragmentsFit sender.payloadBudget frame.1)
    : ∃ outputs : List (List Chunked),
        StreamReceiver.initial.receiveAll
            ((sendEach sender frames).1.flatten.map Packet.payload)
          = (outputs.flatten.map .ok, .initial)
        ∧ outputs.map List.length = (sendEach sender frames).1.map List.length
        ∧ outputs.map (fun output => output.flatMap Chunked.bytes)
          = frames.map fun frame => Obu.joinBytes (transmitted frame.1) := by
  induction frames generalizing sender with
  | nil => exact ⟨[], rfl, rfl, rfl⟩
  | cons frame frames ih =>
      obtain ⟨bytes, samples⟩ := frame
      obtain ⟨first, run, count, stored⟩ :=
        receiveAll_sendFrame room addressable (capped (bytes, samples) List.mem_cons_self) samples
      obtain ⟨later, rest, counts, others⟩ :=
        ih (sendFrame sender bytes samples).2 room addressable
          (fun frame member => capped frame (List.mem_cons_of_mem _ member))
      refine ⟨first :: later, ?_, ?_, ?_⟩
      · simp only [sendEach, List.flatten_cons, List.map_append,
          StreamReceiver.receiveAll_append, run, rest]
      · simp only [sendEach, List.map_cons, count, counts]
      · simp only [List.map_cons, stored, others]

/-- The payloads of all frames are packets of units, and give the elements of the units frame after
frame, by induction on the frames.
-/
theorem gives_sendEach (sender : Sender) (room : 14 + 4 * sender.csrcs.length ≤ sender.mtu)
    (addressable : sender.mtu < UInt64.size) {frames : List (Bytes × UInt32)}
    (capped : ∀ frame ∈ frames, FragmentsFit sender.payloadBudget frame.1)
    : ∃ contents : List Aggregation.Packet,
        ((sendEach sender frames).1.flatten.map Packet.payload).map Aggregation.Packet.parse
          = contents.map .ok
        ∧ ElementReceiver.initial.Gives contents
            ((frames.flatMap fun frame => transmitted frame.1).map Obu.bareBytes) .initial := by
  induction frames generalizing sender with
  | nil => exact ⟨[], rfl, ElementReceiver.gives_nil _⟩
  | cons frame frames ih =>
      obtain ⟨bytes, samples⟩ := frame
      obtain ⟨first, read, run⟩ :=
        gives_sendFrame room addressable (capped (bytes, samples) List.mem_cons_self) samples
      obtain ⟨later, others, rest⟩ :=
        ih (sendFrame sender bytes samples).2 room addressable
          (fun frame member => capped frame (List.mem_cons_of_mem _ member))
      refine ⟨first ++ later, ?_, ?_⟩
      · simp only [sendEach, List.flatten_cons, List.map_append, read, others]
      · rw [List.flatMap_cons, List.map_append]
        exact run.append rest

end

/-- Frames that are sent one after the other arrive. The packets of every frame are carried, and
one receiver that is given the payloads in order accepts each of them. For the packets of a frame
it gives, byte for byte, the units in front of the frame's first failure that are sent, each with
its size; in the end nothing stays pending.
-/
theorem delivered_sendEach {sender : Sender}
    (room : 14 + 4 * sender.csrcs.length ≤ sender.mtu) (addressable : sender.mtu < UInt64.size)
    {frames : List (Bytes × UInt32)}
    (capped : ∀ frame ∈ frames, FragmentsFit sender.payloadBudget frame.1)
    : (∀ packets ∈ (sendEach sender frames).1, Carried sender.mtu packets)
      ∧ ∃ outputs : List (List Chunked),
          StreamReceiver.initial.receiveAll
              ((sendEach sender frames).1.flatten.map fun packet => packet.masked.payload)
            = (outputs.flatten.map .ok, .initial)
          ∧ outputs.map List.length = (sendEach sender frames).1.map List.length
          ∧ outputs.map (fun output => output.flatMap Chunked.bytes)
            = frames.map fun frame => Obu.joinBytes (transmitted frame.1) :=
  ⟨fun _ member => carried_of_mem_sendEach sender room member,
    receiveAll_sendEach sender room addressable capped⟩

/-- A sender with no more room than two bytes of payload. Its numbers start at the last one before
they go round, and its payload type is too wide.
-/
def narrow : Sender where
  mtu := 22
  payloadType := 224
  ssrc := 1
  csrcs := [7, 8]
  timestamp := 0
  sequencer := .startingAt 65535

/-- Two frames, one of them with bytes that are no unit, are stored from packets of two bytes. -/
theorem delivered_sendEach_narrow
    : let frames : List (Bytes × UInt32) :=
        [([0x0A, 1, 0xAA, 0x36, 8, 3, 1, 2, 3, 0x80], 3000), ([0x12, 0, 0x32, 1, 5], 1500)]
      (∀ frame ∈ frames, FragmentsFit narrow.payloadBudget frame.1)
      ∧ (∀ packets ∈ (sendEach narrow frames).1, Carried 22 packets)
      ∧ ∃ outputs : List (List Chunked),
          StreamReceiver.initial.receiveAll
              ((sendEach narrow frames).1.flatten.map fun packet => packet.masked.payload)
            = (outputs.flatten.map .ok, .initial)
          ∧ outputs.map List.length = [7, 2]
          ∧ outputs.map (fun output => output.flatMap Chunked.bytes)
            = [[0x0A, 1, 0xAA, 0x36, 8, 3, 1, 2, 3], [0x32, 1, 5]] := by
  intro frames
  have capped : ∀ frame ∈ frames, FragmentsFit narrow.payloadBudget frame.1 := by
    intro frame member
    have short : frame.1.length ≤ maxPendingSize := by
      revert frame
      decide
    exact fragmentsFit_of_length_le short _
  obtain ⟨carried, outputs, run, counts, stored⟩ :=
    delivered_sendEach (show 14 + 4 * narrow.csrcs.length ≤ narrow.mtu by decide)
      (by decide) capped
  refine ⟨capped, carried, outputs, run, counts.trans ?_, stored.trans ?_⟩
  · decide +kernel
  · decide +kernel

-----------------------------------------------------------------------------------------
-- From the wire
-----------------------------------------------------------------------------------------

/-- Packets of which each can be written and read back are so together, by induction on the
packets.
-/
theorem exists_wireBytes {mtu : Nat} {packets : List Packet}
    (written : ∀ packet ∈ packets,
      ∃ bytes,
        packet.toBytes = .ok bytes
        ∧ bytes.length ≤ mtu
        ∧ Packet.parse bytes = .ok packet.masked)
    : ∃ wires,
        wireBytes packets = .ok wires
        ∧ (∀ bytes ∈ wires, bytes.length ≤ mtu)
        ∧ wires.map Packet.parse = (packets.map Packet.masked).map .ok := by
  induction packets with
  | nil => exact ⟨[], rfl, fun _ member => (List.not_mem_nil member).elim, rfl⟩
  | cons packet packets ih =>
      obtain ⟨bytes, first, short, read⟩ := written packet List.mem_cons_self
      obtain ⟨wires, later, others, rest⟩ :=
        ih fun next member => written next (List.mem_cons_of_mem _ member)
      refine ⟨bytes :: wires, ?_, List.forall_mem_cons.mpr ⟨short, others⟩, ?_⟩
      · unfold wireBytes at later ⊢
        rw [List.mapM_cons, first, later]
        rfl
      · rw [List.map_cons, List.map_cons, List.map_cons, read, rest]

/-- The packets of all frames can be written, and are read back. -/
theorem exists_wireBytes_sendEach (sender : Sender)
    (room : 14 + 4 * sender.csrcs.length ≤ sender.mtu) (frames : List (Bytes × UInt32))
    : ∃ wires,
        wireBytes (sendEach sender frames).1.flatten = .ok wires
        ∧ (∀ bytes ∈ wires, bytes.length ≤ sender.mtu)
        ∧ wires.map Packet.parse
          = ((sendEach sender frames).1.flatten.map Packet.masked).map .ok := by
  apply exists_wireBytes
  intro packet member
  obtain ⟨packets, listed, inside⟩ := List.mem_flatten.mp member
  exact (carried_of_mem_sendEach sender room listed).written packet inside

theorem payloads_masked (packets : List Packet)
    : (packets.map Packet.masked).map Packet.payload = packets.map Packet.payload :=
  List.map_map

namespace Receiver

variable (stream : StreamReceiver) (elements : ElementReceiver)

/-- Both halves of a receiver take the payload of a packet. -/
theorem receive_of_parse {bytes : Bytes} {packet : Packet} {content : Aggregation.Packet}
    (read : Packet.parse bytes = .ok packet)
    (parsed : Aggregation.Packet.parse packet.payload = .ok content)
    : receive ⟨stream, elements⟩ bytes
      = (.ok ⟨packet, (stream.receive packet.payload).1, .ok (elements.receive content).1⟩,
        ⟨(stream.receive packet.payload).2, (elements.receive content).2⟩) := by
  simp only [receive, read, ElementReceiver.receivePayload, parsed]

/-- For packets that can be read a receiver gives what its halves give for their payloads, by
induction on the packets.
-/
theorem exists_receiveAll {wires : List Bytes} {packets : List Packet}
    {contents : List Aggregation.Packet}
    (read : wires.map Packet.parse = packets.map .ok)
    (parsed : (packets.map Packet.payload).map Aggregation.Packet.parse = contents.map .ok)
    : let stored := stream.receiveAll (packets.map Packet.payload)
      let given := elements.receiveAll contents
      ∃ deliveries : List Delivery,
        receiveAll ⟨stream, elements⟩ wires = (deliveries.map .ok, ⟨stored.2, given.2⟩)
        ∧ deliveries.map Delivery.packet = packets
        ∧ deliveries.map Delivery.stored = stored.1
        ∧ deliveries.map Delivery.elements = given.1.map .ok := by
  induction packets generalizing stream elements wires contents with
  | nil =>
      obtain rfl := List.map_eq_nil_iff.mp read
      obtain rfl := List.map_eq_nil_iff.mp parsed.symm
      exact ⟨[], rfl, rfl, rfl, rfl⟩
  | cons packet packets ih =>
      obtain ⟨bytes, wires, rfl, first, later⟩ := List.map_eq_cons_iff.mp read
      obtain ⟨content, contents, rfl, same, others⟩ := List.map_eq_cons_iff.mp parsed.symm
      have received := receive_of_parse stream elements first same.symm
      obtain ⟨deliveries, run, listed, stored, given⟩ :=
        ih (stream.receive packet.payload).2 (elements.receive content).2 later others.symm
      refine ⟨⟨packet, (stream.receive packet.payload).1, .ok (elements.receive content).1⟩
        :: deliveries, ?_, ?_, ?_, ?_⟩
      · simp only [receiveAll, received, run]
        rfl
      · rw [List.map_cons, listed]
      · rw [List.map_cons, stored]
        rfl
      · rw [List.map_cons, given]
        rfl

end Receiver

/-- The deliveries bring the units in order: every payload was accepted, one half of the receiver
stored the units, each with its size, and the other gave them as they were sent.
-/
structure Brings (deliveries : List Delivery) (obus : List Obu) : Prop where
  stored
    : ∃ outputs : List Chunked,
        deliveries.map Delivery.stored = outputs.map .ok
        ∧ outputs.flatMap Chunked.bytes = Obu.joinBytes obus
  elements
    : ∃ outputs : List (List Chunked),
        deliveries.map Delivery.elements = outputs.map .ok
        ∧ outputs.flatten.map Chunked.bytes = obus.map Obu.bareBytes

/-- Frames of equal duration go from bytes to bytes. Every packet can be written, in at most as many
bytes as the MTU allows; a receiver that is given these bytes in order reads every packet back, and
is brought the units of all frames that are sent. In the end it waits for nothing. Witness: what is
known of the packets frame by frame, joined.
-/
theorem received_sendFrames {sender : Sender}
    (room : 14 + 4 * sender.csrcs.length ≤ sender.mtu) (addressable : sender.mtu < UInt64.size)
    {frames : List Bytes}
    (capped : ∀ frame ∈ frames, FragmentsFit sender.payloadBudget frame) (samples : UInt32)
    : ∃ wires deliveries,
        wireBytes (sendFrames sender samples frames).1 = .ok wires
        ∧ (∀ bytes ∈ wires, bytes.length ≤ sender.mtu)
        ∧ Receiver.initial.receiveAll wires = (deliveries.map .ok, .initial)
        ∧ deliveries.map Delivery.packet
          = (sendFrames sender samples frames).1.map Packet.masked
        ∧ Brings deliveries (frames.flatMap transmitted) := by
  have cappedEach
      : ∀ frame ∈ frames.map fun frame => (frame, samples),
          FragmentsFit sender.payloadBudget frame.1 :=
    List.forall_mem_map.mpr capped
  rw [sendFrames_eq]
  obtain ⟨wires, written, short, read⟩ :=
    exists_wireBytes_sendEach sender room (frames.map fun frame => (frame, samples))
  obtain ⟨outputs, stored, -, joined⟩ := receiveAll_sendEach sender room addressable cappedEach
  obtain ⟨contents, parsed, elements, given, bare⟩ :=
    gives_sendEach sender room addressable cappedEach
  -- a packet that is read back has the payload of the packet that was sent
  rw [← payloads_masked] at stored parsed
  obtain ⟨deliveries, run, listed, storedEach, givenEach⟩ :=
    Receiver.exists_receiveAll .initial .initial read parsed
  rw [stored] at run storedEach
  rw [given] at run givenEach
  refine ⟨wires, deliveries, written, short, run, listed, ⟨outputs.flatten, storedEach, ?_⟩,
    ⟨elements, givenEach, ?_⟩⟩
  · calc
      outputs.flatten.flatMap Chunked.bytes
        = (outputs.map fun output => output.flatMap Chunked.bytes).flatten := by
          rw [List.flatMap_def, List.map_flatten, List.flatten_flatten, List.map_map]
          rfl
      _ = frames.flatMap fun frame => Obu.joinBytes (transmitted frame) := by
          rw [joined, List.map_map]
          rfl
      _ = Obu.joinBytes (frames.flatMap transmitted) := List.flatMap_assoc.symm
  · rw [bare, List.flatMap_map]

end Av1Transport.Session
