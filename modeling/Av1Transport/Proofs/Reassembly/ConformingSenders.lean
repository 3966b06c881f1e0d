import Av1Transport.Proofs.Aggregation.ConformingPackets
import Av1Transport.Proofs.Reassembly.StreamRuns

/-! Units put together from the packets of any conforming sender.
A sender may cut its elements anywhere and fill its packets as it likes, as long as the parts of an
element stand at the end of one packet and at the start of the next. Main statement: the receiver
stores all units that are sent, in order.
-/

namespace Av1Transport.Reassembly

open Av1Transport.Aggregation

-----------------------------------------------------------------------------------------
-- Elements in parts
-----------------------------------------------------------------------------------------

/-- Parts of an element as pieces: all after the first go on from the packet before, and all but
the last go on in the next packet.
-/
def partPieces (continues : Bool) : List Bytes → List Piece
  | [] => []
  | part :: parts => ⟨part, continues, !parts.isEmpty⟩ :: partPieces true parts

/-- An element as a sender cuts it: parts that are not empty and together spell a unit. -/
structure CutElement where
  parts : List Bytes
  unit : Obu
  present : ∀ part ∈ parts, part ≠ []
  spelled : elementUnit parts.flatten = .ok unit

namespace CutElement

def bytes (element : CutElement) : Bytes :=
  element.parts.flatten

def pieces (element : CutElement) : List Piece :=
  partPieces false element.parts

end CutElement

theorem elementUnit_nil (obu : Obu) : elementUnit [] ≠ .ok obu := by
  intro spelled
  cases spelled

theorem bytes_of_mem_partPieces {continues : Bool} {parts : List Bytes} {piece : Piece}
    (member : piece ∈ partPieces continues parts)
    : piece.bytes ∈ parts := by
  induction parts generalizing continues with
  | nil => cases member
  | cons part parts ih =>
      rcases List.mem_cons.mp member with rfl | later
      · exact List.mem_cons_self
      · exact List.mem_cons_of_mem _ (ih later)

-----------------------------------------------------------------------------------------
-- Pieces that complete units
-----------------------------------------------------------------------------------------

/-- Pieces in order complete the units, where the first bytes are those of a unit that was begun
before and the last bytes those of a unit that is not complete in the end.
-/
inductive Completes : Bytes → List Piece → List Obu → Bytes → Prop where
  | nil (pending : Bytes) : Completes pending [] [] pending
  | whole {element : Bytes} {unit : Obu} {pieces : List Piece} {units : List Obu} {last : Bytes}
      (spelled : elementUnit element = .ok unit)
      (later : Completes [] pieces units last)
      : Completes [] (⟨element, false, false⟩ :: pieces) (unit :: units) last
  | first {part : Bytes} {pieces : List Piece} {units : List Obu} {last : Bytes}
      (capped : part.length ≤ maxPendingSize)
      (later : Completes part pieces units last)
      : Completes [] (⟨part, false, true⟩ :: pieces) units last
  | middle {pending part : Bytes} {pieces : List Piece} {units : List Obu} {last : Bytes}
      (begun : pending ≠ [])
      (capped : (pending ++ part).length ≤ maxPendingSize)
      (later : Completes (pending ++ part) pieces units last)
      : Completes pending (⟨part, true, true⟩ :: pieces) units last
  | final {pending part : Bytes} {unit : Obu} {pieces : List Piece} {units : List Obu}
      {last : Bytes} (begun : pending ≠ [])
      (capped : (pending ++ part).length ≤ maxPendingSize)
      (spelled : elementUnit (pending ++ part) = .ok unit)
      (later : Completes [] pieces units last)
      : Completes pending (⟨part, true, false⟩ :: pieces) (unit :: units) last

namespace Completes

variable {pending last : Bytes} {pieces rest : List Piece} {units : List Obu}

theorem nil_iff : Completes pending [] units last ↔ units = [] ∧ pending = last := by
  constructor
  · intro run
    cases run with
    | nil => exact ⟨rfl, rfl⟩
  · rintro ⟨rfl, rfl⟩
    exact .nil pending

/-- In front of a piece that does not go on no unit was begun. -/
theorem starts {piece : Piece} (run : Completes pending (piece :: pieces) units last)
    (starts : piece.continues = false)
    : pending = [] := by
  cases run with
  | whole => rfl
  | first => rfl
  | middle => cases starts
  | final => cases starts

/-- A run of pieces splits anywhere, by induction on the pieces in front. -/
theorem split (run : Completes pending (pieces ++ rest) units last)
    : ∃ between front back,
        Completes pending pieces front between
        ∧ Completes between rest back last
        ∧ units = front ++ back := by
  induction pieces generalizing pending units with
  | nil => exact ⟨pending, [], units, .nil pending, run, rfl⟩
  | cons piece pieces ih =>
      rw [List.cons_append] at run
      cases run with
      | whole spelled later =>
          obtain ⟨between, front, back, before, after, rfl⟩ := ih later
          exact ⟨between, _ :: front, back, .whole spelled before, after, rfl⟩
      | first capped later =>
          obtain ⟨between, front, back, before, after, rfl⟩ := ih later
          exact ⟨between, front, back, .first capped before, after, rfl⟩
      | middle begun capped later =>
          obtain ⟨between, front, back, before, after, rfl⟩ := ih later
          exact ⟨between, front, back, .middle begun capped before, after, rfl⟩
      | final begun capped spelled later =>
          obtain ⟨between, front, back, before, after, rfl⟩ := ih later
          exact ⟨between, _ :: front, back, .final begun capped spelled before, after, rfl⟩

/-- The parts that are left of an element complete its unit, by induction on the parts. -/
theorem append_partPieces {unit : Obu} {parts : List Bytes} (later : Completes [] rest units last)
    (begun : pending ≠ []) (remaining : parts ≠ [])
    (capped : (pending ++ parts.flatten).length ≤ maxPendingSize)
    (spelled : elementUnit (pending ++ parts.flatten) = .ok unit)
    : Completes pending (partPieces true parts ++ rest) (unit :: units) last := by
  induction parts generalizing pending with
  | nil => exact absurd rfl remaining
  | cons part parts ih =>
      cases parts with
      | nil =>
          rw [List.flatten_singleton] at capped spelled
          exact .final begun capped spelled later
      | cons next parts =>
          rw [List.flatten_cons, ← List.append_assoc] at capped spelled
          have short : (pending ++ part).length ≤ maxPendingSize := by
            rw [List.length_append] at capped
            omega
          have grown : pending ++ part ≠ [] := by simp [begun]
          exact .middle begun short (ih grown (by simp) capped spelled)

/-- The pieces of an element complete its unit: it is whole, or its first part is kept until the
others have come.
-/
theorem append_pieces {element : CutElement} (later : Completes [] rest units last)
    (capped : 1 < element.parts.length → element.bytes.length ≤ maxPendingSize)
    : Completes [] (element.pieces ++ rest) (element.unit :: units) last := by
  obtain ⟨parts, unit, present, spelled⟩ := element
  match parts with
  | [] => exact absurd spelled (elementUnit_nil unit)
  | [part] =>
      rw [List.flatten_singleton] at spelled
      exact .whole spelled later
  | part :: next :: parts =>
      have total : (part ++ (next :: parts).flatten).length ≤ maxPendingSize :=
        capped (by simp)
      have short : part.length ≤ maxPendingSize := by
        rw [List.length_append] at total
        omega
      have begun : part ≠ [] := present part List.mem_cons_self
      exact .first short (later.append_partPieces begun (by simp) total spelled)

/-- The pieces of elements in order complete their units, by induction on the elements. -/
theorem flatMap_pieces {elements : List CutElement}
    (capped
      : ∀ element ∈ elements,
          1 < element.parts.length → element.bytes.length ≤ maxPendingSize)
    : Completes [] (elements.flatMap CutElement.pieces) (elements.map CutElement.unit) [] := by
  induction elements with
  | nil => exact .nil []
  | cons element elements ih =>
      have later := ih (fun next member => capped next (List.mem_cons_of_mem _ member))
      exact later.append_pieces (capped element List.mem_cons_self)

end Completes

-----------------------------------------------------------------------------------------
-- Runs over such pieces
-----------------------------------------------------------------------------------------

namespace StreamProgress

/-- A part that goes on from the bytes of a unit joins them, as long as they stay short enough. -/
theorem grow_of_append_le {pending part : Bytes} {progress : StreamProgress}
    (same : progress.pending.bytes = pending) (capped : (pending ++ part).length ≤ maxPendingSize)
    : ∃ grown,
        progress.grow part = .ok grown
        ∧ grown.pending.bytes = pending ++ part
        ∧ grown.output = progress.output := by
  refine ⟨{ progress with pending := progress.pending.push part }, grow_of_le ?_, ?_, rfl⟩
  · rwa [same, ← List.length_append]
  · rw [Chunked.bytes_push, same]

/-- Pieces that complete units put these at the end of the output, by induction on the run: the
pending bytes are those of the unit that was begun.
-/
theorem absorbAll_of_completes {pending last : Bytes} {pieces : List Piece} {units : List Obu}
    (run : Completes pending pieces units last) (progress : StreamProgress)
    (same : progress.pending.bytes = pending)
    : ∃ next,
        progress.absorbAll pieces = .ok next
        ∧ next.pending.bytes = last
        ∧ next.output.bytes = progress.output.bytes ++ storedUnits units := by
  induction run generalizing progress with
  | nil => exact ⟨progress, rfl, same, by simp⟩
  | @whole element unit pieces units last spelled later ih =>
      rw [← Chunked.bytes_ofBytes element] at spelled
      obtain ⟨middle, written, kept, output⟩ := progress.write_of_elementUnit spelled
      obtain ⟨next, absorbed, pending, bytes⟩ := ih middle (kept ▸ same)
      refine ⟨next, ?_, pending, ?_⟩
      · simp [absorbAll, absorb, written, absorbed]
      · rw [bytes, output, List.append_assoc, ← storedUnits_append]
        rfl
  | @first part pieces units last capped later ih =>
      obtain ⟨grown, grows, begun, kept⟩ := grow_of_append_le same capped
      obtain ⟨next, absorbed, pending, bytes⟩ := ih grown begun
      refine ⟨next, ?_, pending, kept ▸ bytes⟩
      simp [absorbAll, absorb, grows, absorbed]
  | @middle pending part pieces units last begun capped later ih =>
      have occupied := isEmpty_of_bytes_ne_nil (same ▸ begun)
      obtain ⟨grown, grows, joined, kept⟩ := grow_of_append_le same capped
      obtain ⟨next, absorbed, pending, bytes⟩ := ih grown joined
      refine ⟨next, ?_, pending, kept ▸ bytes⟩
      simp [absorbAll, absorb, occupied, grows, absorbed]
  | @final pending part unit pieces units last begun capped spelled later ih =>
      have occupied := isEmpty_of_bytes_ne_nil (same ▸ begun)
      obtain ⟨grown, grows, joined, kept⟩ := grow_of_append_le same capped
      rw [← joined] at spelled
      obtain ⟨middle, written, emptied, output⟩ :=
        write_of_elementUnit spelled ⟨.empty, grown.output⟩
      obtain ⟨next, absorbed, pending, bytes⟩ := ih middle (by rw [emptied]; rfl)
      refine ⟨next, ?_, pending, ?_⟩
      · simp [absorbAll, absorb, occupied, grows, finish, written, absorbed]
      · rw [bytes, output, kept, List.append_assoc, ← storedUnits_append]
        rfl

end StreamProgress

namespace StreamReceiver

/-- Nothing is dropped at the start of a packet: a packet that goes on from the one before starts
no coded video sequence, and before another packet no unit was begun.
-/
theorem bytes_pendingFor {packet : SentPacket} {units : List Obu} {last : Bytes}
    {receiver : StreamReceiver}
    (run : Completes receiver.pending.bytes packet.pieces units last)
    : (receiver.pendingFor (Header.ofByte packet.first)).bytes = receiver.pending.bytes := by
  obtain ⟨pieces, first, body, carries⟩ := packet
  cases continues : (Header.ofByte first).continues with
  | true =>
      have sequence : (Header.ofByte first).startsSequence = false := by
        rw [← Bool.not_eq_true]
        intro starts
        rw [carries.sequence starts] at continues
        cases continues
      simp [pendingFor, continues, sequence]
  | false =>
      have starts := carries.starts
      rw [continues] at starts
      cases pieces with
      | nil => cases starts
      | cons piece pieces =>
          rw [run.starts (Option.some.inj starts), pendingFor_of_not_continues continues]
          rfl

/-- A packet whose pieces complete units yields these. -/
theorem receive_payload {packet : SentPacket} {units : List Obu} {last : Bytes}
    {receiver : StreamReceiver} (present : ∀ piece ∈ packet.pieces, piece.bytes ≠ [])
    (run : Completes receiver.pending.bytes packet.pieces units last)
    : ∃ output next,
        receiver.receive packet.payload = (.ok output, next)
        ∧ next.pending.bytes = last
        ∧ output.bytes = storedUnits units := by
  obtain ⟨progress, absorbed, pending, output⟩ := StreamProgress.absorbAll_of_completes run
    ⟨receiver.pendingFor (Header.ofByte packet.first), .empty⟩ (bytes_pendingFor run)
  rw [← packet.carries.pieces_eq] at absorbed
  refine ⟨progress.output, ⟨progress.pending⟩, ?_, pending, output⟩
  simp only [receive, SentPacket.parse_payload present, absorbed]

/-- Packets whose pieces complete units in order yield these, by induction on the packets. -/
theorem yields_of_completes {packets : List SentPacket} {units : List Obu} {last : Bytes}
    {receiver : StreamReceiver}
    (present : ∀ packet ∈ packets, ∀ piece ∈ packet.pieces, piece.bytes ≠ [])
    (run : Completes receiver.pending.bytes (packets.flatMap SentPacket.pieces) units last)
    : ∃ final,
        receiver.Yields (packets.map SentPacket.payload) (storedUnits units) final
        ∧ final.pending.bytes = last := by
  induction packets generalizing receiver units with
  | nil =>
      obtain ⟨rfl, pending⟩ := Completes.nil_iff.mp run
      exact ⟨receiver, yields_nil receiver, pending⟩
  | cons packet packets ih =>
      rw [List.flatMap_cons] at run
      obtain ⟨between, front, back, before, after, rfl⟩ := run.split
      obtain ⟨output, next, received, pending, stored⟩ :=
        receive_payload (present packet List.mem_cons_self) before
      obtain ⟨final, yields, left⟩ :=
        ih (fun later member => present later (List.mem_cons_of_mem _ member)) (pending ▸ after)
      refine ⟨final, ?_, left⟩
      rw [storedUnits_append, ← stored]
      exact Yields.cons received yields

/-- A new receiver accepts every packet of a conforming sender. What it gives for them is, byte for
byte, the units of the sender's elements that are sent over RTP, each with its size; no part of a
unit stays pending.
-/
theorem receiveAll_of_cutElements {elements : List CutElement} {packets : List SentPacket}
    (packed : packets.flatMap SentPacket.pieces = elements.flatMap CutElement.pieces)
    (capped
      : ∀ element ∈ elements,
          1 < element.parts.length → element.bytes.length ≤ maxPendingSize)
    : ∃ (outputs : List Chunked) (last : StreamReceiver),
        initial.receiveAll (packets.map SentPacket.payload) = (outputs.map .ok, last)
        ∧ outputs.flatMap Chunked.bytes
          = Obu.joinBytes ((elements.map CutElement.unit).filter Obu.isTransmitted)
        ∧ last.pending.bytes = [] := by
  have present : ∀ packet ∈ packets, ∀ piece ∈ packet.pieces, piece.bytes ≠ [] := by
    intro packet sent piece carried
    have member : piece ∈ elements.flatMap CutElement.pieces :=
      packed ▸ List.mem_flatMap.mpr ⟨packet, sent, carried⟩
    obtain ⟨element, _, cut⟩ := List.mem_flatMap.mp member
    exact element.present _ (bytes_of_mem_partPieces cut)
  have run
      : Completes initial.pending.bytes (packets.flatMap SentPacket.pieces)
          (elements.map CutElement.unit) [] :=
    packed ▸ Completes.flatMap_pieces capped
  obtain ⟨last, ⟨outputs, results, stored⟩, pending⟩ := yields_of_completes present run
  exact ⟨outputs, last, results, stored, pending⟩

end StreamReceiver

-----------------------------------------------------------------------------------------
-- A sender that uses all of its freedom
-----------------------------------------------------------------------------------------

/-- A frame in two parts, a frame with a size of its own that leaves a byte over, a delimiter, and
a sequence header in two parts.
-/
def mixedElements : List CutElement :=
  [ ⟨[[0x30, 1], [2, 3]], ⟨⟨.frame, none, false, false⟩, [1, 2, 3]⟩, by decide, rfl⟩,
    ⟨[[0x32, 1, 0xAA, 0xBB]], ⟨⟨.frame, none, true, false⟩, [0xAA]⟩, by decide, rfl⟩,
    ⟨[[0x10]], ⟨⟨.temporalDelimiter, none, false, false⟩, []⟩, by decide, rfl⟩,
    ⟨[[0x08], [0x0C]], ⟨⟨.sequenceHeader, none, false, false⟩, [0x0C]⟩, by decide, rfl⟩ ]

/-- The packets of these elements: the second one ends a unit, holds two whole ones and begins
another, and has a length that is longer than it need be.
-/
def mixedPackets : List SentPacket :=
  [ { pieces := [⟨[0x30, 1], false, true⟩]
      first := 0x59
      body := [0x30, 1]
      carries := ⟨.counted [0x30, 1] rfl .nil, rfl, rfl, by decide, by decide, by decide⟩ },
    { pieces :=
        [ ⟨[2, 3], true, false⟩, ⟨[0x32, 1, 0xAA, 0xBB], false, false⟩, ⟨[0x10], false, false⟩,
          ⟨[0x08], false, true⟩ ]
      first := 0xC0
      body := [0x82, 0, 2, 3, 4, 0x32, 1, 0xAA, 0xBB, 1, 0x10, 1, 0x08]
      carries :=
        ⟨.prefixed rfl
            (.cons [0x82, 0] [2, 3] rfl
              (.cons [4] [0x32, 1, 0xAA, 0xBB] rfl
                (.cons [1] [0x10] rfl (.cons [1] [0x08] rfl .nil)))),
          rfl, rfl, by decide, by decide, by decide⟩ },
    { pieces := [⟨[0x0C], true, false⟩]
      first := 0x90
      body := [0x0C]
      carries := ⟨.counted [0x0C] rfl .nil, rfl, rfl, by decide, by decide, by decide⟩ } ]

/-- Three packets of a sender that uses all of its freedom: the frames and the sequence header are
stored with their sizes, and the delimiter is left out.
-/
theorem StreamReceiver.receiveAll_mixedPackets
    : mixedPackets.flatMap SentPacket.pieces = mixedElements.flatMap CutElement.pieces
      ∧ (∀ element ∈ mixedElements,
          1 < element.parts.length → element.bytes.length ≤ maxPendingSize)
      ∧ ∃ (outputs : List Chunked) (last : StreamReceiver),
          initial.receiveAll (mixedPackets.map SentPacket.payload) = (outputs.map .ok, last)
          ∧ outputs.flatMap Chunked.bytes
            = [0x32, 3, 1, 2, 3, 0x32, 1, 0xAA, 0x0A, 1, 0x0C]
          ∧ last.pending.bytes = [] := by
  have packed
      : mixedPackets.flatMap SentPacket.pieces = mixedElements.flatMap CutElement.pieces := by
    decide
  have capped
      : ∀ element ∈ mixedElements,
          1 < element.parts.length → element.bytes.length ≤ maxPendingSize := by
    decide
  obtain ⟨outputs, last, results, stored, pending⟩ := receiveAll_of_cutElements packed capped
  refine ⟨packed, capped, outputs, last, results, stored.trans ?_, pending⟩
  decide +kernel

end Av1Transport.Reassembly
