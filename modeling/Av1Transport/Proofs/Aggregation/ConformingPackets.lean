import Av1Transport.Aggregation.Packet
import Av1Transport.Proofs.Bytes.ItemReadings

/-! Packets as any sender may write them.
A length may have any form that can be read, and a header may count its elements or not. Main
statement: a payload is read back as the pieces that it was written for.
-/

namespace Av1Transport.Aggregation

-----------------------------------------------------------------------------------------
-- Elements behind their lengths
-----------------------------------------------------------------------------------------

/-- Elements one after the other, each behind its length in a form that can be read. -/
inductive Prefixed : List Bytes → Bytes → Prop where
  | nil : Prefixed [] []
  | cons {elements : List Bytes} {body : Bytes} (length element : Bytes)
      (read : Leb128.read length = .ok (element.length, length.length))
      (later : Prefixed elements body)
      : Prefixed (element :: elements) (length ++ element ++ body)

/-- An element is read from behind any form of its length, whatever follows it. -/
theorem parseElement_of_read {length element : Bytes}
    (read : Leb128.read length = .ok (element.length, length.length)) (present : element ≠ [])
    (rest : Bytes)
    : parseElement (length ++ element ++ rest) = .ok (element, (length ++ element).length) := by
  unfold parseElement
  rw [List.append_assoc, Leb128.read_append read]
  dsimp only
  rw [List.drop_left, splitExact?_append]
  cases element with
  | nil => exact absurd rfl present
  | cons first tail => simp

/-- Every form of a length takes at least one byte. -/
theorem ne_nil_of_read {length element : Bytes}
    (read : Leb128.read length = .ok (element.length, length.length))
    : length ≠ [] := by
  intro empty
  have positive := (Leb128.count_of_read read).1
  rw [empty] at positive
  exact Nat.lt_irrefl _ positive

/-- Elements that all have their length are read as item after item, by induction on them. -/
theorem Prefixed.readAll_parseElement {elements : List Bytes} {body : Bytes}
    (written : Prefixed elements body) (present : ∀ element ∈ elements, element ≠ [])
    : (readAll parseElement body).failure = none
      ∧ (readAll parseElement body).values = elements := by
  induction written with
  | nil =>
      rw [readAll_nil]
      exact ⟨rfl, rfl⟩
  | @cons elements body length element read later ih =>
      have first := parseElement_of_read read (present element List.mem_cons_self) body
      have nonempty : length ++ element ++ body ≠ [] := by simp [ne_nil_of_read read]
      obtain ⟨finished, values⟩ :=
        ih (fun next member => present next (List.mem_cons_of_mem _ member))
      rw [readAll_ok nonempty (count_of_parseElement_pos first) first, List.drop_left]
      exact ⟨finished, congrArg (element :: ·) values⟩

/-- Elements that have their length are read in front of a last one that has none, by induction
on those in front.
-/
theorem Prefixed.parseCounted {elements : List Bytes} {front : Bytes}
    (written : Prefixed elements front) (present : ∀ element ∈ elements, element ≠ [])
    {last : Bytes} (remains : last ≠ [])
    : Aggregation.parseCounted elements.length (front ++ last) = .ok (elements ++ [last]) := by
  induction written with
  | nil =>
      cases last with
      | nil => exact absurd rfl remains
      | cons first tail => rfl
  | @cons elements body length element read later ih =>
      have first := parseElement_of_read read (present element List.mem_cons_self) (body ++ last)
      have tail := ih (fun next member => present next (List.mem_cons_of_mem _ member))
      rw [List.append_assoc, List.length_cons, Aggregation.parseCounted]
      · simp only [first, List.drop_left, tail, List.cons_append]
      · simp [ne_nil_of_read read]

/-- The bytes behind a header: without a count every element has its length, with one all but the
last have it.
-/
inductive Spelled (count : UInt8) : List Bytes → Bytes → Prop where
  | prefixed {elements : List Bytes} {body : Bytes} (uncounted : count = 0)
      (written : Prefixed elements body)
      : Spelled count elements body
  | counted {elements : List Bytes} {front : Bytes} (last : Bytes)
      (number : count.toNat = elements.length + 1) (written : Prefixed elements front)
      : Spelled count (elements ++ [last]) (front ++ last)

theorem Spelled.parseElements {header : Header} {elements : List Bytes} {body : Bytes}
    (spelled : Spelled header.count elements body) (present : ∀ element ∈ elements, element ≠ [])
    : Aggregation.parseElements header body = .ok elements := by
  unfold Aggregation.parseElements
  cases spelled with
  | prefixed uncounted written =>
      obtain ⟨finished, values⟩ := written.readAll_parseElement present
      rw [if_pos uncounted, Reading.toExcept, finished, values]
  | @counted elements front last number written =>
      have counts : header.count ≠ 0 := by
        intro zero
        rw [zero] at number
        cases number
      rw [if_neg counts, number, Nat.add_sub_cancel]
      refine written.parseCounted ?_ (present last (by simp))
      intro element member
      exact present element (List.mem_append_left _ member)

theorem Spelled.body_ne_nil {count : UInt8} {elements : List Bytes} {body : Bytes}
    (spelled : Spelled count elements body) (some : elements ≠ [])
    (present : ∀ element ∈ elements, element ≠ [])
    : body ≠ [] := by
  cases spelled with
  | prefixed _ written =>
      cases written with
      | nil => exact absurd rfl some
      | cons length element read _ => simp [ne_nil_of_read read]
  | @counted elements front last _ _ => simp [present last]

-----------------------------------------------------------------------------------------
-- Pieces
-----------------------------------------------------------------------------------------

/-- The header and the bytes behind it carry the pieces: the header says whether the first one
goes on from the packet before and whether the last one goes on in the next packet, and no other
piece does. A packet that goes on from the one before starts no coded video sequence.
-/
structure Carries (header : Header) (body : Bytes) (pieces : List Piece) : Prop where
  spelled : Spelled header.count (pieces.map Piece.bytes) body
  starts : pieces.head?.map Piece.continues = some header.continues
  ends : pieces.getLast?.map Piece.continued = some header.continued
  later : ∀ piece ∈ pieces.tail, piece.continues = false
  earlier : ∀ piece ∈ pieces.dropLast, piece.continued = false
  sequence : header.startsSequence = true → header.continues = false

namespace Carries

variable {header : Header} {body : Bytes} {pieces : List Piece}

theorem pieces_ne_nil (carries : Carries header body pieces) : pieces ≠ [] := by
  intro empty
  have starts := carries.starts
  rw [empty] at starts
  cases starts

/-- What the header says of the first piece and the last is what those pieces say. -/
theorem pieces_eq (carries : Carries header body pieces)
    : Packet.pieces ⟨header, pieces.map Piece.bytes⟩ = pieces := by
  unfold Packet.pieces
  apply List.ext_getElem
  · simp
  · intro index left right
    have continues : (index == 0 && header.continues) = pieces[index].continues := by
      cases index with
      | zero =>
          have starts := carries.starts
          rw [List.head?_eq_getElem?, List.getElem?_eq_getElem right] at starts
          exact (Option.some.inj starts).symm
      | succ index =>
          have member : pieces[index + 1] ∈ pieces.tail := by
            rw [← List.getElem_tail (by simpa using Nat.lt_sub_of_add_lt right)]
            exact List.getElem_mem _
          simp [carries.later _ member]
    have continued
        : (index + 1 == pieces.length && header.continued) = pieces[index].continued := by
      by_cases last : index + 1 = pieces.length
      · have ends := carries.ends
        rw [List.getLast?_eq_getElem?, ← last, Nat.add_sub_cancel,
          List.getElem?_eq_getElem right] at ends
        simpa [last] using (Option.some.inj ends).symm
      · have member : pieces[index] ∈ pieces.dropLast := by
          have inside : index < pieces.dropLast.length := by
            rw [List.length_dropLast]
            omega
          rw [← List.getElem_dropLast inside]
          exact List.getElem_mem _
        simp [last, carries.earlier _ member]
    simp [continues, continued]

end Carries

/-- A packet as any sender may write it: its pieces, its first byte, of which the bits without a
meaning are free, and the bytes behind it.
-/
structure SentPacket where
  pieces : List Piece
  first : UInt8
  body : Bytes
  carries : Carries (Header.ofByte first) body pieces

namespace SentPacket

def payload (packet : SentPacket) : Bytes :=
  packet.first :: packet.body

/-- The payload of a packet is read back as the elements that its pieces hold. -/
theorem parse_payload {packet : SentPacket} (present : ∀ piece ∈ packet.pieces, piece.bytes ≠ [])
    : Packet.parse packet.payload
      = .ok ⟨Header.ofByte packet.first, packet.pieces.map Piece.bytes⟩ := by
  obtain ⟨pieces, first, body, carries⟩ := packet
  have elements : ∀ element ∈ pieces.map Piece.bytes, element ≠ [] := by
    intro element member
    obtain ⟨piece, listed, rfl⟩ := List.mem_map.mp member
    exact present piece listed
  have parsed := carries.spelled.parseElements elements
  have nonempty : pieces.map Piece.bytes ≠ [] := by simpa using carries.pieces_ne_nil
  cases body with
  | nil => exact absurd rfl (carries.spelled.body_ne_nil nonempty elements)
  | cons byte tail => simp only [payload, Packet.parse, parsed]

end SentPacket

end Av1Transport.Aggregation
