import Av1Transport.Bytes
import Av1Transport.Obu.Header

/-! Aggregation packets: the byte at the front of every AV1 payload and the elements it describes.
With a count the last element takes the rest of the packet; without one every element has its
length in front. A packet is read element by element, or cut out of its payload: first all ranges
are found, then the bytes in them are taken.
-/

namespace Av1Transport.Aggregation

-----------------------------------------------------------------------------------------
-- Headers
-----------------------------------------------------------------------------------------

/-- How the elements of a packet are counted and joined to those of its neighbours. -/
structure Header where
  /-- The first element goes on from the packet before. -/
  continues : Bool
  /-- The last element goes on in the next packet. -/
  continued : Bool
  /-- The number of elements, the last one without a length, or 0 if all have a length. -/
  count : UInt8
  /-- A coded video sequence starts here. -/
  startsSequence : Bool
  deriving Repr, DecidableEq

/-- The most elements that the count can tell. -/
def maxCount : Nat := 3

/-- The header that a byte spells. -/
def Header.ofByte (byte : UInt8) : Header where
  continues := bitSet byte 128
  continued := bitSet byte 64
  count := bitField byte 16 4
  startsSequence := bitSet byte 8

/-- The header's byte, the count cut to two bits. -/
def Header.toByte (header : Header) : UInt8 :=
  UInt8.ofNat (flagWeight header.continues 128 + flagWeight header.continued 64
    + header.count.toNat % 4 * 16 + flagWeight header.startsSequence 8)

/-- A header whose count fits two bits is read back from its byte. -/
theorem Header.ofByte_toByte (header : Header) (h : header.count.toNat ≤ maxCount)
    : ofByte header.toByte = header := by
  rcases header with ⟨_ | _, _ | _, count, _ | _⟩ <;>
  · simp only [maxCount] at h
    simp only [ofByte, toByte, flagWeight, bitSet, bitField, UInt8.toNat_ofNat', Header.mk.injEq,
      beq_iff_eq, beq_eq_false_iff_ne, Bool.false_eq_true, if_true, if_false,
      ← UInt8.toNat_inj]
    omega

-----------------------------------------------------------------------------------------
-- Packets
-----------------------------------------------------------------------------------------

/-- Why a payload is rejected. -/
inductive Error where
  | shortPacket
  | invalidLength (cause : Leb128.Error)
  | zeroLengthElement
  | invalidObu (cause : Obu.Error)
  | fragmentTooLarge
  deriving Repr, DecidableEq

def Error.message : Error → String
  | .shortPacket => "Unexpected end of packet"
  | .invalidLength cause => "Invalid OBU element length: " ++ cause.message
  | .zeroLengthElement => "Got 0 length for OBU element"
  | .invalidObu cause => "Invalid OBU: " ++ cause.message
  | .fragmentTooLarge => "Received OBU exceeded maximum allowed size"

/-- An aggregation packet: the elements are units without their size, or parts of units. -/
structure Packet where
  header : Header
  elements : List Bytes
  deriving Repr, DecidableEq

/-- A part of an element as one packet carries it. -/
structure Piece where
  bytes : Bytes
  /-- The part goes on from the packet before. -/
  continues : Bool
  /-- The part goes on in the next packet. -/
  continued : Bool
  deriving Repr, DecidableEq

/-- An element behind its length. -/
def withLength (element : Bytes) : Bytes :=
  Leb128.encode element.length ++ element

/-- The element behind its length at the front of the bytes, and how many bytes the two take.
An element is never empty. -/
def parseElement (bytes : Bytes) : Except Error (Bytes × Nat) :=
  match Leb128.read bytes with
  | .error cause => .error (.invalidLength cause)
  | .ok (length, count) =>
      match splitExact? length (bytes.drop count) with
      | none => .error .shortPacket
      | some ([], _) => .error .zeroLengthElement
      | some (element, _) => .ok (element, count + length)

/-- At most `count` elements behind their lengths, and what is left as one more element. -/
def parseCounted : Nat → Bytes → Except Error (List Bytes)
  | _, [] => .ok []
  | 0, rest => .ok [rest]
  | count + 1, bytes =>
      match parseElement bytes with
      | .error failure => .error failure
      | .ok (element, length) =>
          match parseCounted count (bytes.drop length) with
          | .error failure => .error failure
          | .ok elements => .ok (element :: elements)

/-- The elements that follow a header. -/
def parseElements (header : Header) (bytes : Bytes) : Except Error (List Bytes) :=
  if header.count = 0 then
    (readAll parseElement bytes).toExcept
  else
    parseCounted (header.count.toNat - 1) bytes

namespace Packet

/-- The packet that a payload spells. A header alone is no packet. -/
def parse : Bytes → Except Error Packet
  | [] => .error .shortPacket
  | [_] => .error .shortPacket
  | first :: body =>
      match parseElements (Header.ofByte first) body with
      | .error failure => .error failure
      | .ok elements => .ok ⟨Header.ofByte first, elements⟩

/-- The payload of a packet. The last element of a counted packet has no length. -/
def toBytes (packet : Packet) : Bytes :=
  packet.header.toByte ::
    if packet.header.count = 0 then
      packet.elements.flatMap withLength
    else
      packet.elements.dropLast.flatMap withLength ++ packet.elements.getLast?.getD []

/-- The elements as parts: only the first can continue, only the last can be continued. -/
def pieces (packet : Packet) : List Piece :=
  let count := packet.elements.length
  packet.elements.zipIdx.map fun (element, i) =>
    { bytes := element
      continues := i == 0 && packet.header.continues
      continued := i + 1 == count && packet.header.continued }

end Packet

/-- The payload starts with an element and not with the rest of one. -/
def startsElement : Bytes → Bool
  | [] => false
  | [_] => false
  | first :: _ => !(Header.ofByte first).continues

/-- The marker bit alone tells the last packet of a frame. -/
def endsFrame (marker : Bool) : Bool :=
  marker

/-- Reading an element takes at least the bytes of its length. -/
theorem count_of_parseElement_pos {bytes element : Bytes} {count : Nat}
    (h : parseElement bytes = .ok (element, count))
    : 0 < count := by
  unfold parseElement at h
  split at h
  · simp at h
  next length taken hr =>
    have := (Leb128.count_of_read hr).1
    split at h
    · simp at h
    · simp at h
    · simp only [Except.ok.injEq, Prod.mk.injEq] at h
      omega

-----------------------------------------------------------------------------------------
-- Where the elements of a payload stand in it
-----------------------------------------------------------------------------------------

/-- The bytes of a payload from one position up to another. -/
structure Range where
  start : Nat
  stop : Nat
  deriving Repr, DecidableEq

/-- The bytes in a range, if the range lies in the payload. -/
def Range.slice? (range : Range) (payload : Bytes) : Option Bytes :=
  if range.start ≤ range.stop ∧ range.stop ≤ payload.length then
    some ((payload.drop range.start).take (range.stop - range.start))
  else
    none

/-- The range of an element from its number and the position of its first byte or its length. The
last element that is counted takes the rest of the payload. -/
def locateElement (header : Header) (payload : Bytes) (number position : Nat)
    : Except Error Range :=
  if header.count ≠ 0 ∧ number + 1 = header.count.toNat then
    .ok ⟨position, payload.length⟩
  else
    match Leb128.read (payload.drop position) with
    | .error cause => .error (.invalidLength cause)
    | .ok (length, taken) =>
        if payload.length - position - taken < length then
          .error .shortPacket
        else if length = 0 then
          .error .zeroLengthElement
        else
          .ok ⟨position + taken, position + taken + length⟩

/-- The range of an element starts no earlier than where it was looked for, is not empty and ends in
the payload. -/
theorem bounds_of_locateElement {header : Header} {payload : Bytes} {number position : Nat}
    {range : Range} (inside : position < payload.length)
    (found : locateElement header payload number position = .ok range)
    : position ≤ range.start ∧ range.start < range.stop ∧ range.stop ≤ payload.length := by
  unfold locateElement at found
  split at found
  next =>
    cases found
    exact ⟨Nat.le_refl position, inside, Nat.le_refl _⟩
  next =>
    split at found
    next => cases found
    next length taken read =>
      have front := (Leb128.count_of_read read).2
      rw [List.length_drop] at front
      split at found
      next => cases found
      next =>
        split at found
        next => cases found
        next =>
          cases found
          dsimp only
          omega

/-- The ranges of the elements from a position on, the first of which has this number. -/
def locateFrom (header : Header) (payload : Bytes) (number position : Nat)
    : Except Error (List Range) :=
  if inside : position < payload.length then
    match found : locateElement header payload number position with
    | .error failure => .error failure
    | .ok range =>
        have _behind : position < range.stop := by
          have := bounds_of_locateElement inside found
          omega
        match locateFrom header payload (number + 1) range.stop with
        | .error failure => .error failure
        | .ok ranges => .ok (range :: ranges)
  else
    .ok []
termination_by payload.length - position

/-- The header of a payload and the ranges of its elements. A header alone is no packet. -/
def locate (payload : Bytes) : Except Error (Header × List Range) :=
  match payload with
  | [] => .error .shortPacket
  | [_] => .error .shortPacket
  | first :: _ =>
      match locateFrom (Header.ofByte first) payload 0 1 with
      | .error failure => .error failure
      | .ok ranges => .ok (Header.ofByte first, ranges)

/-- The packet that a payload spells, cut out of it range by range, unless a range does not lie in
the payload. -/
def Packet.cut? (payload : Bytes) : Option (Except Error Packet) :=
  match locate payload with
  | .error failure => some (.error failure)
  | .ok (header, ranges) =>
      match ranges.mapM fun range => range.slice? payload with
      | none => none
      | some elements => some (.ok ⟨header, elements⟩)

end Av1Transport.Aggregation
