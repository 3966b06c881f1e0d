import Av1Transport.Obu.Header
import Av1Transport.Bytes

/-! Open bitstream units, with the length of their payload and without it, and runs of units back
to back.
-/

namespace Av1Transport

/-- A unit: its header and the payload that follows the header and the size. -/
structure Obu where
  header : Obu.Header
  payload : Bytes
  deriving Repr, DecidableEq

namespace Obu

/-- The payload whose size stands at the front of the bytes, and how many bytes the two take. -/
def parsePayload (bytes : Bytes) : Except Error (Bytes × Nat) :=
  match Leb128.read bytes with
  | .error cause => .error (.invalidSize cause)
  | .ok (size, count) =>
      match splitExact? size (bytes.drop count) with
      | none => .error (.sizeExceedsBuffer size (bytes.drop count).length)
      | some (payload, _) => .ok (payload, count + size)

/-- The unit at the front of the bytes, and how many bytes it takes. Without a size it takes
all of them. -/
def parse (bytes : Bytes) : Except Error (Obu × Nat) :=
  match Header.parse bytes with
  | .error failure => .error failure
  | .ok header =>
      if header.hasSize then
        match parsePayload (bytes.drop header.size) with
        | .error failure => .error failure
        | .ok (payload, count) => .ok (⟨header, payload⟩, header.size + count)
      else
        .ok (⟨header, bytes.drop header.size⟩, bytes.length)

/-- The length of the unit written without its size. -/
def bareLength (obu : Obu) : Nat :=
  obu.header.size + obu.payload.length

/-- The unit written without its size, as it is transmitted. -/
def bareBytes (obu : Obu) : Bytes :=
  (obu.header.withSize false).toBytes ++ obu.payload

/-- The unit written with its size, as it is stored. -/
def toBytes (obu : Obu) : Bytes :=
  (obu.header.withSize true).toBytes ++ Leb128.encode obu.payload.length ++ obu.payload

/-- The unit is sent over RTP. -/
def isTransmitted (obu : Obu) : Bool :=
  obu.header.kind.isTransmitted

theorem isTransmitted_of_sequenceHeader {obu : Obu} (opening : obu.header.kind = .sequenceHeader)
    : obu.isTransmitted = true := by
  rw [isTransmitted, opening]
  rfl

/-- Only the two kinds are not sent, by cases on the kind. -/
theorem kind_of_not_isTransmitted {obu : Obu} (dropped : obu.isTransmitted = false)
    : obu.header.kind = .temporalDelimiter ∨ obu.header.kind = .tileList := by
  unfold isTransmitted Kind.isTransmitted at dropped
  split at dropped
  next delimiter => exact .inl delimiter
  next tiles => exact .inr tiles
  next => cases dropped

/-- The predicted length is that of the bytes. -/
@[simp]
theorem length_bareBytes (obu : Obu) : obu.bareBytes.length = obu.bareLength := by
  simp [bareBytes, bareLength]

/-- A unit without its size still has its header. -/
theorem bareLength_pos (obu : Obu) : 0 < obu.bareLength :=
  Nat.lt_of_lt_of_le obu.header.size_pos (Nat.le_add_right _ _)

/-- Reading a unit takes at least one byte, by cases on its size flag. -/
theorem count_of_parse_pos {bytes : Bytes} {obu : Obu} {count : Nat}
    (h : parse bytes = .ok (obu, count))
    : 0 < count := by
  unfold parse at h
  split at h
  · simp at h
  next header hh =>
    have positive := header.size_pos
    split at h
    · split at h
      · simp at h
      · simp only [Except.ok.injEq, Prod.mk.injEq] at h
        omega
    · simp only [Except.ok.injEq, Prod.mk.injEq] at h
      cases bytes with
      | nil => simp [Header.parse] at hh
      | cons _ _ => simp [← h.2]

-----------------------------------------------------------------------------------------
-- Units back to back
-----------------------------------------------------------------------------------------

/-- The units at the front of the bytes, up to the end or to the first one that cannot be
read. -/
def split (bytes : Bytes) : Reading Obu Error :=
  readAll parse bytes

/-- What comes next out of a stream, a unit or the failure that ends it, and the bytes that are
left. Where nothing comes next, nothing is left. -/
def next (bytes : Bytes) : Option (Except Error Obu) × Bytes :=
  if bytes.isEmpty then
    (none, [])
  else
    match parse bytes with
    | .ok (obu, count) => (some (.ok obu), bytes.drop count)
    | .error failure => (some (.error failure), [])

/-- Units written back to back, each with its size. -/
def joinBytes (obus : List Obu) : Bytes :=
  obus.flatMap toBytes

/-- A first unit is followed by the units of the bytes after it. -/
theorem split_of_parse {bytes : Bytes} {obu : Obu} {count : Nat} (nonempty : bytes ≠ [])
    (h : parse bytes = .ok (obu, count))
    : split bytes = (split (bytes.drop count)).cons obu count :=
  readAll_ok nonempty (count_of_parse_pos h) h

end Obu

end Av1Transport
