import Av1Transport.Aggregation.Packet
import Av1Transport.Proofs.Bytes.ItemReadings
import Av1Transport.Proofs.Leb128.ShortestForm

/-! Packets that are read back from their payload.
A packet can be written when its elements are not empty, their lengths are numbers of 64 bits,
and a count, if there is one, is their number.
-/

namespace Av1Transport.Aggregation

/-- The elements and the header of a packet agree, so that its payload says all of it. -/
structure Packet.Writable (packet : Packet) : Prop where
  nonempty : packet.elements ≠ []
  present : ∀ element ∈ packet.elements, element ≠ []
  addressable : ∀ element ∈ packet.elements, element.length < UInt64.size
  countable : packet.header.count.toNat ≤ maxCount
  counted : packet.header.count = 0 ∨ packet.header.count.toNat = packet.elements.length

theorem withLength_ne_nil (element : Bytes) : withLength element ≠ [] := by
  simp [withLength, Leb128.encode_ne_nil]

@[simp]
theorem length_withLength (element : Bytes)
    : (withLength element).length = Leb128.size element.length + element.length := by
  simp [withLength]

/-- An element is read back from behind its length, whatever follows it. -/
theorem parseElement_withLength {element : Bytes} (present : element ≠ [])
    (addressable : element.length < UInt64.size) (rest : Bytes)
    : parseElement (withLength element ++ rest)
      = .ok (element, (withLength element).length) := by
  have read := Leb128.read_encode addressable (element ++ rest)
  have behind
      : (Leb128.encode element.length ++ (element ++ rest)).drop (Leb128.size element.length)
        = element ++ rest :=
    List.drop_left' (Leb128.length_encode _)
  unfold parseElement
  rw [withLength, List.append_assoc, read]
  dsimp only
  rw [behind, splitExact?_append]
  cases element with
  | nil => exact absurd rfl present
  | cons first tail => simp

/-- Elements that all have their length are read back, as the reading of item after item. -/
theorem readAll_flatMap_withLength {elements : List Bytes}
    (present : ∀ element ∈ elements, element ≠ [])
    (addressable : ∀ element ∈ elements, element.length < UInt64.size)
    : (readAll parseElement (elements.flatMap withLength)).toExcept = .ok elements := by
  have reading := readAll_flatMap parseElement id []
    (fun element _ => withLength_ne_nil element)
    (fun element member =>
      parseElement_withLength (present element member) (addressable element member))
  rw [List.append_nil] at reading
  simp [reading, Reading.toExcept, Reading.values, Function.comp_def]

/-- Elements with their length are read back in front of a last one without, by induction on
those that have it.
-/
theorem parseCounted_flatMap {elements : List Bytes} {last : Bytes}
    (present : ∀ element ∈ elements, element ≠ [])
    (addressable : ∀ element ∈ elements, element.length < UInt64.size)
    (remains : last ≠ [])
    : parseCounted elements.length (elements.flatMap withLength ++ last)
      = .ok (elements ++ [last]) := by
  induction elements with
  | nil =>
      cases last with
      | nil => exact absurd rfl remains
      | cons first tail => rfl
  | cons element elements ih =>
      have first := parseElement_withLength (present element (by simp))
        (addressable element (by simp)) (elements.flatMap withLength ++ last)
      have later := ih (fun next member => present next (by simp [member]))
        (fun next member => addressable next (by simp [member]))
      rw [List.flatMap_cons, List.append_assoc, List.length_cons, parseCounted]
      · simp only [first, List.drop_left, later, List.cons_append]
      · simp [withLength_ne_nil]

namespace Packet

/-- The bytes behind the header. -/
def body (packet : Packet) : Bytes :=
  if packet.header.count = 0 then
    packet.elements.flatMap withLength
  else
    packet.elements.dropLast.flatMap withLength ++ packet.elements.getLast?.getD []

theorem toBytes_eq (packet : Packet) : packet.toBytes = packet.header.toByte :: packet.body :=
  rfl

/-- The elements of a packet are read back under its header. Witness: with a count all but the
last have their length, without one all have it.
-/
theorem Writable.parseElements_body {packet : Packet} (writable : packet.Writable)
    : parseElements packet.header packet.body = .ok packet.elements := by
  unfold parseElements body
  split
  · exact readAll_flatMap_withLength writable.present writable.addressable
  next uncounted =>
    have number : packet.header.count.toNat - 1 = packet.elements.dropLast.length := by
      rw [List.length_dropLast, writable.counted.resolve_left uncounted]
    have front {element} (member : element ∈ packet.elements.dropLast)
        : element ∈ packet.elements :=
      packet.elements.dropLast_subset member
    have last := List.getLast_mem writable.nonempty
    rw [List.getLast?_eq_some_getLast writable.nonempty, Option.getD_some, number,
      parseCounted_flatMap (fun _ member => writable.present _ (front member))
        (fun _ member => writable.addressable _ (front member)) (writable.present _ last),
      List.dropLast_concat_getLast]

theorem Writable.body_ne_nil {packet : Packet} (writable : packet.Writable)
    : packet.body ≠ [] := by
  have last := List.getLast_mem writable.nonempty
  unfold body
  split
  · intro empty
    exact withLength_ne_nil _ (List.flatMap_eq_nil_iff.mp empty _ last)
  · simp [List.getLast?_eq_some_getLast writable.nonempty, writable.present _ last]

/-- A packet that can be written is read back from its payload. -/
theorem parse_toBytes {packet : Packet} (writable : packet.Writable)
    : parse packet.toBytes = .ok packet := by
  have elements := writable.parseElements_body
  have header := packet.header.ofByte_toByte writable.countable
  rw [toBytes_eq]
  cases split : packet.body with
  | nil => exact absurd split writable.body_ne_nil
  | cons first tail =>
      rw [split] at elements
      simp only [parse, header, elements]

end Packet

end Av1Transport.Aggregation
