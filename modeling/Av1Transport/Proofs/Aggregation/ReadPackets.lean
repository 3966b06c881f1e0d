import Av1Transport.Aggregation.Packet
import Av1Transport.Proofs.Bytes.ItemReadings

/-! What holds of every packet that is read from a payload. -/

namespace Av1Transport.Aggregation

/-- An element behind its length is not empty, and no longer than the bytes it was read from. -/
theorem bounds_of_parseElement {bytes element : Bytes} {count : Nat}
    (read : parseElement bytes = .ok (element, count))
    : element ≠ [] ∧ element.length ≤ bytes.length := by
  unfold parseElement at read
  split at read
  next => cases read
  next length taken _ =>
    split at read
    next => cases read
    next => cases read
    next present cut =>
      cases read
      have total := congrArg List.length (eq_append_of_splitExact? cut).1
      rw [List.length_drop, List.length_append] at total
      exact ⟨present, by omega⟩

/-- So are the elements that are counted, by induction on those that have their length. -/
theorem bounds_of_mem_parseCounted {count : Nat} {bytes : Bytes} {elements : List Bytes}
    (read : parseCounted count bytes = .ok elements) {element : Bytes}
    (member : element ∈ elements)
    : element ≠ [] ∧ element.length ≤ bytes.length := by
  induction count generalizing bytes elements with
  | zero =>
      cases bytes with
      | nil =>
          cases read
          cases member
      | cons first rest =>
          cases read
          rw [List.mem_singleton.mp member]
          exact ⟨List.cons_ne_nil first rest, Nat.le_refl _⟩
  | succ count ih =>
      cases bytes with
      | nil =>
          cases read
          cases member
      | cons first rest =>
          rw [parseCounted] at read
          · split at read
            next => cases read
            next front length taken =>
              split at read
              next => cases read
              next later behind =>
                cases read
                rcases List.mem_cons.mp member with rfl | member
                · exact bounds_of_parseElement taken
                · obtain ⟨present, short⟩ := ih behind member
                  rw [List.length_drop] at short
                  exact ⟨present, by omega⟩
          · exact List.cons_ne_nil first rest

/-- So are all elements behind a header, whether the header counts them or not. -/
theorem bounds_of_mem_parseElements {header : Header} {body : Bytes} {elements : List Bytes}
    (read : parseElements header body = .ok elements) {element : Bytes}
    (member : element ∈ elements)
    : element ≠ [] ∧ element.length ≤ body.length := by
  unfold parseElements at read
  split at read
  next =>
    unfold Reading.toExcept at read
    split at read
    next =>
      cases read
      obtain ⟨left, count, behind, taken⟩ :=
        exists_item_of_mem_values (fun _ first => count_of_parseElement_pos first) member
      obtain ⟨present, short⟩ := bounds_of_parseElement taken
      exact ⟨present, Nat.le_trans short behind.length_le⟩
    next => cases read
  next => exact bounds_of_mem_parseCounted read member

namespace Packet

/-- A packet has the header that its first byte spells and the elements behind it. -/
theorem parse_ok {payload : Bytes} {packet : Packet} (parsed : parse payload = .ok packet)
    : ∃ first body,
        payload = first :: body
        ∧ packet.header = Header.ofByte first
        ∧ parseElements packet.header body = .ok packet.elements := by
  unfold parse at parsed
  split at parsed
  next => cases parsed
  next => cases parsed
  next first body _ =>
    split at parsed
    next => cases parsed
    next elements read =>
      cases parsed
      exact ⟨first, body, rfl, rfl, read⟩

/-- An element of a packet is not empty, and the packet's header stands in front of it. -/
theorem bounds_of_mem_elements {payload : Bytes} {packet : Packet}
    (parsed : parse payload = .ok packet) {element : Bytes} (member : element ∈ packet.elements)
    : element ≠ [] ∧ element.length < payload.length := by
  obtain ⟨first, body, rfl, _, read⟩ := parse_ok parsed
  obtain ⟨present, short⟩ := bounds_of_mem_parseElements read member
  exact ⟨present, Nat.lt_succ_of_le short⟩

theorem bounds_of_mem_pieces {payload : Bytes} {packet : Packet}
    (parsed : parse payload = .ok packet) {piece : Piece} (member : piece ∈ packet.pieces)
    : piece.bytes ≠ [] ∧ piece.bytes.length < payload.length := by
  obtain ⟨⟨element, index⟩, listed, rfl⟩ := List.mem_map.mp member
  exact bounds_of_mem_elements parsed (List.fst_mem_of_mem_zipIdx listed)

/-- Only the first piece of a packet can go on from the packet before, and only the last one can
go on in the next packet, by their numbers.
-/
theorem continues_of_mem_tail_pieces {packet : Packet} {piece : Piece}
    (member : piece ∈ packet.pieces.tail)
    : piece.continues = false := by
  obtain ⟨index, inside, rfl⟩ := List.getElem_of_mem member
  simp [pieces]

theorem continued_of_mem_dropLast_pieces {packet : Packet} {piece : Piece}
    (member : piece ∈ packet.pieces.dropLast)
    : piece.continued = false := by
  obtain ⟨index, inside, rfl⟩ := List.getElem_of_mem member
  have early : index + 1 ≠ packet.elements.length := by
    simp only [List.length_dropLast, pieces, List.length_map, List.length_zipIdx] at inside
    omega
  simp [pieces, early]

theorem continues_of_head?_pieces {packet : Packet} {piece : Piece}
    (head : packet.pieces.head? = some piece)
    : piece.continues = packet.header.continues := by
  unfold pieces at head
  match found : packet.elements with
  | [] =>
      rw [found] at head
      cases head
  | element :: elements =>
      rw [found] at head
      cases head
      rfl

end Packet

end Av1Transport.Aggregation
