import Av1Transport.Aggregation.Group
import Av1Transport.Proofs.Aggregation.WrittenPackets

/-! The packets of a unit that is cut.
The blocks of a byte string are that byte string; the packets after the first are described by
recursion on the blocks they carry, which is how a receiver meets them.
-/

namespace Av1Transport.Aggregation

/-- A function of the items alone does not see their numbers. -/
theorem map_zipIdx_fst {α β : Type} (f : α → β) (items : List α)
    : items.zipIdx.map (fun item => f item.1) = items.map f := by
  conv => rhs; rw [← List.zipIdx_map_fst 0 items, List.map_map]
  rfl

namespace Group

-----------------------------------------------------------------------------------------
-- Blocks
-----------------------------------------------------------------------------------------

/-- Blocks are not empty, no longer than asked for, and make up the bytes they were cut from.
Witness: induction on the reading that cuts them.
-/
private theorem blocks_facts {size : Nat} (positive : 0 < size) (bytes : Bytes)
    : (blocks size bytes).flatten = bytes
      ∧ ∀ block ∈ blocks size bytes, block ≠ [] ∧ block.length ≤ size := by
  refine readAll_induction (fun rest => Except.ok (rest.take size, size))
    (motive := fun bytes reading =>
      reading.values.flatten = bytes
      ∧ ∀ block ∈ reading.values, block ≠ [] ∧ block.length ≤ size)
    ?_ ?_ ?_ ?_ bytes
  · intro front block count _ read
    cases read
    exact positive
  · simp [Reading.values]
  · intro front failure _ read
    cases read
  · intro front block count nonempty read later
    cases read
    obtain ⟨joined, bounded⟩ := later
    constructor
    · rw [show ((readAll _ (front.drop size)).cons (front.take size) size).values
          = front.take size :: (readAll _ (front.drop size)).values from rfl,
        List.flatten_cons, joined, List.take_append_drop]
    · intro block member
      rcases List.mem_cons.mp member with same | member
      · subst same
        simp only [ne_eq, List.take_eq_nil_iff, not_or, List.length_take]
        exact ⟨⟨Nat.ne_of_gt positive, nonempty⟩, Nat.min_le_left _ _⟩
      · exact bounded block member

theorem flatten_blocks {size : Nat} (positive : 0 < size) (bytes : Bytes)
    : (blocks size bytes).flatten = bytes :=
  (blocks_facts positive bytes).1

theorem ne_nil_of_mem_blocks {size : Nat} (positive : 0 < size) {bytes block : Bytes}
    (member : block ∈ blocks size bytes)
    : block ≠ [] :=
  ((blocks_facts positive bytes).2 block member).1

theorem length_le_of_mem_blocks {size : Nat} (positive : 0 < size) {bytes block : Bytes}
    (member : block ∈ blocks size bytes)
    : block.length ≤ size :=
  ((blocks_facts positive bytes).2 block member).2

/-- All blocks but the last are as long as asked for. Witness: induction on the reading; a block in
front of another one leaves bytes behind it.
-/
theorem length_of_mem_dropLast_blocks {size : Nat} (positive : 0 < size) {bytes block : Bytes}
    (member : block ∈ (blocks size bytes).dropLast)
    : block.length = size := by
  revert member
  refine readAll_induction (fun rest => Except.ok (rest.take size, size))
    (motive := fun _ reading => block ∈ reading.values.dropLast → block.length = size)
    ?_ ?_ ?_ ?_ bytes
  · intro front first count _ read
    cases read
    exact positive
  · simp [Reading.values]
  · intro front failure _ read
    cases read
  · intro front first count _ read later member
    cases read
    by_cases behind : front.drop size = []
    · simp [behind, Reading.values, Reading.cons] at member
    · have more
          : (readAll (ε := Empty) (fun rest => Except.ok (rest.take size, size))
              (front.drop size)).values ≠ [] := by
        intro none
        have whole := flatten_blocks positive (front.drop size)
        rw [blocks, none] at whole
        exact behind whole.symm
      rw [show ((readAll _ (front.drop size)).cons (front.take size) size).values
          = front.take size :: (readAll _ (front.drop size)).values from rfl,
        List.dropLast_cons_of_ne_nil more] at member
      rcases List.mem_cons.mp member with same | member
      · rw [same, List.length_take]
        simp only [List.drop_eq_nil_iff] at behind
        omega
      · exact later member

-----------------------------------------------------------------------------------------
-- One packet for each block
-----------------------------------------------------------------------------------------

/-- The packet of one part of a unit. -/
def partPacket (continues continued startsSequence : Bool) (part : Bytes) : Packet where
  header := { continues, continued, count := 1, startsSequence }
  elements := [part]

/-- The packets of the parts after the first: all go on from the packet before, and all but the
last go on in the next one.
-/
def continuationPackets : List Bytes → List Packet
  | [] => []
  | part :: parts => partPacket true (!parts.isEmpty) false part :: continuationPackets parts

theorem length_continuationPackets (parts : List Bytes)
    : (continuationPackets parts).length = parts.length := by
  induction parts with
  | nil => rfl
  | cons part parts ih => simp [continuationPackets, ih]

private theorem bne_count {index count : Nat} {parts : List Bytes}
    (counted : count = index + 1 + parts.length)
    : (index + 1 != count) = !parts.isEmpty := by
  cases parts with
  | nil => simp [counted]
  | cons part parts =>
      simp only [counted, List.length_cons, List.isEmpty_cons, Bool.not_false, bne_iff_ne]
      omega

/-- Parts numbered from a later one on make continuations, by induction on the parts. -/
private theorem map_zipIdx_later {parts : List Bytes} {index count : Nat} (starts : Bool)
    (counted : count = index + 1 + parts.length)
    : (parts.zipIdx (index + 1)).map
          (fun (part, i) => partPacket (i != 0) (i + 1 != count) (i == 0 && starts) part)
        = continuationPackets parts := by
  induction parts generalizing index with
  | nil => rfl
  | cons part parts ih =>
      have next : count = index + 1 + 1 + parts.length := by
        simp only [List.length_cons] at counted
        omega
      simp only [List.zipIdx_cons, List.map_cons, ih next, continuationPackets, bne_count next]
      rfl

/-- A unit that overfills a packet has more than one block: the first one, which is too short for
the whole unit, and others.
-/
theorem exists_blocks_of_long {mtu : Nat} (room : 2 ≤ mtu) {obu : Obu} (long : mtu ≤ obu.bareLength)
    : ∃ first later,
        blocks (mtu - 1) obu.bareBytes = first :: later
        ∧ later ≠ []
        ∧ first ++ later.flatten = obu.bareBytes
        ∧ ∀ part ∈ first :: later, part ≠ [] ∧ part.length ≤ mtu - 1 := by
  have positive : 0 < mtu - 1 := by omega
  have whole := flatten_blocks positive obu.bareBytes
  have length := congrArg List.length whole
  rw [Obu.length_bareBytes] at length
  cases cut : blocks (mtu - 1) obu.bareBytes with
  | nil =>
      rw [cut, List.flatten_nil, List.length_nil] at length
      omega
  | cons first later =>
      have bounded : ∀ part ∈ first :: later, part ≠ [] ∧ part.length ≤ mtu - 1 := by
        intro part member
        rw [← cut] at member
        exact ⟨ne_nil_of_mem_blocks positive member, length_le_of_mem_blocks positive member⟩
      rw [cut, List.flatten_cons] at whole length
      refine ⟨first, later, rfl, ?_, whole, bounded⟩
      intro none
      have short := (bounded first List.mem_cons_self).2
      rw [none, List.flatten_nil, List.append_nil] at length
      omega

/-- The first block is sent as the start of the unit, and the others as continuations. -/
theorem fragmentPackets_of_blocks {mtu : Nat} {obu : Obu} {first : Bytes} {later : List Bytes}
    (cut : blocks (mtu - 1) obu.bareBytes = first :: later)
    : fragmentPackets mtu obu
      = partPacket false (!later.isEmpty) (Bundle.startsSequence [obu]) first
        :: continuationPackets later := by
  have counted : (first :: later).length = 0 + 1 + later.length := by
    simp only [List.length_cons]
    omega
  have tail := map_zipIdx_later (Bundle.startsSequence [obu]) counted
  show ((blocks (mtu - 1) obu.bareBytes).zipIdx.map fun (part, i) =>
      partPacket (i != 0) (i + 1 != (blocks (mtu - 1) obu.bareBytes).length)
        (i == 0 && Bundle.startsSequence [obu]) part)
    = _
  simp only [cut, List.zipIdx_cons, List.map_cons, tail, bne_count counted]
  rfl

theorem writable_partPacket {part : Bytes} (present : part ≠ [])
    (addressable : part.length < UInt64.size) (continues continued startsSequence : Bool)
    : (partPacket continues continued startsSequence part).Writable where
  nonempty := by simp [partPacket]
  present := by simpa [partPacket] using present
  addressable := by simpa [partPacket] using addressable
  countable := by simp [partPacket, maxCount]
  counted := by simp [partPacket]

@[simp]
theorem length_toBytes_partPacket (continues continued startsSequence : Bool) (part : Bytes)
    : (partPacket continues continued startsSequence part).toBytes.length = part.length + 1 := by
  simp [partPacket, Packet.toBytes]

@[simp]
theorem pieces_partPacket (continues continued startsSequence : Bool) (part : Bytes)
    : (partPacket continues continued startsSequence part).pieces
      = [⟨part, continues, continued⟩] := by
  simp [partPacket, Packet.pieces]

end Group

end Av1Transport.Aggregation
