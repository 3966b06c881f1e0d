import Av1Transport.Proofs.Aggregation.ConformingPackets

/-! The grammar of what stands behind a header: blocks, each a length and as many bytes, and behind
them perhaps one element that has no length.
Main statements: bytes are read exactly where they can be taken apart in this way, and they can be
taken apart in one way only.
-/

namespace Av1Transport.Aggregation

-----------------------------------------------------------------------------------------
-- Blocks
-----------------------------------------------------------------------------------------

/-- A length, in any form that can be read, and the element of that length behind it. -/
structure Block where
  form : Bytes
  element : Bytes
  read : Leb128.read form = .ok (element.length, form.length)
  present : element ≠ []

namespace Block

def bytes (block : Block) : Bytes :=
  block.form ++ block.element

theorem bytes_ne_nil (block : Block) : block.bytes ≠ [] := by
  simp [bytes, ne_nil_of_read block.read]

/-- A block is read back, whatever follows it. -/
theorem parseElement_bytes (block : Block) (rest : Bytes)
    : parseElement (block.bytes ++ rest) = .ok (block.element, block.bytes.length) :=
  parseElement_of_read block.read block.present rest

/-- Bytes start with one block at most: its length says where it ends. -/
theorem eq_of_append_eq {block other : Block} {rest behind : Bytes}
    (same : block.bytes ++ rest = other.bytes ++ behind)
    : block = other ∧ rest = behind := by
  obtain ⟨form, element, read, present⟩ := block
  obtain ⟨otherForm, otherElement, otherRead, otherPresent⟩ := other
  simp only [bytes, List.append_assoc] at same
  have lengths := Leb128.read_append otherRead (otherElement ++ behind)
  rw [← same, Leb128.read_append read] at lengths
  simp only [Except.ok.injEq, Prod.mk.injEq] at lengths
  obtain ⟨rfl, tail⟩ := List.append_inj same lengths.2
  obtain ⟨rfl, rest⟩ := List.append_inj tail lengths.1
  exact ⟨rfl, rest⟩

end Block

/-- An element that was read stood in a block at the front of the bytes. -/
theorem exists_block_of_parseElement {bytes element : Bytes} {count : Nat}
    (read : parseElement bytes = .ok (element, count))
    : ∃ (block : Block) (rest : Bytes),
        bytes = block.bytes ++ rest
        ∧ block.element = element
        ∧ block.bytes.length = count := by
  unfold parseElement at read
  split at read
  next => cases read
  next length taken front =>
    split at read
    next => cases read
    next => cases read
    next behind present cut =>
      cases read
      obtain ⟨joined, rfl⟩ := eq_append_of_splitExact? cut
      have number : (bytes.take taken).length = taken :=
        List.length_take_of_le (Leb128.count_of_read front).2
      have form := Leb128.read_take_append front []
      rw [List.append_nil] at form
      refine ⟨⟨bytes.take taken, element, number.symm ▸ form, present⟩, behind, ?_, rfl, ?_⟩
      · rw [Block.bytes, List.append_assoc, ← joined, List.take_append_drop]
      · exact List.length_append.trans (congrArg (· + element.length) number)

-----------------------------------------------------------------------------------------
-- Divisions
-----------------------------------------------------------------------------------------

/-- Blocks, and perhaps an element behind them that has no length. -/
structure Division where
  blocks : List Block
  last : Option Bytes

namespace Division

/-- The bytes that are divided. -/
def bytes (division : Division) : Bytes :=
  division.blocks.flatMap Block.bytes ++ division.last.getD []

/-- The elements in order. -/
def elements (division : Division) : List Bytes :=
  division.blocks.map Block.element ++ division.last.toList

/-- What may stand behind a header with this count. Without a count every element has its length.
With one, the element that makes up the number has none, but the bytes may end before it.
-/
inductive Allowed (count : UInt8) : Division → Prop where
  | blocks {blocks : List Block} (nonempty : blocks ≠ [])
      (few : count = 0 ∨ blocks.length ≤ count.toNat - 1)
      : Allowed count ⟨blocks, none⟩
  | remainder {blocks : List Block} {last : Bytes} (counted : count ≠ 0)
      (number : blocks.length = count.toNat - 1) (present : last ≠ [])
      : Allowed count ⟨blocks, some last⟩

/-- Where no block was found there is none: an element without a length would stand behind all of
them.
-/
private theorem blocks_eq_nil {blocks : List Block} {last otherLast : Option Bytes}
    (same : last.getD [] = blocks.flatMap Block.bytes ++ otherLast.getD [])
    (few : ∀ found ∈ last, blocks.length ≤ 0)
    : blocks = [] := by
  cases last with
  | none =>
      cases blocks with
      | nil => rfl
      | cons block blocks =>
          have empty := (List.append_eq_nil_iff.mp same.symm).1
          exact absurd (List.append_eq_nil_iff.mp empty).1 block.bytes_ne_nil
  | some found => exact List.eq_nil_of_length_eq_zero (Nat.le_zero.mp (few found rfl))

/-- Two divisions of the same bytes are the same if the one that has an element without length has
no fewer blocks. Witness: induction on the blocks, of which the first ones must be the same.
-/
theorem eq_of_bytes_eq {blocks others : List Block} {last otherLast : Option Bytes}
    (same : bytes ⟨blocks, last⟩ = bytes ⟨others, otherLast⟩)
    (present : ∀ found ∈ last, found ≠ []) (otherPresent : ∀ found ∈ otherLast, found ≠ [])
    (few : ∀ found ∈ last, others.length ≤ blocks.length)
    (otherFew : ∀ found ∈ otherLast, blocks.length ≤ others.length)
    : blocks = others ∧ last = otherLast := by
  induction blocks generalizing others with
  | nil =>
      obtain rfl := blocks_eq_nil same few
      refine ⟨rfl, ?_⟩
      cases last <;> cases otherLast <;> simp_all [bytes]
  | cons block blocks ih =>
      cases others with
      | nil => cases blocks_eq_nil same.symm otherFew
      | cons other others =>
          simp only [bytes, List.flatMap_cons, List.append_assoc] at same
          obtain ⟨rfl, rest⟩ := Block.eq_of_append_eq same
          obtain ⟨rfl, rfl⟩ := ih rest
            (fun found member => Nat.le_of_succ_le_succ (few found member))
            (fun found member => Nat.le_of_succ_le_succ (otherFew found member))
          exact ⟨rfl, rfl⟩

theorem Allowed.last_ne_nil {count : UInt8} {division : Division}
    (allowed : division.Allowed count)
    : ∀ last ∈ division.last, last ≠ [] := by
  cases allowed with
  | blocks => simp
  | remainder _ _ present => simpa using present

/-- An element without length stands behind as many blocks as there may be. -/
theorem Allowed.length_le {count : UInt8} {division other : Division}
    (allowed : division.Allowed count) (otherAllowed : other.Allowed count)
    : ∀ last ∈ division.last, other.blocks.length ≤ division.blocks.length := by
  cases allowed with
  | blocks => simp
  | remainder counted number present =>
      intro _ _
      cases otherAllowed with
      | blocks _ few => exact number ▸ few.resolve_left counted
      | remainder _ otherNumber _ => exact Nat.le_of_eq (otherNumber.trans number.symm)

/-- Bytes can be taken apart in one way only. -/
theorem Allowed.unique {count : UInt8} {division other : Division}
    (allowed : division.Allowed count) (otherAllowed : other.Allowed count)
    (same : division.bytes = other.bytes)
    : division = other := by
  obtain ⟨blocks, last⟩ := eq_of_bytes_eq same allowed.last_ne_nil otherAllowed.last_ne_nil
    (allowed.length_le otherAllowed) (otherAllowed.length_le allowed)
  cases division
  cases other
  cases blocks
  cases last
  rfl

-----------------------------------------------------------------------------------------
-- Reading
-----------------------------------------------------------------------------------------

/-- Blocks are counted off in front of what is read with the count that is left, by induction on
them.
-/
theorem parseCounted_blocks (blocks : List Block) {count : Nat} {rest : Bytes}
    {elements : List Bytes} (later : parseCounted count rest = .ok elements)
    : parseCounted (blocks.length + count) (blocks.flatMap Block.bytes ++ rest)
      = .ok (blocks.map Block.element ++ elements) := by
  induction blocks with
  | nil => simpa using later
  | cons block blocks ih =>
      have first := block.parseElement_bytes (blocks.flatMap Block.bytes ++ rest)
      rw [List.flatMap_cons, List.append_assoc, List.length_cons, Nat.add_right_comm, parseCounted]
      · simp only [first, List.drop_left, ih, List.map_cons, List.cons_append]
      · simp [block.bytes_ne_nil]

/-- Blocks alone are read as item after item. -/
theorem readAll_blocks (blocks : List Block)
    : (readAll parseElement (blocks.flatMap Block.bytes)).toExcept
      = .ok (blocks.map Block.element) := by
  have reading := readAll_flatMap parseElement Block.element []
    (fun block (_ : block ∈ blocks) => block.bytes_ne_nil)
    (fun block _ => block.parseElement_bytes)
  rw [List.append_nil] at reading
  simp [reading, Reading.toExcept, Reading.values, Function.comp_def]

/-- What may stand behind a header is read as its elements. -/
theorem Allowed.parseElements {header : Header} {division : Division}
    (allowed : division.Allowed header.count)
    : Aggregation.parseElements header division.bytes = .ok division.elements := by
  unfold Aggregation.parseElements
  cases allowed with
  | @blocks blocks nonempty few =>
      simp only [bytes, elements, Option.getD_none, Option.toList_none, List.append_nil]
      by_cases uncounted : header.count = 0
      · rw [if_pos uncounted]
        exact readAll_blocks blocks
      · have room := few.resolve_left uncounted
        have read := parseCounted_blocks blocks
          (show parseCounted (header.count.toNat - 1 - blocks.length) [] = .ok [] by
            rw [parseCounted])
        rw [if_neg uncounted, ← Nat.add_sub_of_le room]
        simpa using read
  | @remainder blocks last counted number present =>
      have rest : parseCounted 0 last = .ok [last] := by
        cases last with
        | nil => exact absurd rfl present
        | cons first tail => rfl
      rw [if_neg counted, ← number]
      exact parseCounted_blocks blocks rest

/-- Bytes that were counted off are blocks, of which there may be too few for an element without
length, by induction on the count.
-/
theorem exists_of_parseCounted {count : Nat} {body : Bytes} {found : List Bytes}
    (read : parseCounted count body = .ok found)
    : ∃ division : Division,
        division.bytes = body
        ∧ division.elements = found
        ∧ (division.last = none ∧ division.blocks.length ≤ count
          ∨ division.blocks.length = count ∧ ∃ last, division.last = some last ∧ last ≠ []) := by
  induction count generalizing body found with
  | zero =>
      cases body with
      | nil =>
          cases read
          exact ⟨⟨[], none⟩, rfl, rfl, .inl ⟨rfl, Nat.le_refl 0⟩⟩
      | cons first rest =>
          cases read
          exact ⟨⟨[], some (first :: rest)⟩, rfl, rfl,
            .inr ⟨rfl, first :: rest, rfl, List.cons_ne_nil first rest⟩⟩
  | succ count ih =>
      cases body with
      | nil =>
          cases read
          exact ⟨⟨[], none⟩, rfl, rfl, .inl ⟨rfl, Nat.zero_le _⟩⟩
      | cons first rest =>
          rw [parseCounted] at read
          · split at read
            next => cases read
            next element length taken =>
              split at read
              next => cases read
              next later behind =>
                cases read
                obtain ⟨block, tail, split, rfl, rfl⟩ := exists_block_of_parseElement taken
                rw [split, List.drop_left] at behind
                obtain ⟨⟨blocks, last⟩, rfl, rfl, ends⟩ := ih behind
                refine ⟨⟨block :: blocks, last⟩, ?_, rfl, ?_⟩
                · simp only [split, bytes, List.flatMap_cons, List.append_assoc]
                · rcases ends with ⟨bare, few⟩ | ⟨number, ended⟩
                  · exact .inl ⟨bare, Nat.succ_le_succ few⟩
                  · exact .inr ⟨congrArg Nat.succ number, ended⟩
          · exact List.cons_ne_nil first rest

/-- Bytes that were read as item after item to their end are blocks, by induction on the reading. -/
theorem exists_of_readAll {body : Bytes}
    (finished : (readAll parseElement body).failure = none)
    : ∃ blocks : List Block,
        blocks.flatMap Block.bytes = body
        ∧ blocks.map Block.element = (readAll parseElement body).values := by
  revert finished
  refine readAll_induction parseElement (fun _ read => count_of_parseElement_pos read)
    (motive := fun body reading =>
      reading.failure = none
      → ∃ blocks : List Block,
          blocks.flatMap Block.bytes = body ∧ blocks.map Block.element = reading.values)
    ?_ ?_ ?_ body
  · exact fun _ => ⟨[], rfl, rfl⟩
  · intro _ _ _ _ finished
    cases finished
  · intro body element count _ read later finished
    obtain ⟨block, rest, rfl, rfl, rfl⟩ := exists_block_of_parseElement read
    obtain ⟨blocks, tail, values⟩ := later finished
    rw [List.drop_left] at tail values
    refine ⟨block :: blocks, ?_, ?_⟩
    · rw [List.flatMap_cons, tail]
    · rw [List.map_cons, values, List.drop_left]
      rfl

/-- Bytes behind a header that were read could be taken apart as the header allows. -/
theorem exists_of_parseElements {header : Header} {body : Bytes} {found : List Bytes}
    (nonempty : body ≠ []) (read : Aggregation.parseElements header body = .ok found)
    : ∃ division : Division,
        division.Allowed header.count ∧ division.bytes = body ∧ division.elements = found := by
  unfold Aggregation.parseElements at read
  split at read
  next uncounted =>
    unfold Reading.toExcept at read
    split at read
    next finished =>
      cases read
      obtain ⟨blocks, joined, values⟩ := exists_of_readAll finished
      refine ⟨⟨blocks, none⟩, .blocks ?_ (.inl uncounted), ?_, ?_⟩
      · rintro rfl
        exact nonempty joined.symm
      · simpa [bytes] using joined
      · simpa [elements] using values
    next => cases read
  next counted =>
    obtain ⟨⟨blocks, last⟩, joined, values, ⟨rfl, few⟩ | ⟨number, last, rfl, present⟩⟩ :=
      exists_of_parseCounted read
    · refine ⟨⟨blocks, none⟩, .blocks ?_ (.inr few), joined, values⟩
      rintro rfl
      exact nonempty joined.symm
    · exact ⟨⟨blocks, some last⟩, .remainder counted number present, joined, values⟩

/-- There is something behind a header that is taken apart. -/
theorem Allowed.bytes_ne_nil {count : UInt8} {division : Division}
    (allowed : division.Allowed count)
    : division.bytes ≠ [] := by
  cases allowed with
  | @blocks blocks nonempty few =>
      cases blocks with
      | nil => exact absurd rfl nonempty
      | cons block blocks => simp [bytes, block.bytes_ne_nil]
  | remainder counted number present => simp [bytes, present]

/-- So there is an element. -/
theorem Allowed.elements_ne_nil {count : UInt8} {division : Division}
    (allowed : division.Allowed count)
    : division.elements ≠ [] := by
  cases allowed with
  | blocks nonempty few => simp [elements, nonempty]
  | remainder counted number present => simp [elements]

end Division

end Av1Transport.Aggregation
