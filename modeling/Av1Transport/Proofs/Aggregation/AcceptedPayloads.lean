import Av1Transport.Aggregation.Packet
import Av1Transport.Proofs.Aggregation.Divisions
import Av1Transport.Proofs.Aggregation.ReadPackets

/-! What payloads are packets, and where their elements stand.
Main statement: a payload is a packet exactly where the bytes behind its header can be taken apart
as the header allows; the elements are cut out of ranges that lie in the payload in order.
-/

namespace Av1Transport.Aggregation

-----------------------------------------------------------------------------------------
-- Ranges of elements
-----------------------------------------------------------------------------------------

/-- No range is empty, none reaches outside of the given positions, and each one ends before the
next one starts.
-/
structure Ordered (position length : Nat) (ranges : List Range) : Prop where
  bounds
    : ∀ range ∈ ranges,
        position ≤ range.start ∧ range.start < range.stop ∧ range.stop ≤ length
  disjoint : ranges.Pairwise fun range later => range.stop ≤ later.start

theorem locateFrom_of_le (header : Header) {payload : Bytes} (number : Nat) {position : Nat}
    (outside : payload.length ≤ position)
    : locateFrom header payload number position = .ok [] := by
  rw [locateFrom, dif_neg (Nat.not_lt.mpr outside)]

/-- The ranges from a position on are that of its element and those behind it. -/
theorem locateFrom_of_ok {header : Header} {payload : Bytes} {number position : Nat}
    {range : Range} (inside : position < payload.length)
    (found : locateElement header payload number position = .ok range)
    : locateFrom header payload number position
      = (locateFrom header payload (number + 1) range.stop).map (range :: ·) := by
  rw [locateFrom, dif_pos inside]
  split
  next failure failed =>
    rw [found] at failed
    cases failed
  next same again =>
    rw [found] at again
    cases again
    dsimp only
    cases locateFrom header payload (number + 1) range.stop <;> rfl

theorem locateFrom_of_error {header : Header} {payload : Bytes} {number position : Nat}
    {failure : Error} (inside : position < payload.length)
    (failed : locateElement header payload number position = .error failure)
    : locateFrom header payload number position = .error failure := by
  rw [locateFrom, dif_pos inside]
  split
  next other again =>
    rw [failed] at again
    cases again
    rfl
  next range found =>
    rw [failed] at found
    cases found

/-- Ranges that were found are in order, by induction on the positions that are left. -/
theorem ordered_of_locateFrom {header : Header} {payload : Bytes} {number position : Nat}
    {ranges : List Range} (found : locateFrom header payload number position = .ok ranges)
    : Ordered position payload.length ranges := by
  fun_induction locateFrom header payload number position generalizing ranges with
  | case1 => cases found
  | case2 number position inside range first behind failure later ih => cases found
  | case3 number position inside range first behind tail later ih =>
      cases found
      obtain ⟨bounds, disjoint⟩ := ih later
      have own := bounds_of_locateElement inside first
      refine ⟨?_, List.pairwise_cons.mpr ⟨fun next member => (bounds next member).1, disjoint⟩⟩
      intro next member
      rcases List.mem_cons.mp member with rfl | member
      · exact own
      · obtain ⟨lower, upper⟩ := bounds next member
        exact ⟨by omega, upper⟩
  | case4 =>
      cases found
      exact ⟨by simp, List.Pairwise.nil⟩

theorem slice?_eq_some {range : Range} {payload : Bytes} (ordered : range.start ≤ range.stop)
    (inside : range.stop ≤ payload.length)
    : range.slice? payload
      = some ((payload.drop range.start).take (range.stop - range.start)) :=
  if_pos ⟨ordered, inside⟩

/-- Where an element that should have a length cannot be read, no range is found. -/
theorem locateElement_of_error {header : Header} {payload : Bytes} {number position : Nat}
    {failure : Error} (prefixed : ¬ (header.count ≠ 0 ∧ number + 1 = header.count.toNat))
    (failed : parseElement (payload.drop position) = .error failure)
    : locateElement header payload number position = .error failure := by
  unfold parseElement at failed
  unfold locateElement
  rw [if_neg prefixed]
  cases read : Leb128.read (payload.drop position) with
  | error cause =>
      rw [read] at failed
      cases failed
      rfl
  | ok front =>
      obtain ⟨length, taken⟩ := front
      rw [read] at failed
      dsimp only at failed ⊢
      rw [splitExact?_eq, List.length_drop, List.length_drop] at failed
      by_cases short : payload.length - position - taken < length
      · rw [if_neg (Nat.not_le_of_lt short)] at failed
        cases failed
        rw [if_pos short]
      · rw [if_pos (Nat.le_of_not_lt short)] at failed
        rw [if_neg short]
        split at failed
        next none => cases none
        next cut =>
          cases failed
          have empty := congrArg List.length (congrArg Prod.fst (Option.some.inj cut))
          simp only [List.length_take, List.length_drop, List.length_nil] at empty
          rw [if_pos (by omega)]
        next => cases failed

/-- An element that has a length is found where it is read. -/
theorem locateElement_of_ok {header : Header} {payload : Bytes} {number position : Nat}
    {element : Bytes} {taken : Nat}
    (prefixed : ¬ (header.count ≠ 0 ∧ number + 1 = header.count.toNat))
    (read : parseElement (payload.drop position) = .ok (element, taken))
    : ∃ range,
        locateElement header payload number position = .ok range
        ∧ range.slice? payload = some element
        ∧ range.stop = position + taken := by
  obtain ⟨block, rest, split, rfl, rfl⟩ := exists_block_of_parseElement read
  have length := congrArg List.length split
  have form := Leb128.read_append block.read (block.element ++ rest)
  rw [List.length_drop, List.length_append, Block.bytes, List.length_append] at length
  rw [Block.bytes, List.append_assoc] at split
  have positive := List.length_pos_iff.mpr block.present
  unfold locateElement
  rw [if_neg prefixed, split, form]
  dsimp only
  rw [if_neg (by omega), if_neg (by omega)]
  refine ⟨_, rfl, ?_, ?_⟩
  · rw [slice?_eq_some (by dsimp only; omega) (by dsimp only; omega), Nat.add_sub_cancel_left,
      ← List.drop_drop, split, List.drop_left, List.take_left]
  · rw [Block.bytes, List.length_append, Nat.add_assoc]

-----------------------------------------------------------------------------------------
-- Payloads cut into their elements
-----------------------------------------------------------------------------------------

theorem toExcept_cons {α ε : Type} (item : α) (count : Nat) (reading : Reading α ε)
    : (reading.cons item count).toExcept = reading.toExcept.map (item :: ·) := by
  unfold Reading.toExcept Reading.cons
  cases reading.failure <;> rfl

theorem parseCounted_of_ok {count taken : Nat} {bytes element : Bytes} (nonempty : bytes ≠ [])
    (read : parseElement bytes = .ok (element, taken))
    : parseCounted (count + 1) bytes
      = (parseCounted count (bytes.drop taken)).map (element :: ·) := by
  rw [parseCounted]
  · rw [read]
    dsimp only
    cases parseCounted count (bytes.drop taken) <;> rfl
  · exact nonempty

theorem parseCounted_of_error {count : Nat} {bytes : Bytes} {failure : Error}
    (nonempty : bytes ≠ []) (failed : parseElement bytes = .error failure)
    : parseCounted (count + 1) bytes = .error failure := by
  rw [parseCounted]
  · rw [failed]
  · exact nonempty

/-- The elements and the ranges were found alike: both readings failed for the same reason, or the
elements are the bytes in the ranges.
-/
inductive FoundAlike (payload : Bytes)
    : Except Error (List Bytes) → Except Error (List Range) → Prop where
  | failed (failure : Error) : FoundAlike payload (.error failure) (.error failure)
  | cut {elements : List Bytes} {ranges : List Range}
      (slices : ranges.mapM (fun range => range.slice? payload) = some elements)
      : FoundAlike payload (.ok elements) (.ok ranges)

theorem FoundAlike.cons {payload element : Bytes} {range : Range}
    {elements : Except Error (List Bytes)} {ranges : Except Error (List Range)}
    (slice : range.slice? payload = some element) (later : FoundAlike payload elements ranges)
    : FoundAlike payload (elements.map (element :: ·)) (ranges.map (range :: ·)) := by
  cases later with
  | failed failure => exact .failed failure
  | cut slices => exact .cut (by simp [List.mapM_cons, slice, slices])

/-- Behind the last byte there are no elements and no ranges. -/
theorem FoundAlike.behind (header : Header) {payload : Bytes} (count number : Nat) {position : Nat}
    (outside : payload.length ≤ position)
    : FoundAlike payload (parseCounted count (payload.drop position))
        (locateFrom header payload number position) := by
  rw [locateFrom_of_le header number outside, List.drop_of_length_le outside, parseCounted]
  exact .cut rfl

/-- Elements that are counted are found where they are read, by induction on those that are left
in front of the one that takes the rest.
-/
theorem foundAlike_counted {header : Header} {payload : Bytes} {left number : Nat}
    (numbered : number + 1 + left = header.count.toNat) (position : Nat)
    : FoundAlike payload (parseCounted left (payload.drop position))
        (locateFrom header payload number position) := by
  induction left generalizing number position with
  | zero =>
      rcases Nat.lt_or_ge position payload.length with inside | outside
      · have counted : header.count ≠ 0 := by
          rintro zero
          rw [zero] at numbered
          cases numbered
        have found
            : locateElement header payload number position = .ok ⟨position, payload.length⟩ :=
          if_pos ⟨counted, numbered⟩
        have slice
            : Range.slice? ⟨position, payload.length⟩ payload
              = some (payload.drop position) := by
          rw [slice?_eq_some (Nat.le_of_lt inside) (Nat.le_refl _), List.take_of_length_le]
          exact Nat.le_of_eq List.length_drop
        have rest : parseCounted 0 (payload.drop position) = .ok [payload.drop position] := by
          cases front : payload.drop position with
          | nil => exact absurd (List.drop_eq_nil_iff.mp front) (Nat.not_le_of_lt inside)
          | cons first tail => rfl
        rw [locateFrom_of_ok inside found, rest,
          locateFrom_of_le header (number + 1) (Nat.le_refl _)]
        exact .cut (by simp [slice])
      · exact .behind header 0 number outside
  | succ left ih =>
      rcases Nat.lt_or_ge position payload.length with inside | outside
      · have nonempty : payload.drop position ≠ [] := by
          simpa using inside
        have prefixed : ¬ (header.count ≠ 0 ∧ number + 1 = header.count.toNat) := by
          omega
        cases read : parseElement (payload.drop position) with
        | error failure =>
            rw [locateFrom_of_error inside (locateElement_of_error prefixed read),
              parseCounted_of_error nonempty read]
            exact .failed failure
        | ok found =>
            obtain ⟨element, taken⟩ := found
            obtain ⟨range, located, slice, stop⟩ := locateElement_of_ok prefixed read
            rw [locateFrom_of_ok inside located, parseCounted_of_ok nonempty read,
              List.drop_drop, stop]
            exact .cons slice (ih (by omega) (position + taken))
      · exact .behind header (left + 1) number outside

/-- Elements without a count are found where they are read, by induction on the bytes that are
left.
-/
theorem foundAlike_uncounted {header : Header} {payload : Bytes} (uncounted : header.count = 0)
    (number position : Nat)
    : FoundAlike payload (readAll parseElement (payload.drop position)).toExcept
        (locateFrom header payload number position) := by
  generalize size : payload.length - position = left
  induction left using Nat.strongRecOn generalizing number position with
  | ind left ih =>
      have prefixed : ¬ (header.count ≠ 0 ∧ number + 1 = header.count.toNat) :=
        fun counted => counted.1 uncounted
      rcases Nat.lt_or_ge position payload.length with inside | outside
      · have nonempty : payload.drop position ≠ [] := by
          simpa using inside
        cases read : parseElement (payload.drop position) with
        | error failure =>
            rw [locateFrom_of_error inside (locateElement_of_error prefixed read),
              readAll_error nonempty read]
            exact .failed failure
        | ok found =>
            obtain ⟨element, taken⟩ := found
            obtain ⟨range, located, slice, stop⟩ := locateElement_of_ok prefixed read
            have positive := count_of_parseElement_pos read
            rw [locateFrom_of_ok inside located, readAll_ok nonempty positive read, toExcept_cons,
              List.drop_drop, stop]
            exact .cons slice (ih _ (by omega) (number + 1) (position + taken) rfl)
      · rw [locateFrom_of_le header number outside, List.drop_of_length_le outside, readAll_nil]
        exact .cut rfl

/-- No range lies outside of its payload, so every payload can be cut, and it is cut into the
elements that are read.
-/
theorem cut?_eq (payload : Bytes) : Packet.cut? payload = some (Packet.parse payload) := by
  unfold Packet.cut? locate
  match payload with
  | [] => rfl
  | [_] => rfl
  | first :: second :: body =>
      have alike : FoundAlike (first :: second :: body)
          (parseElements (Header.ofByte first) (second :: body))
          (locateFrom (Header.ofByte first) (first :: second :: body) 0 1) := by
        unfold parseElements
        split
        next uncounted => exact foundAlike_uncounted uncounted 0 1
        next counted =>
          have number : (Header.ofByte first).count.toNat ≠ 0 :=
            fun zero => counted (UInt8.toNat_inj.mp zero)
          exact foundAlike_counted (by omega) 1
      dsimp only
      rw [Packet.parse]
      · cases found : locateFrom (Header.ofByte first) (first :: second :: body) 0 1 <;>
        cases read : parseElements (Header.ofByte first) (second :: body) <;>
        rw [found, read] at alike <;> cases alike
        · rfl
        next slices =>
          simp only [slices]
      · simp

-----------------------------------------------------------------------------------------
-- The payloads that are packets
-----------------------------------------------------------------------------------------

theorem parse_eq_ok_iff {first : UInt8} {body : Bytes} {packet : Packet}
    : Packet.parse (first :: body) = .ok packet
      ↔ body ≠ []
        ∧ packet.header = Header.ofByte first
        ∧ parseElements (Header.ofByte first) body = .ok packet.elements := by
  cases body with
  | nil => simp [Packet.parse]
  | cons second body =>
      rw [Packet.parse]
      · cases read : parseElements (Header.ofByte first) (second :: body) with
        | error failure => simp
        | ok elements =>
            obtain ⟨header, found⟩ := packet
            simp [eq_comm]
      · simp

/-- A packet that is read from a payload has pieces. -/
theorem pieces_ne_nil_of_parse {payload : Bytes} {packet : Packet}
    (parsed : Packet.parse payload = .ok packet)
    : packet.pieces ≠ [] := by
  cases payload with
  | nil => cases parsed
  | cons first body =>
      obtain ⟨nonempty, header, read⟩ := parse_eq_ok_iff.mp parsed
      obtain ⟨division, allowed, _, elements⟩ := Division.exists_of_parseElements nonempty read
      have present : packet.elements ≠ [] := elements ▸ allowed.elements_ne_nil
      simpa [Packet.pieces] using present

/-- The ranges of a payload's elements stand behind its header, in order. -/
theorem ordered_of_locate {payload : Bytes} {header : Header} {ranges : List Range}
    (found : locate payload = .ok (header, ranges))
    : Ordered 1 payload.length ranges := by
  unfold locate at found
  split at found
  next => cases found
  next => cases found
  next =>
    split at found
    next => cases found
    next located =>
      cases found
      exact ordered_of_locateFrom located

/-- A payload is a packet exactly where the bytes behind the first one can be taken apart as the
header allows. They can be taken apart in one way only, and this gives the elements. The ranges of
the elements lie in the payload one behind the other, whatever the payload is.
-/
theorem accepted_payloads (first : UInt8) (body : Bytes)
    : ((∃ packet, Packet.parse (first :: body) = .ok packet)
        ↔ body ≠ []
          ∧ ∃ division : Division,
              division.Allowed (Header.ofByte first).count ∧ division.bytes = body)
      ∧ (∀ division other : Division,
          division.Allowed (Header.ofByte first).count
          → other.Allowed (Header.ofByte first).count
          → division.bytes = body
          → other.bytes = body
          → division = other)
      ∧ (∀ division : Division,
          division.Allowed (Header.ofByte first).count
          → division.bytes = body
          → Packet.parse (first :: body) = .ok ⟨Header.ofByte first, division.elements⟩)
      ∧ ∀ payload,
          Packet.cut? payload = some (Packet.parse payload)
          ∧ ∀ header ranges,
              locate payload = .ok (header, ranges) → Ordered 1 payload.length ranges := by
  have read {division : Division} (allowed : division.Allowed (Header.ofByte first).count)
      : Packet.parse (first :: division.bytes)
        = .ok ⟨Header.ofByte first, division.elements⟩ :=
    parse_eq_ok_iff.mpr ⟨allowed.bytes_ne_nil, rfl, allowed.parseElements⟩
  refine ⟨⟨?accepted, ?divided⟩, ?unique, ?elements, ?ranges⟩
  case accepted =>
    rintro ⟨packet, parsed⟩
    obtain ⟨nonempty, -, elements⟩ := parse_eq_ok_iff.mp parsed
    obtain ⟨division, allowed, joined, -⟩ := Division.exists_of_parseElements nonempty elements
    exact ⟨nonempty, division, allowed, joined⟩
  case divided =>
    rintro ⟨-, division, allowed, rfl⟩
    exact ⟨_, read allowed⟩
  case unique =>
    intro division other allowed otherAllowed joined otherJoined
    exact allowed.unique otherAllowed (joined.trans otherJoined.symm)
  case elements =>
    rintro division allowed rfl
    exact read allowed
  case ranges =>
    exact fun payload => ⟨cut?_eq payload, fun _ _ => ordered_of_locate⟩

/-- A header that counts three elements over one block, whose length is not in its shortest form. -/
theorem accepted_payloads_one_block
    : ∃ division : Division,
        division.Allowed (Header.ofByte 0x30).count
        ∧ division.bytes = [0x81, 0, 7]
        ∧ Packet.parse [0x30, 0x81, 0, 7] = .ok ⟨⟨false, false, 3, false⟩, [[7]]⟩
        ∧ Packet.cut? [0x30, 0x81, 0, 7] = some (.ok ⟨⟨false, false, 3, false⟩, [[7]]⟩) := by
  let block : Block := ⟨[0x81, 0], [7], rfl, List.cons_ne_nil 7 []⟩
  have allowed : Division.Allowed (Header.ofByte 0x30).count ⟨[block], none⟩ :=
    .blocks (List.cons_ne_nil block []) (.inr (by decide))
  obtain ⟨-, -, elements, cut⟩ := accepted_payloads 0x30 [0x81, 0, 7]
  have parsed := elements _ allowed rfl
  exact ⟨_, allowed, rfl, parsed, (cut _).1.trans (congrArg some parsed)⟩

end Av1Transport.Aggregation
