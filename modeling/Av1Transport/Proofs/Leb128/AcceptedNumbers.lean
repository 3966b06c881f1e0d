import Mathlib.Algebra.BigOperators.Intervals
import Mathlib.Algebra.BigOperators.Ring.Finset
import Mathlib.Algebra.Order.BigOperators.Group.Finset
import Av1Transport.Proofs.Leb128.WordForms

/-! Which bytes a number is read from.
Main statement: the bytes up to the first one below 128 are read as the sum of their groups of seven
bits where they are ten at most and the sum has no more than 64 bits; the number is cut off where
fewer than ten bytes all announce another one, and in all other cases it is too large.
-/

namespace Av1Transport.Leb128

/-- The last of the first `count` bytes is the first one that announces no other. -/
def EndsAfter (bytes : Bytes) (count : Nat) : Prop :=
  (bytes.findIdx? fun byte => byte.toNat < 128).map (· + 1) = some count

/-- The number that the first `count` bytes stand for: seven bits of each, the lowest ones first. -/
def groupSum (bytes : Bytes) (count : Nat) : Nat :=
  ∑ index ∈ Finset.range count, (bytes.getD index 0).toNat % 128 * 2 ^ (7 * index)

-----------------------------------------------------------------------------------------
-- One byte in front of the others
-----------------------------------------------------------------------------------------

theorem not_endsAfter_nil (count : Nat) : ¬ EndsAfter [] count := by
  simp [EndsAfter]

theorem EndsAfter.pos {bytes : Bytes} {count : Nat} (ends : EndsAfter bytes count) : 0 < count := by
  obtain ⟨index, _, rfl⟩ := Option.map_eq_some_iff.mp ends
  exact Nat.succ_pos index

theorem endsAfter_cons_of_lt {byte : UInt8} (last : byte.toNat < 128) (rest : Bytes) (count : Nat)
    : EndsAfter (byte :: rest) count ↔ count = 1 := by
  simp [EndsAfter, List.findIdx?_cons, last, eq_comm]

theorem endsAfter_cons_of_le {byte : UInt8} (more : 128 ≤ byte.toNat) (rest : Bytes) (count : Nat)
    : EndsAfter (byte :: rest) count ↔ ∃ later, EndsAfter rest later ∧ later + 1 = count := by
  have goesOn : ¬ byte.toNat < 128 := Nat.not_lt.mpr more
  simp only [EndsAfter, List.findIdx?_cons, goesOn, decide_false, Bool.false_eq_true, if_false,
    Option.map_eq_some_iff]

theorem groupSum_one (byte : UInt8) (rest : Bytes)
    : groupSum (byte :: rest) 1 = byte.toNat % 128 := by
  simp [groupSum]

/-- The groups behind the first one count 128 times as much. -/
theorem groupSum_cons (byte : UInt8) (rest : Bytes) (count : Nat)
    : groupSum (byte :: rest) (count + 1) = byte.toNat % 128 + 128 * groupSum rest count := by
  rw [groupSum, Finset.sum_range_succ', groupSum, Finset.mul_sum, Nat.add_comm]
  congr 1
  · simp
  · refine Finset.sum_congr rfl fun index _ => ?_
    rw [List.getD_cons_succ, Word.two_pow_next_place, Nat.mul_left_comm]

-----------------------------------------------------------------------------------------
-- What is read
-----------------------------------------------------------------------------------------

/-- The bits of a byte have room unless it is the last one of all and gives more than one. -/
theorem bits_lt_iff {bits room : Nat} (small : bits < 128)
    : 64 * bits < 128 ^ (room + 1) ↔ ¬ (room = 0 ∧ 1 < bits) := by
  cases room with
  | zero => omega
  | succ room =>
      have positive := Nat.pow_pos (n := room) (show 0 < 128 by decide)
      rw [Nat.pow_succ, Nat.pow_succ]
      omega

/-- A byte in front of a number needs room for seven more bits. -/
theorem add_bits_lt_iff {bits high room : Nat} (small : bits < 128)
    : 64 * (bits + 128 * high) < 128 ^ (room + 1 + 1) ↔ 64 * high < 128 ^ (room + 1) := by
  rw [Nat.pow_succ 128 (room + 1), Nat.pow_succ]
  omega

/-- The first `count` bytes spell the number: they end with the first byte below 128, and the number
is made up of their groups and has no more bits than there is room for.
-/
structure Spells (room : Nat) (bytes : Bytes) (value count : Nat) : Prop where
  near : count ≤ room
  ends : EndsAfter bytes count
  sum : value = groupSum bytes count
  fits : 64 * value < 128 ^ room

/-- A byte below 128 spells the number of its bits alone. -/
theorem spells_cons_of_lt {room : Nat} {byte : UInt8} (last : byte.toNat < 128) {rest : Bytes}
    {value count : Nat}
    : Spells (room + 1) (byte :: rest) value count
      ↔ ¬ (room = 0 ∧ 1 < byte.toNat) ∧ value = byte.toNat ∧ count = 1 := by
  have only := groupSum_one byte rest
  rw [Nat.mod_eq_of_lt last] at only
  constructor
  · rintro ⟨-, ends, rfl, fits⟩
    obtain rfl := (endsAfter_cons_of_lt last rest count).mp ends
    rw [only] at fits
    exact ⟨(bits_lt_iff last).mp fits, only, rfl⟩
  · rintro ⟨allowed, rfl, rfl⟩
    exact ⟨Nat.succ_pos room, (endsAfter_cons_of_lt last rest 1).mpr rfl, only.symm,
      (bits_lt_iff last).mpr allowed⟩

/-- A byte of 128 or more stands in front of a number that the bytes behind it spell. -/
theorem spells_cons_of_le {room : Nat} {byte : UInt8} (more : 128 ≤ byte.toNat) {rest : Bytes}
    {value count : Nat}
    : Spells (room + 1) (byte :: rest) value count
      ↔ ∃ high later,
          Spells room rest high later
          ∧ byte.toNat - 128 + 128 * high = value
          ∧ later + 1 = count := by
  have low := mod_of_le more
  have small : byte.toNat - 128 < 128 := low ▸ Nat.mod_lt _ (by decide)
  constructor
  · rintro ⟨near, ends, rfl, fits⟩
    obtain ⟨later, behind, rfl⟩ := (endsAfter_cons_of_le more rest count).mp ends
    have positive := behind.pos
    obtain ⟨places, rfl⟩ : ∃ places, room = places + 1 := ⟨room - 1, by omega⟩
    rw [groupSum_cons, low] at fits ⊢
    exact ⟨groupSum rest later, later,
      ⟨Nat.le_of_succ_le_succ near, behind, rfl, (add_bits_lt_iff small).mp fits⟩, rfl, rfl⟩
  · rintro ⟨high, later, ⟨near, ends, rfl, fits⟩, rfl, rfl⟩
    have positive := ends.pos
    obtain ⟨places, rfl⟩ : ∃ places, room = places + 1 := ⟨room - 1, by omega⟩
    have endsLater := (endsAfter_cons_of_le more rest (later + 1)).mpr ⟨later, ends, rfl⟩
    refine ⟨Nat.succ_le_succ near, endsLater, ?_, (add_bits_lt_iff small).mpr fits⟩
    rw [groupSum_cons, low]

/-- The numbers that are read are those that the bytes spell, by induction on the room. -/
theorem readWithin_eq_ok_iff {room : Nat} {bytes : Bytes} {value count : Nat}
    : readWithin room bytes = .ok (value, count) ↔ Spells room bytes value count := by
  induction room generalizing bytes value count with
  | zero =>
      constructor
      · intro read
        cases read
      · intro spells
        exact absurd spells.ends.pos (Nat.not_lt.mpr spells.near)
  | succ room ih =>
      cases bytes with
      | nil =>
          constructor
          · intro read
            cases read
          · intro spells
            exact absurd spells.ends (not_endsAfter_nil count)
      | cons byte rest =>
          rcases Nat.lt_or_ge byte.toNat 128 with last | more
          · rw [readWithin_cons_of_lt room last, spells_cons_of_lt last]
            split
            next refused => simp [refused]
            next allowed => simp [allowed, eq_comm]
          · rw [readWithin_cons_of_le room more, spells_cons_of_le more]
            simp only [← ih]
            cases readWithin room rest with
            | error failure => simp [Except.map]
            | ok found => simp [Except.map, Prod.ext_iff]

-----------------------------------------------------------------------------------------
-- What is not read
-----------------------------------------------------------------------------------------

/-- A number is cut off where too few bytes all announce another one, by induction on the room. -/
theorem readWithin_eq_truncated_iff {room : Nat} {bytes : Bytes}
    : readWithin room bytes = .error .truncated
      ↔ bytes.length < room ∧ ∀ byte ∈ bytes, 128 ≤ byte.toNat := by
  induction room generalizing bytes with
  | zero => simp [readWithin]
  | succ room ih =>
      cases bytes with
      | nil => simp [readWithin]
      | cons byte rest =>
          rw [List.length_cons, Nat.add_lt_add_iff_right, List.forall_mem_cons]
          rcases Nat.lt_or_ge byte.toNat 128 with last | more
          · rw [readWithin_cons_of_lt room last]
            have ended : ¬ 128 ≤ byte.toNat := Nat.not_le.mpr last
            split <;> simp [ended]
          · rw [readWithin_cons_of_le room more]
            simp only [more, true_and, ← ih]
            cases readWithin room rest <;> simp [Except.map]

/-- A number is too large where all bytes but the last one that there is room for announce another
one, and that one gives more than it has room for. Witness: induction on the room.
-/
theorem readWithin_eq_overflow_iff {room : Nat} {bytes : Bytes}
    : readWithin (room + 1) bytes = .error .overflow
      ↔ (∀ byte ∈ bytes.take room, 128 ≤ byte.toNat) ∧ ∃ last ∈ bytes[room]?, 1 < last.toNat := by
  induction room generalizing bytes with
  | zero =>
      cases bytes with
      | nil => simp [readWithin]
      | cons byte rest =>
          rcases Nat.lt_or_ge byte.toNat 128 with last | more
          · rw [readWithin_cons_of_lt 0 last]
            split
            next refused => simp [refused.2]
            next allowed =>
              have small : ¬ 1 < byte.toNat := fun large => allowed ⟨rfl, large⟩
              simp [small]
          · rw [readWithin_cons_of_le 0 more]
            have large : 1 < byte.toNat := Nat.lt_of_lt_of_le (by decide) more
            simp [readWithin, Except.map, large]
  | succ room ih =>
      cases bytes with
      | nil => simp [readWithin]
      | cons byte rest =>
          rw [List.take_succ_cons, List.forall_mem_cons, List.getElem?_cons_succ]
          rcases Nat.lt_or_ge byte.toNat 128 with last | more
          · have ended : ¬ 128 ≤ byte.toNat := Nat.not_le.mpr last
            rw [readWithin_cons_of_lt (room + 1) last]
            simp [ended]
          · rw [readWithin_cons_of_le (room + 1) more]
            simp only [more, true_and, ← ih]
            cases readWithin (room + 1) rest <;> simp [Except.map]

-----------------------------------------------------------------------------------------
-- All byte strings
-----------------------------------------------------------------------------------------

/-- No group of an accepted number loses bits where it is shifted to its place. -/
theorem toNat_placed_of_lt {bytes : Bytes} {count index : Nat} (near : count ≤ maxLength)
    (fits : groupSum bytes count < UInt64.size) (inside : index < count)
    : (Word.placed (bytes.getD index 0) index).toNat
      = (bytes.getD index 0).toNat % 128 * 2 ^ (7 * index) := by
  have part : (bytes.getD index 0).toNat % 128 * 2 ^ (7 * index) ≤ groupSum bytes count := by
    have all := fun place (_ : place ∈ Finset.range count) =>
      Nat.zero_le ((bytes.getD place 0).toNat % 128 * 2 ^ (7 * place))
    exact Finset.single_le_sum all (Finset.mem_range.mpr inside)
  refine Word.toNat_placed ?_ (Nat.lt_of_le_of_lt part fits)
  simp only [maxLength] at near
  omega

/-- Every byte string is a number in front of its other bytes, or is cut off, or is too large. It is
a number of the groups up to the first byte below 128 where that is among the first ten and their sum
is below 2 ^ 64; the words that are put together by shifts hold this sum and lose no bit of it. It is
cut off where fewer than ten bytes all announce another one. It is too large where there are ten
bytes or more, of which the first nine announce another one and the tenth is more than one.
-/
theorem accepted_numbers (bytes : Bytes)
    : (∀ value count,
        read bytes = .ok (value, count)
        ↔ count ≤ 10
          ∧ EndsAfter bytes count
          ∧ value = groupSum bytes count
          ∧ value < 2 ^ 64)
      ∧ (read bytes = .error .truncated
        ↔ bytes.length < 10 ∧ ∀ byte ∈ bytes, 128 ≤ byte.toNat)
      ∧ (read bytes = .error .overflow
        ↔ 10 ≤ bytes.length
          ∧ (∀ byte ∈ bytes.take 9, 128 ≤ byte.toNat)
          ∧ ∃ tenth ∈ bytes[9]?, 1 < tenth.toNat)
      ∧ (Word.read bytes).map (fun (word, count) => (word.toNat, count)) = read bytes
      ∧ ∀ value count,
          read bytes = .ok (value, count)
          → ∀ index < count,
              (Word.placed (bytes.getD index 0) index).toNat
              = (bytes.getD index 0).toNat % 128 * 2 ^ (7 * index) := by
  have spelled (value count : Nat)
      : read bytes = .ok (value, count) ↔ Spells maxLength bytes value count :=
    readWithin_eq_ok_iff
  have size (value : Nat) : 64 * value < 128 ^ maxLength ↔ value < 2 ^ 64 := by
    rw [maxLength]
    omega
  refine ⟨?accepted, readWithin_eq_truncated_iff, ?overflow, Word.read_eq bytes, ?kept⟩
  case accepted =>
    intro value count
    rw [spelled, ← size]
    constructor
    · intro spells
      exact ⟨spells.near, spells.ends, spells.sum, spells.fits⟩
    · rintro ⟨near, ends, sum, fits⟩
      exact ⟨near, ends, sum, fits⟩
  case overflow =>
    rw [read, maxLength, readWithin_eq_overflow_iff]
    refine ⟨fun excess => ⟨?_, excess⟩, fun excess => excess.2⟩
    obtain ⟨tenth, present, _⟩ := excess.2
    exact (List.getElem?_eq_some_iff.mp present).1
  case kept =>
    intro value count found index inside
    obtain ⟨near, _, rfl, fits⟩ := (spelled value count).mp found
    exact toNat_placed_of_lt near ((size _).mp fits) inside

end Av1Transport.Leb128
