import Mathlib.Data.Nat.Bitwise
import Av1Transport.Leb128
import Av1Transport.Proofs.Leb128.ShortestForm

/-! Words are read and written like the numbers below 2 ^ 64 that they hold.
Main statement: the shortest form of a word is as long as the word's bits tell and is read back in
front of any bytes; whatever is read was in no shorter form, and in one of the same length only if
it was this form.
-/

namespace Av1Transport.Leb128.Word

-----------------------------------------------------------------------------------------
-- The parts of a byte
-----------------------------------------------------------------------------------------

@[simp]
theorem toNat_group (byte : UInt8) : (group byte).toNat = byte.toNat % 128 := by
  rw [group, UInt8.toNat_toUInt64, UInt8.toNat_and]
  exact Nat.and_two_pow_sub_one_eq_mod byte.toNat 7

/-- The highest bit has the weight 128. -/
theorem continues_iff {byte : UInt8} : continues byte = true ↔ 128 ≤ byte.toNat := by
  have highest : (byte &&& 0x80).toNat = (byte.toNat.testBit 7).toNat * 128 := by
    rw [UInt8.toNat_and]
    exact Nat.and_two_pow byte.toNat 7
  have bit : continues byte = true ↔ byte.toNat.testBit 7 = true := by
    rw [continues, bne_iff_ne, ne_eq, ← UInt8.toNat_inj, highest]
    cases byte.toNat.testBit 7 <;> simp
  rw [bit]
  exact ⟨Nat.ge_two_pow_of_testBit,
    fun high => Nat.testBit_of_two_pow_le_and_two_pow_add_one_gt high byte.toNat_lt⟩

/-- Seven bits keep their value at the place of their byte where the place is inside the word and
none of them is shifted out.
-/
theorem toNat_placed {byte : UInt8} {index : Nat} (inside : 7 * index < 64)
    (fits : byte.toNat % 128 * 2 ^ (7 * index) < UInt64.size)
    : (placed byte index).toNat = byte.toNat % 128 * 2 ^ (7 * index) := by
  have shift : (UInt64.ofNat (7 * index)).toNat % 64 = 7 * index := by
    rw [UInt64.toNat_ofNat']
    omega
  rw [placed, UInt64.toNat_shiftLeft, shift, toNat_group, Nat.shiftLeft_eq]
  exact Nat.mod_eq_of_lt fits

/-- Seven bits are added to the lower ones. -/
theorem toNat_or_placed {value : UInt64} {byte : UInt8} {index : Nat}
    (below : value.toNat < 2 ^ (7 * index)) (inside : 7 * index < 64)
    (fits : byte.toNat % 128 * 2 ^ (7 * index) < UInt64.size)
    : (value ||| placed byte index).toNat
      = value.toNat + byte.toNat % 128 * 2 ^ (7 * index) := by
  rw [UInt64.toNat_or, toNat_placed inside fits, Nat.or_comm, Nat.mul_comm,
    ← Nat.two_pow_add_eq_or_of_lt below, Nat.add_comm]

/-- The next byte's place is seven bits higher. -/
theorem two_pow_next_place (index : Nat) : 2 ^ (7 * (index + 1)) = 128 * 2 ^ (7 * index) := by
  rw [Nat.mul_add, Nat.pow_add, Nat.mul_comm]

/-- With the seven bits of a byte the word stays below the next byte's place. -/
theorem or_placed_lt {value : UInt64} {byte : UInt8} {index : Nat}
    (below : value.toNat < 2 ^ (7 * index)) (inside : 7 * index < 64)
    (fits : byte.toNat % 128 * 2 ^ (7 * index) < UInt64.size)
    : (value ||| placed byte index).toNat < 2 ^ (7 * (index + 1)) := by
  have bits : byte.toNat % 128 ≤ 127 := by omega
  have := Nat.mul_le_mul_right (2 ^ (7 * index)) bits
  rw [toNat_or_placed below inside fits, two_pow_next_place]
  omega

-----------------------------------------------------------------------------------------
-- Reading
-----------------------------------------------------------------------------------------

/-- The bits of a byte have room in the word where the last byte of all gives no more than one. -/
theorem mul_two_pow_lt_size {bits index : Nat} (small : bits < 128) (inside : 7 * index ≤ 63)
    (last : 7 * index = 63 → bits ≤ 1)
    : bits * 2 ^ (7 * index) < UInt64.size := by
  by_cases tenth : 7 * index = 63
  · have := last tenth
    rw [tenth]
    simp only [UInt64.size]
    omega
  · have := Nat.pow_le_pow_right (show 0 < 2 by decide) (show 7 * index ≤ 56 by omega)
    have := Nat.mul_le_mul (Nat.le_of_lt_succ small) this
    simp only [UInt64.size]
    omega

/-- Reading goes on with the byte under the index, for no more bytes than there is room for. -/
def readOn (value : UInt64) (index room : Nat) (bytes : Bytes) : Except Error (UInt64 × Nat) :=
  (gather value index (bytes.take room)).getD
    (if room ≤ bytes.length then .error .overflow else .error .truncated)

section
variable (value : UInt64) (index room : Nat) {byte : UInt8} (rest : Bytes)

theorem readOn_nil : readOn value index (room + 1) [] = .error .truncated := by
  rw [readOn, List.take_nil, gather, Option.getD_none, if_neg (by simp)]

theorem one_lt_group_iff : 1 < group byte ↔ 1 < byte.toNat % 128 := by
  rw [UInt64.lt_iff_toNat_lt, toNat_group, UInt64.toNat_one]

theorem readOn_cons_of_excess {index : Nat} (excess : 7 * index = 63 ∧ 1 < byte.toNat % 128)
    : readOn value index (room + 1) (byte :: rest) = .error .overflow := by
  rw [readOn, List.take_succ_cons, gather, if_pos (by rwa [one_lt_group_iff]),
    Option.getD_some]

variable {index} (allowed : ¬ (7 * index = 63 ∧ 1 < byte.toNat % 128))
include allowed

theorem readOn_cons_of_lt (last : byte.toNat < 128)
    : readOn value index (room + 1) (byte :: rest)
      = .ok (value ||| placed byte index, index + 1) := by
  rw [readOn, List.take_succ_cons, gather, if_neg (by rwa [one_lt_group_iff]),
    if_neg (by rwa [continues_iff, Nat.not_le]), Option.getD_some]

theorem readOn_cons_of_le (more : 128 ≤ byte.toNat)
    : readOn value index (room + 1) (byte :: rest)
      = readOn (value ||| placed byte index) (index + 1) room rest := by
  rw [readOn, List.take_succ_cons, gather, if_neg (by rwa [one_lt_group_iff]),
    if_pos (continues_iff.mpr more), List.length_cons, readOn]
  simp only [Nat.add_le_add_iff_right]

end

/-- The bytes behind those that are taken up are read into the same number. Witness: induction on
the bytes that there may still be. The lowest bits are in the word already, and the next byte's go
above them.
-/
theorem readOn_eq {index room : Nat} (places : index + room = maxLength) {value : UInt64}
    (below : value.toNat < 2 ^ (7 * index)) (bytes : Bytes)
    : (readOn value index room bytes).map (fun (word, count) => (word.toNat, count))
      = (readWithin room bytes).map
        (fun (high, count) => (value.toNat + 2 ^ (7 * index) * high, index + count)) := by
  simp only [maxLength] at places
  induction room generalizing index value bytes with
  | zero =>
      rw [readOn, List.take_zero, gather, readWithin, if_pos (Nat.zero_le _)]
      rfl
  | succ room ih =>
      cases bytes with
      | nil =>
          rw [readOn_nil, readWithin]
          rfl
      | cons byte rest =>
          by_cases excess : 7 * index = 63 ∧ 1 < byte.toNat % 128
          · obtain rfl : room = 0 := by omega
            rw [readOn_cons_of_excess value 0 rest excess, readWithin, if_pos ⟨rfl, by omega⟩]
            rfl
          have fits : byte.toNat % 128 * 2 ^ (7 * index) < UInt64.size :=
            mul_two_pow_lt_size (Nat.mod_lt _ (by decide)) (by omega) (by omega)
          have added := toNat_or_placed below (by omega) fits
          rcases Nat.lt_or_ge byte.toNat 128 with last | more
          · have allowed : ¬ (room = 0 ∧ 1 < byte.toNat) := by omega
            rw [readOn_cons_of_lt value room rest excess last, readWithin_cons_of_lt room last,
              if_neg allowed]
            simp only [Except.map, added, Nat.mod_eq_of_lt last, Nat.mul_comm]
          · have filled := or_placed_lt below (by omega) fits
            rw [readOn_cons_of_le value room rest excess more, ih (by omega) filled rest,
              readWithin_cons_of_le room more]
            cases readWithin room rest with
            | error failure => rfl
            | ok found =>
                simp only [Except.map, added, two_pow_next_place, mod_of_le more, Except.ok.injEq,
                  Prod.mk.injEq]
                constructor
                · rw [Nat.mul_comm 128 (2 ^ _), Nat.mul_assoc, Nat.mul_comm (byte.toNat - 128),
                    Nat.add_assoc, Nat.mul_add]
                · omega

/-- A word is read from the bytes that its number is read from. -/
theorem read_eq (bytes : Bytes)
    : (read bytes).map (fun (word, count) => (word.toNat, count)) = Leb128.read bytes := by
  rw [read, ← readOn, readOn_eq rfl (by decide) bytes, Leb128.read]
  cases readWithin maxLength bytes with
  | error failure => rfl
  | ok found =>
      simp only [Except.map, UInt64.toNat_zero, Nat.mul_zero, Nat.pow_zero, Nat.one_mul,
        Nat.zero_add]

/-- Reading a word, in terms of its number. -/
theorem read_eq_ok_iff {bytes : Bytes} {value : UInt64} {count : Nat}
    : read bytes = .ok (value, count) ↔ Leb128.read bytes = .ok (value.toNat, count) := by
  rw [← read_eq]
  cases read bytes with
  | error failure => simp [Except.map]
  | ok found => simp [Except.map, Prod.ext_iff, UInt64.toNat_inj]

-----------------------------------------------------------------------------------------
-- Writing
-----------------------------------------------------------------------------------------

theorem toNat_lowest (value : UInt64)
    : (value &&& 0x7F).toUInt8.toNat = value.toNat % 128 := by
  have masked : (value &&& 0x7F).toNat = value.toNat % 128 := by
    rw [UInt64.toNat_and]
    exact Nat.and_two_pow_sub_one_eq_mod value.toNat 7
  rw [UInt64.toNat_toUInt8, masked]
  omega

/-- The bit that announces another byte adds 128 to one that has seven bits. -/
theorem toNat_or_highest {byte : UInt8} (low : byte.toNat < 128)
    : (byte ||| 0x80).toNat = byte.toNat + 128 := by
  rw [UInt8.toNat_or, Nat.or_comm, Nat.add_comm]
  exact (Nat.two_pow_add_eq_or_of_lt (i := 7) low 1).symm

/-- A word is written like its number, by the recursion of the writer. -/
theorem encode_eq (value : UInt64) : encode value = Leb128.encode value.toNat := by
  have lowest := toNat_lowest value
  fun_induction encode value with
  | case1 value later more ih =>
      have large : ¬ value.toNat < 128 := by
        rw [ne_eq, ← UInt64.toNat_inj, toNat_shiftRight_seven, UInt64.toNat_zero] at more
        omega
      have byte : (value &&& 0x7F).toUInt8 ||| 0x80 = UInt8.ofNat (value.toNat % 128 + 128) := by
        rw [← UInt8.toNat_inj, toNat_or_highest (by omega), lowest, UInt8.toNat_ofNat']
        omega
      rw [Leb128.encode, if_neg large, byte, ih (toNat_lowest later), toNat_shiftRight_seven]
  | case2 value later last =>
      have small : value.toNat < 128 := by
        rw [ne_eq, Decidable.not_not, ← UInt64.toNat_inj, toNat_shiftRight_seven,
          UInt64.toNat_zero] at last
        omega
      have byte : (value &&& 0x7F).toUInt8 = UInt8.ofNat value.toNat := by
        rw [← UInt8.toNat_inj, lowest, UInt8.toNat_ofNat']
        omega
      rw [Leb128.encode, if_pos small, byte]

/-- The highest bit that is set stands at the logarithm, by the bounds that the zeros in front of
it give.
-/
theorem bitLength_eq {value : UInt64} (positive : value ≠ 0)
    : bitLength value = value.toNat.log2 + 1 := by
  have present : value.toBitVec ≠ 0#64 := by
    rwa [ne_eq, ← UInt64.toBitVec_inj] at positive
  have lower : 2 ^ (63 - value.toBitVec.clz.toNat) ≤ value.toNat :=
    BitVec.two_pow_sub_clz_le_toNat_of_ne_zero (by decide) present
  have upper : value.toNat < 2 ^ (64 - value.toBitVec.clz.toNat) :=
    BitVec.toNat_lt_two_pow_sub_clz
  have nonzero : value.toNat ≠ 0 := by
    rwa [ne_eq, ← UInt64.toNat_inj, UInt64.toNat_zero] at positive
  have zeros : value.toBitVec.clz.toNat < 64 := by
    by_contra all
    rw [Nat.sub_eq_zero_of_le (Nat.not_lt.mp all), Nat.pow_zero] at upper
    omega
  have place : value.toNat.log2 = 63 - value.toBitVec.clz.toNat := by
    rw [Nat.log2_eq_iff nonzero]
    refine ⟨lower, ?_⟩
    rwa [show 63 - value.toBitVec.clz.toNat + 1 = 64 - value.toBitVec.clz.toNat by omega]
  rw [bitLength, place]
  omega

/-- The shortest form of a word is as long as that of its number. -/
theorem size_eq (value : UInt64) : size value = Leb128.size value.toNat := by
  rw [size, Leb128.size]
  by_cases zero : value = 0
  · rw [zero]
    decide
  · rw [bitLength_eq zero]
    omega

/-- No word takes more than ten bytes. -/
theorem size_le (value : UInt64) : size value ≤ maxLength := by
  have bits : bitLength value ≤ 64 := Nat.sub_le 64 _
  rw [size, maxLength]
  omega

-----------------------------------------------------------------------------------------
-- Reading what was written
-----------------------------------------------------------------------------------------

/-- A word is read back from its shortest form, whatever follows it, and the form is as long as its
bits tell, which is ten bytes at most. A word that was read from some bytes has no longer form, and
theirs is as long only if it is the same. All this goes for the numbers below 2 ^ 64 alike.
-/
theorem shortest_forms
    : (∀ (value : UInt64) (rest : Bytes),
        read (encode value ++ rest) = .ok (value, size value)
        ∧ (encode value).length = size value
        ∧ size value ≤ maxLength
        ∧ encode value = Leb128.encode value.toNat
        ∧ size value = Leb128.size value.toNat)
      ∧ ∀ (bytes : Bytes) (value : UInt64) (count : Nat),
          read bytes = .ok (value, count)
          → size value ≤ count
            ∧ count ≤ bytes.length
            ∧ (count = size value ↔ bytes.take count = encode value) := by
  constructor
  · intro value rest
    refine ⟨?_, ?_, size_le value, encode_eq value, size_eq value⟩
    · rw [read_eq_ok_iff, encode_eq, size_eq]
      exact read_encode value.toNat_lt rest
    · rw [encode_eq, size_eq, length_encode]
  · intro bytes value count found
    rw [read_eq_ok_iff] at found
    obtain ⟨shorter, same⟩ := shortest_of_read found
    have enough := (count_of_read found).2
    rw [size_eq, encode_eq]
    refine ⟨shorter, enough, ?_⟩
    constructor
    · intro equal
      have front := List.prefix_iff_eq_take.mp (same.mp equal)
      rw [front, length_encode, ← equal]
    · intro front
      exact same.mpr (front ▸ List.take_prefix count bytes)

end Av1Transport.Leb128.Word
