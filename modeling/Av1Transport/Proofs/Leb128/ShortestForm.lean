import Av1Transport.Leb128

/-! The shortest form of a number: its length, reading it back, and telling it from longer forms.
The first two follow the recursion of the writer, which divides by 128, the last one that of the
reader.
-/

namespace Av1Transport.Leb128

/-- The logarithm loses seven with the seven lowest bits. -/
theorem log2_div_128 {value : Nat} (large : 128 ≤ value)
    : value.log2 = (value / 128).log2 + 7 := by
  have positive : value / 128 ≠ 0 := by omega
  have lower := Nat.log2_self_le positive
  have upper := Nat.lt_log2_self (n := value / 128)
  rw [Nat.log2_eq_iff (by omega)]
  constructor
  · rw [Nat.pow_add]
    omega
  · rw [show (value / 128).log2 + 7 + 1 = (value / 128).log2 + 1 + 7 by omega, Nat.pow_add]
    omega

/-- The shortest form is as long as foretold, by the recursion of the writer. -/
@[simp]
theorem length_encode (value : Nat) : (encode value).length = size value := by
  fun_induction encode value with
  | case1 value small =>
      have : value.log2 < 7 := by
        by_cases zero : value = 0
        · simp [zero]
        · exact (Nat.log2_lt zero).mpr small
      simp only [List.length_singleton, size]
      omega
  | case2 value large ih =>
      have := log2_div_128 (Nat.not_lt.mp large)
      simp only [List.length_cons, ih, size]
      omega

/-- A number is read back where there is room for its bits: seven for each byte and one for the
last byte of all. Witness: induction on the room, along with the recursion of the writer.
-/
theorem readWithin_encode (room : Nat) {value : Nat} (fits : value.log2 ≤ 7 * room)
    (rest : Bytes)
    : readWithin (room + 1) (encode value ++ rest) = .ok (value, size value) := by
  induction room generalizing value with
  | zero =>
      have small : value < 2 := by
        rcases Nat.eq_zero_or_pos value with zero | positive
        · omega
        · exact (Nat.log2_lt (Nat.ne_of_gt positive)).mp (Nat.lt_succ_of_le fits)
      have byte : (UInt8.ofNat value).toNat = value := by
        simp only [UInt8.toNat_ofNat']
        omega
      rw [← length_encode, encode, if_pos (by omega)]
      simp only [List.cons_append, List.nil_append, readWithin, byte, List.length_singleton]
      rw [if_neg (by omega), if_pos (by omega)]
  | succ room ih =>
      rw [← length_encode, encode]
      split
      next small =>
        have byte : (UInt8.ofNat value).toNat = value := by
          simp only [UInt8.toNat_ofNat']
          omega
        simp only [List.cons_append, List.nil_append, readWithin, byte, List.length_singleton]
        rw [if_neg (by omega), if_pos small]
      next large =>
        have byte : (UInt8.ofNat (value % 128 + 128)).toNat = value % 128 + 128 := by
          simp only [UInt8.toNat_ofNat']
          omega
        have later : (value / 128).log2 ≤ 7 * room := by
          rw [log2_div_128 (Nat.not_lt.mp large)] at fits
          omega
        simp only [List.cons_append, List.length_cons, length_encode]
        rw [readWithin, byte, if_neg (by omega), if_neg (by omega), ih later]
        simp only [Except.ok.injEq, Prod.mk.injEq, and_true]
        omega

/-- A number of 64 bits is read back from its shortest form, whatever follows it. -/
theorem read_encode {value : Nat} (fits : value < UInt64.size) (rest : Bytes)
    : read (encode value ++ rest) = .ok (value, size value) := by
  refine readWithin_encode 9 ?_ rest
  rcases Nat.eq_zero_or_pos value with rfl | positive
  · decide
  · exact Nat.le_of_lt_succ ((Nat.log2_lt (Nat.ne_of_gt positive)).mpr fits)

/-- A number of more than seven bits is written as its seven lowest bits and then the others. -/
theorem encode_add_mul {low high : Nat} (small : low < 128) (positive : 0 < high)
    : encode (low + 128 * high) = UInt8.ofNat (low + 128) :: encode high := by
  have bits : (low + 128 * high) % 128 = low := by omega
  have others : (low + 128 * high) / 128 = high := by omega
  rw [encode, if_neg (by omega), bits, others]

/-- The bytes that a number was read from are no fewer than those of its shortest form, and as many
only if they are its shortest form. Witness: induction on the room. Where the last byte adds nothing
to the number, the shortest form ends before it.
-/
theorem shortest_of_readWithin {room : Nat} {bytes : Bytes} {value count : Nat}
    (read : readWithin room bytes = .ok (value, count))
    : size value ≤ count ∧ (count = size value ↔ encode value <+: bytes) := by
  induction room generalizing bytes value count with
  | zero => cases read
  | succ room ih =>
      cases bytes with
      | nil => cases read
      | cons byte rest =>
          rcases of_readWithin_cons read with ⟨last, rfl, rfl⟩ | ⟨more, high, taken, behind, rfl, rfl⟩
          · have form : encode byte.toNat = [byte] := by
              rw [encode, if_pos last, UInt8.ofNat_toNat]
            rw [← length_encode, form]
            simp
          · have positive := (count_of_readWithin behind).1
            have below := byte.toNat_lt
            rcases Nat.eq_zero_or_pos high with rfl | present
            · have form : encode (byte.toNat - 128 + 128 * 0)
                  = [UInt8.ofNat (byte.toNat - 128)] := by
                rw [Nat.mul_zero, Nat.add_zero, encode, if_pos (by omega)]
              have other : UInt8.ofNat (byte.toNat - 128) ≠ byte := by
                rw [ne_eq, ← UInt8.toNat_inj, UInt8.toNat_ofNat']
                omega
              rw [← length_encode, form]
              simp only [List.length_singleton, List.cons_prefix_cons, other, false_and,
                iff_false]
              omega
            · obtain ⟨fewer, same⟩ := ih behind
              have front : byte.toNat - 128 + 128 = byte.toNat := by omega
              have form : encode (byte.toNat - 128 + 128 * high) = byte :: encode high := by
                rw [encode_add_mul (by omega) present, front, UInt8.ofNat_toNat]
              rw [← length_encode, form, List.length_cons, length_encode,
                List.cons_prefix_cons, ← same, eq_self, true_and]
              omega

/-- A number was read from no fewer bytes than those of its shortest form, and from as many only if
they are its shortest form.
-/
theorem shortest_of_read {bytes : Bytes} {value count : Nat}
    (h : read bytes = .ok (value, count))
    : size value ≤ count ∧ (count = size value ↔ encode value <+: bytes) :=
  shortest_of_readWithin h

end Av1Transport.Leb128
