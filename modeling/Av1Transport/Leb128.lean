import Av1Transport.Bytes

/-! Base-128 numbers of variable length, the least significant seven bits first.
A byte of 128 or more is followed by another; a number of 64 bits takes at most ten bytes. Numbers
are read and written by arithmetic, and in words of 64 bits by masks and shifts: a word has room for
nine groups of seven bits and for the lowest bit of a tenth.
-/

namespace Av1Transport.Leb128

/-- Why no number can be read. -/
inductive Error where
  | truncated
  | overflow
  deriving Repr, DecidableEq

def Error.message : Error → String
  | .truncated => "buffer ended inside a leb128 value"
  | .overflow => "leb128 value exceeds 64 bits"

/-- The most bytes that a 64-bit number takes. -/
def maxLength : Nat := 10

/-- The length of the shortest form: one byte for every seven bits, and one for zero. -/
def size (value : Nat) : Nat :=
  value.log2 / 7 + 1

/-- The shortest form. -/
def encode (value : Nat) : Bytes :=
  if value < 128 then
    [UInt8.ofNat value]
  else
    UInt8.ofNat (value % 128 + 128) :: encode (value / 128)

/-- Reads a number from at most `room` bytes, of which the last may only be 0 or 1, and says
how many it took. -/
def readWithin : Nat → Bytes → Except Error (Nat × Nat)
  | 0, _ => .error .overflow
  | _ + 1, [] => .error .truncated
  | room + 1, byte :: rest =>
      if room = 0 ∧ 1 < byte.toNat then
        .error .overflow
      else if byte.toNat < 128 then
        .ok (byte.toNat, 1)
      else
        match readWithin room rest with
        | .ok (value, count) => .ok (byte.toNat - 128 + 128 * value, count + 1)
        | .error failure => .error failure

/-- The number at the front of the bytes, below 2 ^ 64, and how many bytes it takes. -/
def read (bytes : Bytes) : Except Error (Nat × Nat) :=
  readWithin maxLength bytes

/-- The number at the front of the bytes, whatever follows it. -/
def decode (bytes : Bytes) : Except Error Nat :=
  match read bytes with
  | .ok (value, _) => .ok value
  | .error failure => .error failure

/-- A form is never empty. -/
theorem encode_ne_nil (value : Nat) : encode value ≠ [] := by
  rw [encode]
  split <;> simp

/-- A byte below 128 ends the number, unless its bits have no room. -/
theorem readWithin_cons_of_lt (room : Nat) {byte : UInt8} (last : byte.toNat < 128) (rest : Bytes)
    : readWithin (room + 1) (byte :: rest)
      = if room = 0 ∧ 1 < byte.toNat then .error .overflow else .ok (byte.toNat, 1) := by
  rw [readWithin, if_pos last]

/-- In front of a byte of 128 or more stands what is read behind it. The last byte of all cannot be
one.
-/
theorem readWithin_cons_of_le (room : Nat) {byte : UInt8} (more : 128 ≤ byte.toNat) (rest : Bytes)
    : readWithin (room + 1) (byte :: rest)
      = (readWithin room rest).map
          fun (high, count) => (byte.toNat - 128 + 128 * high, count + 1) := by
  rw [readWithin, if_neg (Nat.not_lt.mpr more)]
  cases room with
  | zero =>
      rw [if_pos ⟨rfl, Nat.lt_of_lt_of_le (by decide) more⟩]
      rfl
  | succ room =>
      rw [if_neg (fun refused => Nat.succ_ne_zero room refused.1)]
      cases readWithin (room + 1) rest <;> rfl

/-- The seven bits of a byte that announces another one. -/
theorem mod_of_le {byte : UInt8} (more : 128 ≤ byte.toNat)
    : byte.toNat % 128 = byte.toNat - 128 := by
  have := byte.toNat_lt
  omega

/-- A number is read from a byte alone or from a number behind it as well. -/
theorem of_readWithin_cons {room : Nat} {byte : UInt8} {rest : Bytes} {value count : Nat}
    (h : readWithin (room + 1) (byte :: rest) = .ok (value, count))
    : byte.toNat < 128 ∧ value = byte.toNat ∧ count = 1
      ∨ 128 ≤ byte.toNat
        ∧ ∃ high later,
            readWithin room rest = .ok (high, later)
            ∧ value = byte.toNat - 128 + 128 * high
            ∧ count = later + 1 := by
  rcases Nat.lt_or_ge byte.toNat 128 with last | more
  · rw [readWithin_cons_of_lt room last] at h
    split at h <;> cases h
    exact .inl ⟨last, rfl, rfl⟩
  · rw [readWithin_cons_of_le room more] at h
    cases behind : readWithin room rest with
    | error failure =>
        rw [behind] at h
        cases h
    | ok found =>
        rw [behind] at h
        cases h
        exact .inr ⟨more, found.1, found.2, rfl, rfl, rfl⟩

/-- A number read takes at least one byte and no more than there are, by induction on the
room. -/
theorem count_of_readWithin {room : Nat} {bytes : Bytes} {value count : Nat}
    (h : readWithin room bytes = .ok (value, count))
    : 0 < count ∧ count ≤ bytes.length := by
  induction room generalizing bytes value count with
  | zero => cases h
  | succ room ih =>
      cases bytes with
      | nil => cases h
      | cons byte rest =>
          rw [List.length_cons]
          rcases of_readWithin_cons h with ⟨_, _, rfl⟩ | ⟨_, high, later, behind, _, rfl⟩
          · omega
          · have := ih behind
            omega

/-- A number read takes at least one byte and no more than there are. -/
theorem count_of_read {bytes : Bytes} {value count : Nat} (h : read bytes = .ok (value, count))
    : 0 < count ∧ count ≤ bytes.length :=
  count_of_readWithin h

/-- A number that was read is read from the bytes it took, whatever follows them, by induction on
the room. -/
theorem readWithin_take_append {room : Nat} {bytes : Bytes} {value count : Nat}
    (h : readWithin room bytes = .ok (value, count)) (rest : Bytes)
    : readWithin room (bytes.take count ++ rest) = .ok (value, count) := by
  induction room generalizing bytes value count with
  | zero => cases h
  | succ room ih =>
      cases bytes with
      | nil => cases h
      | cons byte tail =>
          rcases of_readWithin_cons h with ⟨last, _, rfl⟩ | ⟨more, high, later, behind, rfl, rfl⟩
          · rw [readWithin_cons_of_lt room last] at h
            rw [List.take_succ_cons, List.cons_append, readWithin_cons_of_lt room last, h]
          · rw [List.take_succ_cons, List.cons_append, readWithin_cons_of_le room more, ih behind]
            rfl

/-- A number that was read is read from the bytes it took, whatever follows them. -/
theorem read_take_append {bytes : Bytes} {value count : Nat}
    (h : read bytes = .ok (value, count)) (rest : Bytes)
    : read (bytes.take count ++ rest) = .ok (value, count) :=
  readWithin_take_append h rest

/-- A number that was read is read in front of any further bytes too. -/
theorem read_append {bytes : Bytes} {value count : Nat} (h : read bytes = .ok (value, count))
    (rest : Bytes)
    : read (bytes ++ rest) = .ok (value, count) := by
  have split := read_take_append h (bytes.drop count ++ rest)
  rwa [← List.append_assoc, List.take_append_drop] at split

/-- Bytes beyond the room do not matter, by induction on the room. -/
theorem readWithin_take (room : Nat) (bytes : Bytes)
    : readWithin room (bytes.take room) = readWithin room bytes := by
  induction room generalizing bytes with
  | zero => simp [readWithin]
  | succ room ih =>
      cases bytes with
      | nil => rfl
      | cons byte rest => simp only [List.take_succ_cons, readWithin, ih]

/-- Only the first ten bytes matter. -/
theorem read_take (bytes : Bytes) : read (bytes.take maxLength) = read bytes :=
  readWithin_take maxLength bytes

end Av1Transport.Leb128

-----------------------------------------------------------------------------------------
-- Words of 64 bits
-----------------------------------------------------------------------------------------

namespace Av1Transport.Leb128.Word

/-- The seven bits that a byte gives to the number. -/
def group (byte : UInt8) : UInt64 :=
  (byte &&& 0x7F).toUInt64

/-- The bit that announces another byte. -/
def continues (byte : UInt8) : Bool :=
  byte &&& 0x80 != 0

/-- The seven bits of a byte, shifted to the place of the byte with this index. -/
def placed (byte : UInt8) (index : Nat) : UInt64 :=
  group byte <<< UInt64.ofNat (7 * index)

/-- Takes up one byte after another, the first of them under the index, until one announces no
other. Nothing is said where the bytes run out before.
-/
def gather (value : UInt64) (index : Nat) : Bytes → Option (Except Error (UInt64 × Nat))
  | [] => none
  | byte :: rest =>
      if 7 * index = 63 ∧ 1 < group byte then
        some (.error .overflow)
      else if continues byte then
        gather (value ||| placed byte index) (index + 1) rest
      else
        some (.ok (value ||| placed byte index, index + 1))

/-- The word at the front of the bytes and how many bytes it takes. -/
def read (bytes : Bytes) : Except Error (UInt64 × Nat) :=
  (gather 0 0 (bytes.take maxLength)).getD
    (if maxLength ≤ bytes.length then .error .overflow else .error .truncated)

/-- The number of bits from the highest one that is set on. -/
def bitLength (value : UInt64) : Nat :=
  64 - value.toBitVec.clz.toNat

/-- The length of the shortest form: the bits in groups of seven, the last of which may be
incomplete, and one group for zero.
-/
def size (value : UInt64) : Nat :=
  max ((bitLength value + 6) / 7) 1

/-- Shifting out seven bits divides by 128. -/
theorem toNat_shiftRight_seven (value : UInt64) : (value >>> 7).toNat = value.toNat / 128 := by
  rw [UInt64.toNat_shiftRight, Nat.shiftRight_eq_div_pow]
  rfl

/-- A word with more than seven bits gets smaller when they are shifted out. -/
theorem toNat_shiftRight_lt {value : UInt64} (more : value >>> 7 ≠ 0)
    : (value >>> 7).toNat < value.toNat := by
  rw [ne_eq, ← UInt64.toNat_inj, UInt64.toNat_zero] at more
  rw [toNat_shiftRight_seven] at more ⊢
  omega

/-- The shortest form, seven bits after another from the lowest on. -/
def encode (value : UInt64) : Bytes :=
  let later := value >>> 7
  if later ≠ 0 then
    ((value &&& 0x7F).toUInt8 ||| 0x80) :: encode later
  else
    [(value &&& 0x7F).toUInt8]
termination_by value.toNat
decreasing_by exact toNat_shiftRight_lt ‹_›

end Av1Transport.Leb128.Word
