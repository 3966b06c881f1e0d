/-! Byte strings: their lengths, cutting bytes off the front, the bits of a byte, words, and reading
item after item off the front.
A bit is named by its weight (1, 2, 4, … 128), so that every field is a quotient and a remainder.
Words have two or four bytes, the highest byte first; they are read back from their bytes, whatever
follows them. A reading is its first item followed by the reading of the bytes after it.
-/

namespace Av1Transport

-----------------------------------------------------------------------------------------
-- Bytes at the front
-----------------------------------------------------------------------------------------

/-- A byte string, the first byte on the wire first. -/
abbrev Bytes := List UInt8

-- sums of lengths start from the same zero however much algebra is imported beside them
scoped instance zeroLength : Zero Nat :=
  ⟨0⟩

/-- The first `count` bytes and the bytes after them, if there are that many. When nothing
follows, the bytes are handed on as they are. -/
def splitExact? (count : Nat) (bytes : Bytes) : Option (Bytes × Bytes) :=
  match bytes.drop count with
  | [] => if bytes.length = count then some (bytes, []) else none
  | rest => some (bytes.take count, rest)

/-- Splitting succeeds exactly when there are enough bytes, by cases on what is left. -/
theorem splitExact?_eq (count : Nat) (bytes : Bytes)
    : splitExact? count bytes
      = if count ≤ bytes.length then some (bytes.take count, bytes.drop count) else none := by
  unfold splitExact?
  cases hd : bytes.drop count with
  | nil =>
      have hl : bytes.length ≤ count := List.drop_eq_nil_iff.mp hd
      by_cases he : bytes.length = count
      · rw [if_pos (Nat.le_of_eq he.symm), ← he]
        simp
      · rw [if_neg (by omega : ¬ count ≤ bytes.length)]
        simp [he]
  | cons head tail =>
      have hl : count < bytes.length := by
        have := congrArg List.length hd
        simp at this
        omega
      simp [Nat.le_of_lt hl]

/-- Bytes are cut off in front of whatever follows them. -/
theorem splitExact?_append (front back : Bytes)
    : splitExact? front.length (front ++ back) = some (front, back) := by
  simp [splitExact?_eq]

/-- What was cut off and what is left make up the bytes. -/
theorem eq_append_of_splitExact? {count : Nat} {bytes front back : Bytes}
    (cut : splitExact? count bytes = some (front, back))
    : bytes = front ++ back ∧ front.length = count := by
  rw [splitExact?_eq] at cut
  split at cut
  next enough =>
    cases cut
    exact ⟨(List.take_append_drop count bytes).symm, List.length_take_of_le enough⟩
  next => cases cut

-----------------------------------------------------------------------------------------
-- The bits of a byte
-----------------------------------------------------------------------------------------

/-- The bit of the given weight is set. -/
def bitSet (byte : UInt8) (weight : Nat) : Bool :=
  byte.toNat / weight % 2 == 1

/-- The field of `width` values whose lowest bit has the given weight. -/
def bitField (byte : UInt8) (weight width : Nat) : UInt8 :=
  UInt8.ofNat (byte.toNat / weight % width)

/-- What a flag adds to a byte that holds it at the given weight. -/
def flagWeight (flag : Bool) (weight : Nat) : Nat :=
  if flag then weight else 0

/-- A field has fewer values than its width says. -/
theorem toNat_bitField_lt (byte : UInt8) (weight : Nat) {width : Nat} (positive : 0 < width)
    : (bitField byte weight width).toNat < width := by
  have hl : byte.toNat / weight % width < width := Nat.mod_lt _ positive
  exact Nat.lt_of_le_of_lt (by simpa [bitField] using Nat.mod_le _ _) hl

-----------------------------------------------------------------------------------------
-- Words of two and four bytes
-----------------------------------------------------------------------------------------

/-- The two bytes of a word. -/
def word16Bytes (word : UInt16) : Bytes :=
  [UInt8.ofNat (word.toNat / 256), UInt8.ofNat word.toNat]

/-- The word that two bytes spell. -/
def word16 (high low : UInt8) : UInt16 :=
  UInt16.ofNat (high.toNat * 256 + low.toNat)

/-- The four bytes of a word. -/
def word32Bytes (word : UInt32) : Bytes :=
  [UInt8.ofNat (word.toNat / 16777216), UInt8.ofNat (word.toNat / 65536),
    UInt8.ofNat (word.toNat / 256), UInt8.ofNat word.toNat]

/-- The word that four bytes spell. -/
def word32 (b3 b2 b1 b0 : UInt8) : UInt32 :=
  UInt32.ofNat (((b3.toNat * 256 + b2.toNat) * 256 + b1.toNat) * 256 + b0.toNat)

@[simp]
theorem length_word16Bytes (word : UInt16) : (word16Bytes word).length = 2 :=
  rfl

@[simp]
theorem length_word32Bytes (word : UInt32) : (word32Bytes word).length = 4 :=
  rfl

/-- A word is read back from its two bytes, by arithmetic modulo 256. -/
theorem word16_bytes (word : UInt16)
    : word16 (UInt8.ofNat (word.toNat / 256)) (UInt8.ofNat word.toNat) = word := by
  apply UInt16.toNat_inj.mp
  have := word.toNat_lt
  simp only [word16, UInt16.toNat_ofNat', UInt8.toNat_ofNat']
  omega

/-- A word is read back from its four bytes, by arithmetic modulo 256. -/
theorem word32_bytes (word : UInt32)
    : word32 (UInt8.ofNat (word.toNat / 16777216)) (UInt8.ofNat (word.toNat / 65536))
        (UInt8.ofNat (word.toNat / 256)) (UInt8.ofNat word.toNat)
      = word := by
  apply UInt32.toNat_inj.mp
  have := word.toNat_lt
  simp only [word32, UInt32.toNat_ofNat', UInt8.toNat_ofNat']
  omega

/-- The first `count` words, and the bytes after them. -/
def readWords : Nat → Bytes → Option (List UInt32 × Bytes)
  | 0, bytes => some ([], bytes)
  | count + 1, b3 :: b2 :: b1 :: b0 :: bytes =>
      match readWords count bytes with
      | some (words, rest) => some (word32 b3 b2 b1 b0 :: words, rest)
      | none => none
  | _ + 1, _ => none

/-- Words are read back from their bytes, by induction on the words. -/
theorem readWords_flatMap (words : List UInt32) (rest : Bytes)
    : readWords words.length (words.flatMap word32Bytes ++ rest) = some (words, rest) := by
  induction words with
  | nil => rfl
  | cons word words ih =>
      simp only [List.flatMap_cons, word32Bytes, List.cons_append, List.nil_append,
        List.length_cons, readWords, ih, word32_bytes]

-----------------------------------------------------------------------------------------
-- Item after item
-----------------------------------------------------------------------------------------

/-- What reading item after item gave: the items, each with the number of bytes it took, and
the failure that ended the reading, if one did. -/
structure Reading (α ε : Type) where
  items : List (α × Nat)
  failure : Option ε
  deriving Repr, DecidableEq

namespace Reading

variable {α ε : Type}

/-- The items alone. -/
def values (reading : Reading α ε) : List α :=
  reading.items.map Prod.fst

/-- The number of bytes that the items took. -/
def consumed (reading : Reading α ε) : Nat :=
  (reading.items.map Prod.snd).sum

/-- All the items of a reading that came to the end of its bytes, otherwise its failure. -/
def toExcept (reading : Reading α ε) : Except ε (List α) :=
  match reading.failure with
  | none => .ok reading.values
  | some failure => .error failure

/-- A reading with one more item in front. -/
def cons (item : α) (count : Nat) (reading : Reading α ε) : Reading α ε :=
  { reading with items := (item, count) :: reading.items }

end Reading

/-- Reads items until no byte is left or an item cannot be read. An item takes at least one
byte, also where its reader claims none. -/
def readAll {α ε : Type} (item : Bytes → Except ε (α × Nat)) (bytes : Bytes) : Reading α ε :=
  go #[] bytes
where
  go (items : Array (α × Nat)) : Bytes → Reading α ε
    | [] => ⟨items.toList, none⟩
    | byte :: rest =>
        match item (byte :: rest) with
        | .ok (value, count) => go (items.push (value, count)) (rest.drop (count - 1))
        | .error failure => ⟨items.toList, some failure⟩
  termination_by bytes => bytes.length
  decreasing_by
    simp only [List.length_drop, List.length_cons]
    omega

namespace readAll

variable {α ε : Type} (item : Bytes → Except ε (α × Nat))

/-- Items gathered so far stand in front of those still to come, by induction on the number
of bytes. -/
theorem go_eq (items : Array (α × Nat)) (bytes : Bytes)
    : go item items bytes
      = ⟨items.toList ++ (readAll item bytes).items, (readAll item bytes).failure⟩ := by
  generalize hn : bytes.length = n
  induction n using Nat.strongRecOn generalizing items bytes with
  | ind n ih =>
      cases bytes with
      | nil =>
          rw [readAll, go, go]
          simp
      | cons byte rest =>
          rw [readAll, go, go]
          cases item (byte :: rest) with
          | error failure => simp
          | ok read =>
              have shorter : (rest.drop (read.2 - 1)).length < n := by
                simp only [List.length_cons] at hn
                simp only [List.length_drop]
                omega
              have later := fun items => ih _ shorter items _ rfl
              simp [later]

end readAll

/-- No bytes hold no items. -/
@[simp]
theorem readAll_nil {α ε : Type} (item : Bytes → Except ε (α × Nat))
    : readAll item [] = ⟨[], none⟩ := by
  rw [readAll, readAll.go]

/-- A failing first item ends the reading. -/
theorem readAll_error {α ε : Type} {item : Bytes → Except ε (α × Nat)} {bytes : Bytes}
    {failure : ε} (nonempty : bytes ≠ []) (failed : item bytes = .error failure)
    : readAll item bytes = ⟨[], some failure⟩ := by
  cases bytes with
  | nil => exact absurd rfl nonempty
  | cons byte rest => simp [readAll, readAll.go, failed]

/-- A first item of at least one byte is followed by the reading of what is left. -/
theorem readAll_ok {α ε : Type} {item : Bytes → Except ε (α × Nat)} {bytes : Bytes}
    {value : α} {count : Nat} (nonempty : bytes ≠ []) (positive : 0 < count)
    (read : item bytes = .ok (value, count))
    : readAll item bytes = (readAll item (bytes.drop count)).cons value count := by
  cases bytes with
  | nil => exact absurd rfl nonempty
  | cons byte rest =>
      obtain ⟨count, rfl⟩ : ∃ n, count = n + 1 := ⟨count - 1, by omega⟩
      rw [readAll, readAll.go]
      simp [read, readAll.go_eq, Reading.cons]

end Av1Transport
