/-! Texts: white space at their ends, the parts between marks, and decimal numerals below 256. -/

namespace Av1Transport.Text

-----------------------------------------------------------------------------------------
-- White space
-----------------------------------------------------------------------------------------

/-- The code points of white space, as ranges. -/
def blankRanges : List (Nat × Nat) :=
  [(0x09, 0x0d), (0x20, 0x20), (0x85, 0x85), (0xa0, 0xa0), (0x1680, 0x1680), (0x2000, 0x200a),
    (0x2028, 0x2029), (0x202f, 0x202f), (0x205f, 0x205f), (0x3000, 0x3000)]

/-- The character is white space. -/
def isBlank (char : Char) : Bool :=
  blankRanges.any fun (first, last) => first ≤ char.toNat && char.toNat ≤ last

/-- The text without the white space at its ends. -/
def trim (text : List Char) : List Char :=
  ((text.dropWhile isBlank).reverse.dropWhile isBlank).reverse

/-- A decimal digit is no white space. -/
theorem isBlank_of_isDigit {char : Char} (digit : char.isDigit = true) : isBlank char = false := by
  have bounds : 48 ≤ char.toNat ∧ char.toNat ≤ 57 := by
    simpa [Char.isDigit, UInt32.le_iff_toNat_le] using digit
  simp only [isBlank, blankRanges, List.any_cons, List.any_nil, Bool.or_false, Bool.or_eq_false_iff,
    Bool.and_eq_false_iff, decide_eq_false_iff_not]
  omega

/-- A text without white space stays as it is. -/
theorem trim_of_forall {text : List Char} (visible : ∀ char ∈ text, isBlank char = false)
    : trim text = text := by
  have front {chars : List Char} (seen : ∀ char ∈ chars, isBlank char = false)
      : chars.dropWhile isBlank = chars := by
    cases chars with
    | nil => rfl
    | cons char rest => rw [List.dropWhile_cons, seen char List.mem_cons_self, if_neg (by decide)]
  have back : ∀ char ∈ text.reverse, isBlank char = false := by
    intro char member
    exact visible char (List.mem_reverse.mp member)
  rw [trim, front visible, front back, List.reverse_reverse]

-----------------------------------------------------------------------------------------
-- Parts between marks
-----------------------------------------------------------------------------------------

/-- The parts of a text between the marks, one more than there are marks. -/
def segments (mark : Char) (text : List Char) : List (List Char) :=
  text.foldr
    (fun char parts =>
      if char = mark then
        [] :: parts
      else
        match parts with
        | part :: parts => (char :: part) :: parts
        | [] => [[char]])
    [[]]

/-- What stands before the first mark and what stands after it, if there is one. -/
def splitAtFirst? (mark : Char) (text : List Char) : Option (List Char × List Char) :=
  match text.span (· != mark) with
  | (before, _ :: after) => some (before, after)
  | (_, []) => none

/-- A text without marks is one part, by induction on the text. -/
theorem segments_of_not_mem {mark : Char} {text : List Char} (h : mark ∉ text)
    : segments mark text = [text] := by
  induction text with
  | nil => rfl
  | cons char text ih =>
      simp only [List.mem_cons, not_or] at h
      have := ih h.2
      simp only [segments] at this ⊢
      simp [this, Ne.symm h.1]

-----------------------------------------------------------------------------------------
-- Numerals
-----------------------------------------------------------------------------------------

/-- Why a text is no numeral. -/
inductive OctetError where
  | empty
  | invalidDigit
  | tooLarge
  deriving Repr, DecidableEq

def OctetError.message : OctetError → String
  | .empty => "cannot parse integer from empty string"
  | .invalidDigit => "invalid digit found in string"
  | .tooLarge => "number too large to fit in target type"

/-- The value of a decimal digit. -/
def digit? (char : Char) : Option Nat :=
  if '0' ≤ char ∧ char ≤ '9' then some (char.toNat - 48) else none

/-- Appends digits to a number below 256. The first character that is no digit or takes the
number out of range decides the error. -/
def readDigits (number : Nat) : List Char → Except OctetError Nat
  | [] => .ok number
  | char :: rest =>
      match digit? char with
      | none => .error .invalidDigit
      | some digit =>
          if 10 * number + digit < 256 then
            readDigits (10 * number + digit) rest
          else
            .error .tooLarge

/-- The number that a numeral stands for. One plus sign may stand in front of the digits. -/
def octet (text : List Char) : Except OctetError UInt8 :=
  match text with
  | [] => .error .empty
  | ['+'] => .error .invalidDigit
  | '+' :: digits => (readDigits 0 digits).map UInt8.ofNat
  | digits => (readDigits 0 digits).map UInt8.ofNat

/-- The digit of a number below ten has this value. -/
theorem digit?_digitChar {number : Nat} (small : number < 10)
    : digit? number.digitChar = some number := by
  have all : ∀ digit : Fin 10, digit? digit.val.digitChar = some digit.val := by decide
  exact all ⟨number, small⟩

/-- Digits are appended one after another, by induction on the first of them. -/
theorem readDigits_append (number : Nat) (digits more : List Char)
    : readDigits number (digits ++ more)
      = match readDigits number digits with
        | .error cause => .error cause
        | .ok next => readDigits next more := by
  induction digits generalizing number with
  | nil => rfl
  | cons char digits ih =>
      rw [List.cons_append, readDigits, readDigits]
      cases digit? char with
      | none => rfl
      | some digit =>
          by_cases inside : 10 * number + digit < 256
          · simp only [if_pos inside, ih]
          · simp only [if_neg inside]

/-- The decimal digits of a number below 256 are read as this number, by induction on their
number: the last of them is what is left by ten.
-/
theorem readDigits_toDigits {number : Nat} (small : number < 256)
    : readDigits 0 (Nat.toDigits 10 number) = .ok number := by
  induction number using Nat.strongRecOn with
  | ind number ih =>
      rw [Nat.toDigits_eq_if (by decide)]
      by_cases single : number < 10
      · rw [if_pos single]
        simp [readDigits, digit?_digitChar single, small]
      · have front := ih (number / 10) (by omega) (by omega)
        have joined : 10 * (number / 10) + number % 10 = number := by omega
        rw [if_neg single, readDigits_append, front]
        simp [readDigits, digit?_digitChar (Nat.mod_lt number (by decide)), joined, small]

/-- A numeral without a plus sign is read by its digits. -/
theorem octet_of_plain {text : List Char} (present : text ≠ []) (plain : '+' ∉ text)
    : octet text = (readDigits 0 text).map UInt8.ofNat := by
  obtain ⟨char, rest, rfl⟩ := List.exists_cons_of_ne_nil present
  have unsigned : char ≠ '+' := fun same => plain (same ▸ List.mem_cons_self)
  unfold octet
  split
  · contradiction
  · simp_all
  · simp_all
  · rfl

theorem isDigit_of_mem_numeral {number : Nat} {char : Char}
    (member : char ∈ (toString number).toList)
    : char.isDigit = true :=
  Nat.isDigit_of_mem_toDigits (by decide) (Nat.le_refl 10) (by rwa [← Nat.toList_repr])

/-- A number below 256 is read back from its decimal numeral. -/
theorem octet_numeral (number : UInt8) : octet (toString number.toNat).toList = .ok number := by
  have digits : (toString number.toNat).toList = Nat.toDigits 10 number.toNat := Nat.toList_repr
  have present : (toString number.toNat).toList ≠ [] := by
    rw [digits, Nat.toDigits_eq_if (by decide)]
    split <;> simp
  have plain : '+' ∉ (toString number.toNat).toList := by
    intro member
    exact absurd (isDigit_of_mem_numeral member) (by decide)
  rw [octet_of_plain present plain, digits, readDigits_toDigits number.toNat_lt]
  simp [Except.map]

end Av1Transport.Text
