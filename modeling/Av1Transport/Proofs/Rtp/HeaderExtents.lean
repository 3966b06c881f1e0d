import Av1Transport.Proofs.Rtp.ReadHeaders

/-! How far a header reaches.
The first byte and the length field tell where a header ends. Main statement: a header is read from
its own bytes, whatever follows them, and not from fewer; the failure then tells whether the sources
were complete.
-/

namespace Av1Transport

/-- Words that are complete are read whatever follows them, by induction on their number. -/
theorem exists_words {count : Nat} {bytes : Bytes} (complete : 4 * count ≤ bytes.length)
    : ∃ words, ∀ rest, readWords count (bytes.take (4 * count) ++ rest) = some (words, rest) := by
  induction count generalizing bytes with
  | zero => exact ⟨[], fun rest => by simp [readWords]⟩
  | succ count ih =>
      rcases bytes with _ | ⟨b3, _ | ⟨b2, _ | ⟨b1, _ | ⟨b0, later⟩⟩⟩⟩
      case cons.cons.cons.cons =>
        have others : 4 * count ≤ later.length := by
          simp only [List.length_cons] at complete
          omega
        obtain ⟨words, read⟩ := ih others
        refine ⟨word32 b3 b2 b1 b0 :: words, fun rest => ?_⟩
        simp only [Nat.mul_succ, List.take_succ_cons, List.cons_append, readWords, read]
      all_goals
        simp only [List.length_cons, List.length_nil] at complete
        omega

theorem readWords_of_short {count : Nat} {bytes : Bytes} (short : bytes.length < 4 * count)
    : readWords count bytes = none := by
  cases read : readWords count bytes with
  | none => rfl
  | some found =>
      obtain ⟨words, rest⟩ := found
      have length := (length_of_readWords read).2
      omega

namespace Rtp.Header

-----------------------------------------------------------------------------------------
-- What the bytes of a header tell
-----------------------------------------------------------------------------------------

/-- The bytes in front of the extensions, with as many sources as the first byte tells. -/
def frontLength (bytes : Bytes) : Nat :=
  fixedLength + 4 * (bitField (bytes.headD 0) 1 16).toNat

/-- The bytes of extensions: their layout, the length field and the words that it tells. -/
def extensionLength : Bytes → Nat
  | _ :: _ :: high :: low :: _ => 4 + 4 * (word16 high low).toNat
  | _ => 4

/-- The bytes of the whole header. The first byte tells whether there are extensions. -/
def toldLength (bytes : Bytes) : Nat :=
  frontLength bytes
    + if bitSet (bytes.headD 0) 16 then extensionLength (bytes.drop (frontLength bytes)) else 0

-----------------------------------------------------------------------------------------
-- The bytes in front of the extensions
-----------------------------------------------------------------------------------------

theorem readFixed?_of_short (old : Header) {bytes : Bytes} (short : bytes.length < fixedLength)
    : old.readFixed? bytes = none := by
  unfold readFixed?
  split
  next =>
    simp only [fixedLength, List.length_cons] at short
    omega
  next => rfl

/-- The fixed bytes are read whatever follows them. -/
theorem exists_fixed (old : Header) {bytes : Bytes} (complete : fixedLength ≤ bytes.length)
    : ∃ fixed : Header,
        fixed.hasExtension = bitSet (bytes.headD 0) 16
        ∧ ∀ rest,
            old.readFixed? (bytes.take fixedLength ++ rest)
              = some (fixed, (bitField (bytes.headD 0) 1 16).toNat, rest) := by
  match bytes, complete with
  | _ :: _ :: _ :: _ :: _ :: _ :: _ :: _ :: _ :: _ :: _ :: _ :: _, _ =>
      exact ⟨_, rfl, fun _ => rfl⟩

/-- With fewer bytes than the first one tells the sources are not complete. -/
theorem overwrite_of_short (old : Header) {bytes : Bytes} (short : bytes.length < frontLength bytes)
    : (old.overwrite bytes).1 = .error .shortHeader := by
  by_cases fixed : bytes.length < fixedLength
  · rw [overwrite, readFixed?_of_short _ fixed]
  · obtain ⟨front, _, readFront⟩ := old.clear.exists_fixed (Nat.le_of_not_lt fixed)
    have read := readFront (bytes.drop fixedLength)
    rw [List.take_append_drop] at read
    have few : (bytes.drop fixedLength).length < 4 * (bitField (bytes.headD 0) 1 16).toNat := by
      rw [frontLength] at short
      rw [List.length_drop]
      omega
    simp only [overwrite, read, readWords_of_short few]

/-- What stands behind the sources is read as it would be behind any other bytes. -/
theorem exists_sourced (old : Header) {bytes : Bytes} (complete : frontLength bytes ≤ bytes.length)
    : ∃ sourced : Header,
        sourced.hasExtension = bitSet (bytes.headD 0) 16
        ∧ ∀ behind,
            old.overwrite (bytes.take (frontLength bytes) ++ behind)
              = if sourced.hasExtension then
                  ((sourced.readExtensions behind).1.map (frontLength bytes + ·),
                    (sourced.readExtensions behind).2)
                else
                  (.ok (frontLength bytes), sourced) := by
  have twelve : fixedLength ≤ bytes.length := Nat.le_trans (Nat.le_add_right _ _) complete
  obtain ⟨fixed, flag, readFront⟩ := old.clear.exists_fixed twelve
  have sources
      : 4 * (bitField (bytes.headD 0) 1 16).toNat ≤ (bytes.drop fixedLength).length := by
    rw [frontLength] at complete
    rw [List.length_drop]
    omega
  obtain ⟨csrcs, readSources⟩ := exists_words sources
  refine ⟨{ fixed with csrcs }, flag, fun behind => ?_⟩
  have parts
      : bytes.take (frontLength bytes)
        = bytes.take fixedLength
          ++ (bytes.drop fixedLength).take (4 * (bitField (bytes.headD 0) 1 16).toNat) :=
    List.take_add
  rw [parts, List.append_assoc, overwrite, readFront]
  simp only [readSources]
  split
  next =>
    split
    next third => simp only [third, Except.map]
    next third => simp only [third, Except.map, frontLength]
  next => rfl

-----------------------------------------------------------------------------------------
-- Extensions
-----------------------------------------------------------------------------------------

/-- With fewer bytes than the length field tells no extensions are read. -/
theorem readExtensions_of_short (old : Header) {bytes : Bytes}
    (short : bytes.length < extensionLength bytes)
    : (old.readExtensions bytes).1 = .error .shortExtension := by
  unfold readExtensions
  split
  next c1 c0 high low rest =>
    have few : ¬ 4 * (word16 high low).toNat ≤ rest.length := by
      simp only [extensionLength, List.length_cons] at short
      omega
    simp only [splitExact?_eq, if_neg few]
  next => rfl

/-- Extensions are read from their own bytes, whatever follows them. -/
theorem readExtensions_take_append (old : Header) {bytes : Bytes}
    (enough : extensionLength bytes ≤ bytes.length) (rest : Bytes)
    : old.readExtensions (bytes.take (extensionLength bytes) ++ rest)
      = old.readExtensions bytes := by
  have four : 4 ≤ bytes.length := by
    refine Nat.le_trans ?_ enough
    unfold extensionLength
    split <;> omega
  match bytes, four with
  | c1 :: c0 :: high :: low :: behind, _ =>
      simp only [extensionLength, List.length_cons] at enough
      obtain ⟨region, after, rfl, measured⟩
          : ∃ region after, behind = region ++ after
            ∧ region.length = 4 * (word16 high low).toNat := by
        refine ⟨_, _, (List.take_append_drop (4 * (word16 high low).toNat) behind).symm, ?_⟩
        rw [List.length_take]
        omega
      rw [extensionLength, Nat.add_comm, ← measured]
      simp only [List.take_succ_cons, List.take_left, List.cons_append, readExtensions,
        ← measured, splitExact?_append]

theorem eq_extensionLength_of_readExtensions {old header : Header} {bytes : Bytes} {length : Nat}
    (read : old.readExtensions bytes = (.ok length, header))
    : length = extensionLength bytes := by
  unfold readExtensions at read
  split at read
  next =>
    dsimp only at read
    split at read
    next => cases read
    next =>
      split at read
      next => cases read
      next =>
        cases read
        rfl
  next => cases read

/-- What is left of extensions after a cut tells more than is left. -/
theorem lt_extensionLength_take {bytes : Bytes} {kept : Nat} (cut : kept < extensionLength bytes)
    : kept < extensionLength (bytes.take kept) := by
  by_cases few : kept < 4
  · refine Nat.lt_of_lt_of_le few ?_
    unfold extensionLength
    split <;> omega
  · obtain ⟨more, rfl⟩ : ∃ more, kept = more + 4 := ⟨kept - 4, by omega⟩
    unfold extensionLength at cut
    split at cut
    next => exact cut
    next => omega

-----------------------------------------------------------------------------------------
-- Whole headers
-----------------------------------------------------------------------------------------

theorem parse_eq_ok_iff {bytes : Bytes} {header : Header} {count : Nat}
    : parse bytes = .ok (header, count) ↔ blank.overwrite bytes = (.ok count, header) := by
  unfold parse
  split
  next found => simp [found, and_comm]
  next found => simp [found]

theorem parse_eq_error_iff {bytes : Bytes} {failure : Error}
    : parse bytes = .error failure ↔ (blank.overwrite bytes).1 = .error failure := by
  unfold parse
  split
  next found => simp [found]
  next found => simp [found]

/-- With complete sources and fewer bytes than are told the extensions are not complete. -/
theorem overwrite_of_cut (old : Header) {bytes : Bytes} (complete : frontLength bytes ≤ bytes.length)
    (short : bytes.length < toldLength bytes)
    : (old.overwrite bytes).1 = .error .shortExtension := by
  obtain ⟨sourced, flag, read⟩ := old.exists_sourced complete
  have own := read (bytes.drop (frontLength bytes))
  rw [List.take_append_drop] at own
  rw [toldLength, ← flag] at short
  split at short
  next extended =>
    have cut
        : (bytes.drop (frontLength bytes)).length
          < extensionLength (bytes.drop (frontLength bytes)) := by
      rw [List.length_drop]
      omega
    rw [own, if_pos extended, sourced.readExtensions_of_short cut]
    rfl
  next => omega

/-- A header is read as its own bytes tell, whatever follows them. -/
theorem overwrite_take_append (old : Header) {bytes : Bytes}
    (enough : toldLength bytes ≤ bytes.length) (rest : Bytes)
    : old.overwrite (bytes.take (toldLength bytes) ++ rest) = old.overwrite bytes := by
  have complete : frontLength bytes ≤ bytes.length := Nat.le_trans (Nat.le_add_right _ _) enough
  obtain ⟨sourced, flag, read⟩ := old.exists_sourced complete
  have own := read (bytes.drop (frontLength bytes))
  rw [List.take_append_drop] at own
  rw [toldLength, ← flag] at enough
  rw [toldLength, ← flag, List.take_add, List.append_assoc, read, own]
  split
  next extended =>
    rw [if_pos extended] at enough
    have inside
        : extensionLength (bytes.drop (frontLength bytes))
          ≤ (bytes.drop (frontLength bytes)).length := by
      rw [List.length_drop]
      omega
    rw [sourced.readExtensions_take_append inside]
  next => rfl

theorem frontLength_le_of_overwrite {old header : Header} {bytes : Bytes} {count : Nat}
    (read : old.overwrite bytes = (.ok count, header))
    : frontLength bytes ≤ bytes.length := by
  refine Nat.le_of_not_lt fun short => ?_
  have failed := old.overwrite_of_short short
  rw [read] at failed
  cases failed

theorem eq_toldLength_of_overwrite {old header : Header} {bytes : Bytes} {count : Nat}
    (read : old.overwrite bytes = (.ok count, header))
    : count = toldLength bytes := by
  obtain ⟨sourced, flag, parts⟩ := old.exists_sourced (frontLength_le_of_overwrite read)
  have own := parts (bytes.drop (frontLength bytes))
  rw [List.take_append_drop, read] at own
  rw [toldLength, ← flag]
  split at own
  next extended =>
    rw [if_pos extended]
    cases third : (sourced.readExtensions (bytes.drop (frontLength bytes))).1 with
    | error failure =>
        rw [third] at own
        cases (Prod.mk.inj own).1
    | ok length =>
        have told := eq_extensionLength_of_readExtensions (Prod.ext third rfl)
        rw [third] at own
        cases (Prod.mk.inj own).1
        rw [told]
  next off =>
    rw [if_neg off]
    cases (Prod.mk.inj own).1
    rfl

theorem frontLength_pos (bytes : Bytes) : 0 < frontLength bytes :=
  Nat.lt_add_right _ (by decide)

theorem headD_take (bytes : Bytes) {kept : Nat} (positive : 0 < kept)
    : (bytes.take kept).headD 0 = bytes.headD 0 := by
  obtain ⟨more, rfl⟩ : ∃ more, kept = more + 1 := ⟨kept - 1, by omega⟩
  cases bytes <;> rfl

/-- The first byte alone tells how far the sources reach. -/
theorem frontLength_take (bytes : Bytes) {kept : Nat} (positive : 0 < kept)
    : frontLength (bytes.take kept) = frontLength bytes := by
  rw [frontLength, headD_take bytes positive, frontLength]

/-- What is left of a header after a cut tells more bytes than are left. -/
theorem lt_toldLength_take {bytes : Bytes} {kept : Nat} (complete : frontLength bytes ≤ kept)
    (cut : kept < toldLength bytes)
    : kept < toldLength (bytes.take kept) := by
  have positive : 0 < kept := Nat.lt_of_lt_of_le (frontLength_pos bytes) complete
  obtain ⟨more, rfl⟩ := Nat.exists_eq_add_of_le complete
  rw [toldLength, frontLength_take bytes positive, headD_take bytes positive]
  rw [toldLength] at cut
  split at cut
  next extended =>
    rw [if_pos extended, ← List.take_drop]
    exact Nat.add_lt_add_left (lt_extensionLength_take (Nat.lt_of_add_lt_add_left cut)) _
  next => exact absurd cut (Nat.not_lt.mpr complete)

/-- A header that is read tells how many bytes it takes, and needs no more when it is written. It is
read from them whatever follows, and from fewer it is not: up to the end of the sources the bytes are
too few for a header, and behind it they are too few for the extensions.
-/
theorem parse_extent {bytes : Bytes} {header : Header} {count : Nat}
    (read : parse bytes = .ok (header, count))
    : count ≤ bytes.length
      ∧ count = toldLength bytes
      ∧ header.size ≤ count
      ∧ (∀ rest, parse (bytes.take count ++ rest) = .ok (header, count))
      ∧ ∀ kept < count,
          parse (bytes.take kept)
            = .error (if kept < frontLength bytes then .shortHeader else .shortExtension) := by
  have whole := parse_eq_ok_iff.mp read
  obtain ⟨-, -, written, inside⟩ := overwrite_ok whole
  have told := eq_toldLength_of_overwrite whole
  refine ⟨inside, told, written, ?followed, ?cut⟩
  case followed =>
    intro rest
    rw [told] at inside
    rw [parse_eq_ok_iff, told, overwrite_take_append blank inside, whole, told]
  case cut =>
    intro kept fewer
    have length : (bytes.take kept).length = kept := List.length_take_of_le (by omega)
    rw [parse_eq_error_iff]
    by_cases front : kept < frontLength bytes
    · rw [if_pos front]
      refine blank.overwrite_of_short ?_
      rw [length]
      by_cases nothing : kept = 0
      · rw [nothing]
        exact frontLength_pos _
      · rwa [frontLength_take bytes (Nat.pos_of_ne_zero nothing)]
    · have complete := Nat.le_of_not_lt front
      have more := lt_toldLength_take complete (told ▸ fewer)
      rw [if_neg front]
      refine blank.overwrite_of_cut ?_ ?_
      · rwa [frontLength_take bytes (Nat.lt_of_lt_of_le (frontLength_pos bytes) complete), length]
      · rwa [length]

/-- A header with a source and an extension of two bytes. -/
def oneSource : Header :=
  { blank with
    hasExtension := true
    csrcs := [7]
    extensionCode := 0x1000
    extensions := [⟨3, [0xAB, 0xCD]⟩] }

def oneSourceBytes : Bytes :=
  [0x91, 0, 0, 0, 0, 0, 0, 0, 0, 0, 0, 0, 0, 0, 0, 7, 0x10, 0, 0, 1, 3, 2, 0xAB, 0xCD]

/-- One byte more does not matter. Without the last byte of the source there are too few bytes for a
header, and without the last byte of the extension there are too few for the extensions.
-/
theorem parse_extent_one_source
    : parse (oneSourceBytes ++ [9]) = .ok (oneSource, 24)
      ∧ toldLength (oneSourceBytes ++ [9]) = 24
      ∧ (∀ rest, parse (oneSourceBytes ++ rest) = .ok (oneSource, 24))
      ∧ parse ((oneSourceBytes ++ [9]).take 15) = .error .shortHeader
      ∧ parse ((oneSourceBytes ++ [9]).take 23) = .error .shortExtension := by
  have written : oneSource.toBytesWith false = .ok oneSourceBytes := rfl
  have read : parse (oneSourceBytes ++ [9]) = .ok (oneSource, 24) :=
    parse_eq_ok_iff.mpr (overwrite_of_toBytesWith written blank [9])
  obtain ⟨-, told, -, followed, cut⟩ := parse_extent read
  exact ⟨read, told.symm, followed, cut 15 (by decide), cut 23 (by decide)⟩

end Rtp.Header

end Av1Transport
