import Av1Transport.Obu.Stream
import Av1Transport.Proofs.Bytes.ItemReadings
import Av1Transport.Proofs.Obu.WrittenHeaders

/-! Units as they come out of a stream: their headers are fitted, and they are no longer than the
bytes they were read from.
-/

namespace Av1Transport.Obu

/-- A unit that was read has the header in front of it, and the payload that its size measures or,
without a size, all the bytes that are left.
-/
theorem parse_ok {bytes : Bytes} {obu : Obu} {count : Nat}
    (read : parse bytes = .ok (obu, count))
    : Header.parse bytes = .ok obu.header
      ∧ ((obu.header.hasSize = true
            ∧ ∃ taken,
                parsePayload (bytes.drop obu.header.size) = .ok (obu.payload, taken)
                ∧ count = obu.header.size + taken)
          ∨ (obu.header.hasSize = false
            ∧ obu.payload = bytes.drop obu.header.size
            ∧ count = bytes.length)) := by
  unfold parse at read
  split at read
  next => cases read
  next header front =>
    split at read
    next sized =>
      split at read
      next => cases read
      next payload taken behind =>
        cases read
        exact ⟨front, .inl ⟨sized, taken, behind, rfl⟩⟩
    next unsized =>
      cases read
      exact ⟨front, .inr ⟨Bool.eq_false_iff.mpr unsized, rfl, rfl⟩⟩

/-- The payload of a unit with a size is the one that the size measures. -/
theorem parsePayload_of_parse {bytes : Bytes} {obu : Obu} {count : Nat}
    (read : parse bytes = .ok (obu, count)) (sized : obu.header.hasSize = true)
    : ∃ taken,
        parsePayload (bytes.drop obu.header.size) = .ok (obu.payload, taken)
        ∧ count = obu.header.size + taken := by
  obtain ⟨_, ⟨_, measured⟩ | ⟨unsized, _⟩⟩ := parse_ok read
  · exact measured
  · rw [sized] at unsized
    cases unsized

/-- A payload that was read stands behind its size. -/
theorem parsePayload_ok {bytes payload : Bytes} {count : Nat}
    (read : parsePayload bytes = .ok (payload, count))
    : ∃ taken rest,
        Leb128.read bytes = .ok (payload.length, taken)
        ∧ bytes.drop taken = payload ++ rest
        ∧ count = taken + payload.length := by
  unfold parsePayload at read
  split at read
  next => cases read
  next size taken front =>
    split at read
    next => cases read
    next payload rest cut =>
      cases read
      obtain ⟨whole, rfl⟩ := eq_append_of_splitExact? cut
      exact ⟨taken, rest, front, whole, rfl⟩

/-- A payload behind its size is no longer than the bytes that both take. -/
theorem length_le_of_parsePayload {bytes payload : Bytes} {count : Nat}
    (read : parsePayload bytes = .ok (payload, count))
    : payload.length ≤ count ∧ count ≤ bytes.length := by
  obtain ⟨taken, rest, front, whole, rfl⟩ := parsePayload_ok read
  have behind := (Leb128.count_of_read front).2
  have total := congrArg List.length whole
  rw [List.length_drop, List.length_append] at total
  omega

theorem bareLength_le_of_parse {bytes : Bytes} {obu : Obu} {count : Nat}
    (read : parse bytes = .ok (obu, count))
    : obu.bareLength ≤ count ∧ count ≤ bytes.length := by
  obtain ⟨front, ⟨_, taken, behind, rfl⟩ | ⟨_, payload, rfl⟩⟩ := parse_ok read
  · have header := Header.size_le_of_parse front
    obtain ⟨short, inside⟩ := length_le_of_parsePayload behind
    rw [List.length_drop] at inside
    unfold bareLength
    omega
  · have header := Header.size_le_of_parse front
    rw [bareLength, payload, List.length_drop]
    omega

/-- The bytes that a unit takes are there, and there is at least one. -/
theorem take_of_parse {bytes : Bytes} {obu : Obu} {count : Nat}
    (read : parse bytes = .ok (obu, count))
    : (bytes.take count).length = count ∧ bytes.take count ≠ [] := by
  have length : (bytes.take count).length = count :=
    List.length_take_of_le (bareLength_le_of_parse read).2
  have positive := count_of_parse_pos read
  exact ⟨length, List.ne_nil_of_length_pos (by omega)⟩

/-- The element of a unit with a fitted header starts with that header, which says that no size
follows.
-/
theorem parse_bareBytes {obu : Obu} (fitted : obu.header.fitted = obu.header)
    : Header.parse obu.bareBytes = .ok (obu.header.withSize false) := by
  rw [bareBytes, Header.parse_toBytes, Header.fitted_withSize, fitted]

/-- The first byte of the element says the unit's kind. -/
theorem kind_of_bareBytes {obu : Obu} (fitted : obu.header.fitted = obu.header)
    : ∃ first rest, obu.bareBytes = first :: rest ∧ obu.header.kind = Header.kindOfByte first := by
  have kind := Header.kind_of_parse (parse_bareBytes fitted)
  exact kind

/-- Every unit of a stream has a fitted header. -/
theorem fitted_of_mem_split {bytes : Bytes} {obu : Obu} (member : obu ∈ (split bytes).values)
    : obu.header.fitted = obu.header := by
  obtain ⟨left, count, _, read⟩ :=
    exists_item_of_mem_values (fun _ read => count_of_parse_pos read) member
  exact Header.fitted_of_parse (parse_ok read).1

/-- No unit is longer than the stream it was read from, as it was read from what was left of it. -/
theorem bareLength_le_of_mem_split {bytes : Bytes} {obu : Obu}
    (member : obu ∈ (split bytes).values)
    : obu.bareLength ≤ bytes.length := by
  obtain ⟨left, count, behind, read⟩ :=
    exists_item_of_mem_values (fun _ read => count_of_parse_pos read) member
  obtain ⟨short, inside⟩ := bareLength_le_of_parse read
  exact Nat.le_trans short (Nat.le_trans inside behind.length_le)

-----------------------------------------------------------------------------------------
-- Units one after another
-----------------------------------------------------------------------------------------

/-- A stream gives these units, each with the bytes that it takes, and then this failure, if there
is one, when it is read as a whole and when it is asked for one unit after another.
-/
structure SplitAs (bytes : Bytes) (items : List (Obu × Nat)) (failure : Option Error) : Prop where
  read : split bytes = ⟨items, failure⟩
  asked : Enumerates next bytes (outcomes (items.map Prod.fst) failure)

/-- Asking for one unit after another gives what reading the stream finds. -/
theorem splitAs_split (bytes : Bytes)
    : SplitAs bytes (split bytes).items (split bytes).failure where
  read := rfl
  asked := by
    have asked
        : Enumerates next bytes
            (outcomes ((split bytes).values.filterMap some) (split bytes).failure) := by
      refine enumerates_readAll parse some (fun _ read => count_of_parse_pos read) ?ended ?failed
        ?given ?skipped bytes
      case ended => rfl
      case failed =>
        intro bytes failure present read
        simp [next, present, read]
      case given =>
        rintro bytes obu count _ present read ⟨⟩
        simp [next, present, read]
      case skipped =>
        intro _ _ _ _ _ none
        cases none
    rwa [List.filterMap_some] at asked

theorem splitAs_of_split {bytes : Bytes} {items : List (Obu × Nat)} {failure : Option Error}
    (same : split bytes = ⟨items, failure⟩)
    : SplitAs bytes items failure := by
  have whole := splitAs_split bytes
  rwa [same] at whole

-----------------------------------------------------------------------------------------
-- Streams in front of others
-----------------------------------------------------------------------------------------

/-- A header is read from its own bytes, whatever follows them, by cases on its flags. -/
theorem Header.parse_take_append {bytes : Bytes} {header : Header}
    (read : parse bytes = .ok header) (rest : Bytes)
    : parse (bytes.take header.size ++ rest) = .ok header := by
  unfold parse at read
  split at read
  next => cases read
  next first tail =>
    split at read
    next => cases read
    next allowed =>
      split at read
      next extended =>
        split at read
        next => cases read
        next second _ =>
          cases read
          simp [parse, allowed, extended, size]
      next plain =>
        cases read
        simp [parse, allowed, plain, size]

/-- A payload behind its size is read from its own bytes, whatever follows them. -/
theorem parsePayload_take_append {bytes payload : Bytes} {count : Nat}
    (read : parsePayload bytes = .ok (payload, count)) (rest : Bytes)
    : parsePayload (bytes.take count ++ rest) = .ok (payload, count) := by
  obtain ⟨taken, behind, front, whole, rfl⟩ := parsePayload_ok read
  have own
      : bytes.take (taken + payload.length) ++ rest = bytes.take taken ++ (payload ++ rest) := by
    rw [List.take_add, whole, List.take_left, List.append_assoc]
  have size : (bytes.take taken).length = taken :=
    List.length_take_of_le (Leb128.count_of_read front).2
  have past : (bytes.take taken ++ (payload ++ rest)).drop taken = payload ++ rest :=
    List.drop_left' size
  rw [own, parsePayload, Leb128.read_take_append front]
  simp only [past, splitExact?_append]

/-- A unit with a size is read from its own bytes, whatever follows them. -/
theorem parse_take_append {bytes : Bytes} {obu : Obu} {count : Nat}
    (read : parse bytes = .ok (obu, count)) (sized : obu.header.hasSize = true) (rest : Bytes)
    : parse (bytes.take count ++ rest) = .ok (obu, count) := by
  obtain ⟨taken, behind, rfl⟩ := parsePayload_of_parse read sized
  have front := (parse_ok read).1
  have header := Header.size_le_of_parse front
  have own
      : bytes.take (obu.header.size + taken) ++ rest
        = bytes.take obu.header.size
          ++ ((bytes.drop obu.header.size).take taken ++ rest) := by
    rw [List.take_add, List.append_assoc]
  have past
      : (bytes.take obu.header.size
          ++ ((bytes.drop obu.header.size).take taken ++ rest)).drop obu.header.size
        = (bytes.drop obu.header.size).take taken ++ rest :=
    List.drop_left' (List.length_take_of_le header)
  rw [own, parse, Header.parse_take_append front]
  simp only [sized, if_true, past, parsePayload_take_append behind]

/-- A unit with a size, in its own bytes, is the first unit of a stream. -/
theorem split_take_append {bytes : Bytes} {obu : Obu} {count : Nat}
    (read : parse bytes = .ok (obu, count)) (sized : obu.header.hasSize = true) (rest : Bytes)
    : split (bytes.take count ++ rest) = (split rest).cons obu count := by
  obtain ⟨length, taken⟩ := take_of_parse read
  rw [split_of_parse (by simp [taken]) (parse_take_append read sized rest),
    List.drop_left' length]

/-- A stream of units with sizes is read in front of any other, and then the other is read. Witness:
induction on the reading, in which every unit is read from its own bytes.
-/
theorem split_append {front : Bytes} (whole : (split front).failure = none)
    (sized : ∀ obu ∈ (split front).values, obu.header.hasSize = true) (back : Bytes)
    : split (front ++ back)
      = ⟨(split front).items ++ (split back).items, (split back).failure⟩ := by
  revert whole sized
  refine readAll_induction parse (fun _ read => count_of_parse_pos read)
    (motive := fun bytes reading =>
      reading.failure = none
      → (∀ obu ∈ reading.values, obu.header.hasSize = true)
      → split (bytes ++ back)
        = ⟨reading.items ++ (split back).items, (split back).failure⟩)
    ?_ ?_ ?_ front
  · intro _ _
    rfl
  · intro _ _ _ _ fails
    cases fails
  · intro bytes obu count _ read later whole sized
    have first := split_take_append read (sized obu List.mem_cons_self) (bytes.drop count ++ back)
    rw [← List.append_assoc, List.take_append_drop] at first
    rw [first, later whole (fun next member => sized next (List.mem_cons_of_mem _ member))]
    rfl

/-- A stream that cannot be read to its end is one that can, of units with sizes, in front of bytes
that start with no unit. Witness: induction on the reading. A unit without a size would have taken
the bytes that are not read.
-/
theorem exists_whole_prefix {bytes : Bytes} {failure : Error}
    (fails : (split bytes).failure = some failure)
    : ∃ front back,
        bytes = front ++ back
        ∧ (split front).failure = none
        ∧ (split front).values = (split bytes).values
        ∧ (∀ obu ∈ (split front).values, obu.header.hasSize = true)
        ∧ back ≠ []
        ∧ parse back = .error failure := by
  revert fails
  refine readAll_induction parse (fun _ read => count_of_parse_pos read)
    (motive := fun bytes reading =>
      reading.failure = some failure
      → ∃ front back,
          bytes = front ++ back
          ∧ (split front).failure = none
          ∧ (split front).values = reading.values
          ∧ (∀ obu ∈ (split front).values, obu.header.hasSize = true)
          ∧ back ≠ []
          ∧ parse back = .error failure)
    ?_ ?_ ?_ bytes
  · intro fails
    cases fails
  · intro bytes cause present failed fails
    cases fails
    have nothing : split [] = ⟨[], none⟩ := readAll_nil parse
    refine ⟨[], bytes, rfl, ?_, ?_, ?_, present, failed⟩
    · rw [nothing]
    · rw [nothing]
      rfl
    · simp [nothing, Reading.values]
  · intro bytes obu count present read later fails
    obtain ⟨front, back, rest, whole, values, sized, remains, failed⟩ := later fails
    have first : obu.header.hasSize = true := by
      obtain ⟨_, ⟨sized, _⟩ | ⟨_, _, rfl⟩⟩ := parse_ok read
      · exact sized
      · rw [List.drop_length] at rest
        exact absurd (List.append_eq_nil_iff.mp rest.symm).2 remains
    have unit := split_take_append read first front
    refine ⟨bytes.take count ++ front, back, ?_, ?_, ?_, ?_, remains, failed⟩
    · rw [List.append_assoc, ← rest, List.take_append_drop]
    · rw [unit]
      exact whole
    · rw [unit]
      exact congrArg (obu :: ·) values
    · rw [unit]
      intro next member
      rcases List.mem_cons.mp member with same | member
      · exact same ▸ first
      · exact sized next member

end Av1Transport.Obu
