import Av1Transport.Bytes

/-! Readings whose items are known one by one.
Main statements: a reading is described from its first item on, items written back to back are read
back in front of whatever follows them, and asking again and again gives the values that a reading
finds, then its failure, if there is one, and nothing behind it.
-/

namespace Av1Transport

variable {α β ε : Type}

/-- A property of readings holds of all of them if it holds of the empty one, of a failing first
item, and of a first item in front of a reading that has it. Witness: induction on the number
of bytes, which every item makes smaller.
-/
theorem readAll_induction (item : Bytes → Except ε (α × Nat))
    (positive
      : ∀ {bytes value count}, bytes ≠ [] → item bytes = .ok (value, count) → 0 < count)
    {motive : Bytes → Reading α ε → Prop}
    (nil : motive [] ⟨[], none⟩)
    (failed
      : ∀ {bytes failure},
          bytes ≠ [] → item bytes = .error failure → motive bytes ⟨[], some failure⟩)
    (read
      : ∀ {bytes value count},
          bytes ≠ []
          → item bytes = .ok (value, count)
          → motive (bytes.drop count) (readAll item (bytes.drop count))
          → motive bytes ((readAll item (bytes.drop count)).cons value count))
    (bytes : Bytes)
    : motive bytes (readAll item bytes) := by
  generalize size : bytes.length = length
  induction length using Nat.strongRecOn generalizing bytes with
  | ind length ih =>
      by_cases nonempty : bytes = []
      · subst nonempty
        simpa using nil
      · cases first : item bytes with
        | error failure =>
            rw [readAll_error nonempty first]
            exact failed nonempty first
        | ok pair =>
            obtain ⟨value, count⟩ := pair
            have taken := positive nonempty first
            have present := List.length_pos_iff.mpr nonempty
            rw [readAll_ok nonempty taken first]
            refine read nonempty first (ih _ ?_ _ rfl)
            simp only [List.length_drop]
            omega

/-- Every value of a reading was read off the front of what was left of the bytes, by induction on
the reading.
-/
theorem exists_item_of_mem_values {item : Bytes → Except ε (α × Nat)}
    (positive
      : ∀ {bytes value count}, bytes ≠ [] → item bytes = .ok (value, count) → 0 < count)
    {bytes : Bytes} {value : α} (member : value ∈ (readAll item bytes).values)
    : ∃ left count, left <:+ bytes ∧ item left = .ok (value, count) := by
  revert member
  refine readAll_induction item positive
    (motive := fun bytes reading =>
      value ∈ reading.values → ∃ left count, left <:+ bytes ∧ item left = .ok (value, count))
    ?_ ?_ ?_ bytes
  · simp [Reading.values]
  · simp [Reading.values]
  · intro bytes first count _ read later member
    rcases List.mem_cons.mp member with same | member
    · exact ⟨bytes, count, List.suffix_refl bytes, same ▸ read⟩
    · obtain ⟨left, taken, behind, found⟩ := later member
      exact ⟨left, taken, behind.trans (List.drop_suffix count bytes), found⟩

/-- Items written back to back are read in order, each taking the bytes it was written in, and
then what follows them is read. Witness: induction on the items.
-/
theorem readAll_flatMap (item : Bytes → Except ε (α × Nat)) (value : β → α)
    {encode : β → Bytes} {inputs : List β} (rest : Bytes)
    (nonempty : ∀ input ∈ inputs, encode input ≠ [])
    (read
      : ∀ input ∈ inputs,
          ∀ back, item (encode input ++ back) = .ok (value input, (encode input).length))
    : readAll item (inputs.flatMap encode ++ rest)
      = ⟨inputs.map (fun input => (value input, (encode input).length))
          ++ (readAll item rest).items,
        (readAll item rest).failure⟩ := by
  induction inputs with
  | nil => rfl
  | cons input inputs ih =>
      have present := nonempty input (by simp)
      have tail := ih (fun next member => nonempty next (by simp [member]))
        (fun next member => read next (by simp [member]))
      have first := read input (by simp) (inputs.flatMap encode ++ rest)
      rw [List.flatMap_cons, List.append_assoc,
        readAll_ok (by simp [present]) (List.length_pos_iff.mpr present) first, List.drop_left,
        tail]
      simp [Reading.cons]

-----------------------------------------------------------------------------------------
-- Asking for one item after another
-----------------------------------------------------------------------------------------

variable {σ ι : Type}

/-- Asking again and again gives these items, one after another, and then nothing for good. -/
inductive Enumerates (next : σ → Option ι × σ) : σ → List ι → Prop
  | ended {state left} (finished : next state = (none, left)) (forGood : next left = (none, left))
    : Enumerates next state []
  | given {state left item items} (first : next state = (some item, left))
    (later : Enumerates next left items)
    : Enumerates next state (item :: items)

/-- Values and the failure that ends them, if there is one. -/
def outcomes (values : List α) (failure : Option ε) : List (Except ε α) :=
  values.map .ok ++ failure.toList.map .error

/-- States in which the same comes next are followed by the same items. -/
theorem Enumerates.of_next_eq {next : σ → Option ι × σ} {state other : σ} {items : List ι}
    (same : next state = next other) (asked : Enumerates next other items)
    : Enumerates next state items := by
  cases asked with
  | ended finished forGood => exact .ended (same.trans finished) forGood
  | given first later => exact .given (same.trans first) later

/-- Whoever passes over the values in which nothing is found is given what is found in the others,
and a failure last. Witness: induction on the reading.
-/
theorem enumerates_readAll (item : Bytes → Except ε (α × Nat)) (found : α → Option β)
    {next : Bytes → Option (Except ε β) × Bytes}
    (positive
      : ∀ {bytes value count}, bytes ≠ [] → item bytes = .ok (value, count) → 0 < count)
    (ended : next [] = (none, []))
    (failed
      : ∀ {bytes failure},
          bytes ≠ []
          → item bytes = .error failure
          → next bytes = (some (.error failure), []))
    (given
      : ∀ {bytes value count result},
          bytes ≠ []
          → item bytes = .ok (value, count)
          → found value = some result
          → next bytes = (some (.ok result), bytes.drop count))
    (skipped
      : ∀ {bytes value count},
          bytes ≠ []
          → item bytes = .ok (value, count)
          → found value = none
          → next bytes = next (bytes.drop count))
    (bytes : Bytes)
    : Enumerates next bytes
        (outcomes ((readAll item bytes).values.filterMap found) (readAll item bytes).failure) := by
  refine readAll_induction item positive
    (motive := fun bytes reading =>
      Enumerates next bytes (outcomes (reading.values.filterMap found) reading.failure))
    ?nil ?failure ?value bytes
  case nil => exact .ended ended ended
  case failure =>
    intro bytes failure present read
    exact .given (failed present read) (.ended ended ended)
  case value =>
    intro bytes value count present read later
    show Enumerates next bytes
      (outcomes ((value :: (readAll item (bytes.drop count)).values).filterMap found) _)
    cases kind : found value with
    | none =>
        rw [List.filterMap_cons_none kind]
        exact .of_next_eq (skipped present read kind) later
    | some result =>
        rw [List.filterMap_cons_some kind]
        exact .given (given present read kind) later

end Av1Transport
