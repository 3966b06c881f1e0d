import Av1Transport.Proofs.Text.Parts
import Av1Transport.Sdp

/-! What the segments of a text do to format parameters.
Main statements: the first segment with a value that its key cannot take decides the failure;
without one, each parameter has the number of the last segment that names its key.
-/

namespace Av1Transport.Sdp

/-- A segment gives a key a value: the name of the key stands in front of its first equals sign and
the value behind it, both without the white space at their ends.
-/
def Gives (segment : List Char) (key : Key) (value : List Char) : Prop :=
  ∃ before after,
    segment = before ++ '=' :: after
    ∧ '=' ∉ before
    ∧ Text.trim before = key.name.toList
    ∧ Text.trim after = value

def Names (segment : List Char) (key : Key) : Prop :=
  ∃ value, Gives segment key value

/-- How many numbers have a meaning under a key, from zero on. -/
def Key.known : Key → Nat
  | .profile => 3
  | .level => 24
  | .tier => 2

def Key.unknown : Key → UInt8 → FormatError
  | .profile => .unknownProfile
  | .level => .unknownLevel
  | .tier => .unknownTier

/-- The number that a value stands for under a key. -/
def Key.number (key : Key) (value : List Char) : Except FormatError UInt8 :=
  match Text.octet value with
  | .error cause => .error (.invalidValue cause)
  | .ok index => if index.toNat < key.known then .ok index else .error (key.unknown index)

/-- A segment has a value that its key cannot take. -/
def Refused (segment : List Char) (failure : FormatError) : Prop :=
  ∃ key value, Gives segment key value ∧ key.number value = .error failure

-----------------------------------------------------------------------------------------
-- The setting of a segment
-----------------------------------------------------------------------------------------

/-- A key is found by its name alone. -/
theorem Key.ofName?_eq_some_iff {name : List Char} {key : Key}
    : Key.ofName? name = some key ↔ name = key.name.toList := by
  constructor
  · intro found
    have named := List.find?_some found
    exact (beq_iff_eq.mp named).symm
  · rintro rfl
    cases key <;> rfl

/-- The setting of a segment is what the segment gives. -/
theorem Setting.ofSegment?_eq_some_iff {segment : List Char} {setting : Setting}
    : Setting.ofSegment? segment = some setting ↔ Gives segment setting.key setting.value := by
  rw [Setting.ofSegment?]
  constructor
  · intro found
    split at found
    · cases found
    next before after parts =>
      obtain ⟨key, named, rfl⟩ := Option.map_eq_some_iff.mp found
      obtain ⟨joined, first⟩ := Text.splitAtFirst?_eq_some_iff.mp parts
      exact ⟨before, after, joined, first, Key.ofName?_eq_some_iff.mp named, rfl⟩
  · rintro ⟨before, after, joined, first, named, value⟩
    have parts := Text.splitAtFirst?_eq_some_iff.mpr ⟨joined, first⟩
    simp only [parts, Key.ofName?_eq_some_iff.mpr named, Option.map_some, value]

/-- A segment without a setting names no key. -/
theorem not_names_of_ofSegment?_eq_none {segment : List Char}
    (foreign : Setting.ofSegment? segment = none) (key : Key)
    : ¬ Names segment key := by
  rintro ⟨value, gives⟩
  have found : Setting.ofSegment? segment = some ⟨key, value⟩ :=
    Setting.ofSegment?_eq_some_iff.mpr gives
  rw [foreign] at found
  cases found

/-- A segment gives one value to one key. -/
theorem Gives.unique {segment : List Char} {key other : Key} {value text : List Char}
    (gives : Gives segment key value) (again : Gives segment other text)
    : key = other ∧ value = text := by
  have found : Setting.ofSegment? segment = some ⟨key, value⟩ :=
    Setting.ofSegment?_eq_some_iff.mpr gives
  have same : Setting.ofSegment? segment = some ⟨other, text⟩ :=
    Setting.ofSegment?_eq_some_iff.mpr again
  rw [found] at same
  cases same
  exact ⟨rfl, rfl⟩

theorem Refused.unique {segment : List Char} {failure other : FormatError}
    (refused : Refused segment failure) (again : Refused segment other)
    : failure = other := by
  obtain ⟨key, value, gives, read⟩ := refused
  obtain ⟨key, value, same, found⟩ := again
  obtain ⟨rfl, rfl⟩ := gives.unique same
  rw [read] at found
  cases found
  rfl

theorem Gives.not_refused {segment : List Char} {key : Key} {value : List Char} {index : UInt8}
    (gives : Gives segment key value) (read : key.number value = .ok index) (cause : FormatError)
    : ¬ Refused segment cause := by
  rintro ⟨other, text, again, failed⟩
  obtain ⟨rfl, rfl⟩ := gives.unique again
  rw [read] at failed
  cases failed

theorem not_refused_of_not_names {segment : List Char} (names : ∀ key, ¬ Names segment key)
    (cause : FormatError)
    : ¬ Refused segment cause := by
  rintro ⟨key, value, gives, _⟩
  exact names key ⟨value, gives⟩

-----------------------------------------------------------------------------------------
-- The first refused segment
-----------------------------------------------------------------------------------------

/-- The first segment that is refused is refused for this reason. -/
def FirstRefused (segments : List (List Char)) (failure : FormatError) : Prop :=
  ∃ front segment back,
    segments = front ++ segment :: back
    ∧ Refused segment failure
    ∧ ∀ earlier ∈ front, ∀ cause, ¬ Refused earlier cause

theorem not_firstRefused_nil {failure : FormatError} : ¬ FirstRefused [] failure := by
  rintro ⟨front, segment, back, parts, _⟩
  simp at parts

theorem firstRefused_cons_of_refused {segment : List Char} {rest : List (List Char)}
    {cause failure : FormatError} (refused : Refused segment cause)
    : FirstRefused (segment :: rest) failure ↔ cause = failure := by
  constructor
  · rintro ⟨front, first, back, parts, again, accepted⟩
    cases front with
    | nil =>
        cases parts
        exact refused.unique again
    | cons earlier front =>
        cases parts
        exact absurd refused (accepted _ List.mem_cons_self cause)
  · rintro rfl
    exact ⟨[], segment, rest, rfl, refused, by simp⟩

theorem firstRefused_cons_of_not_refused {segment : List Char} {rest : List (List Char)}
    {failure : FormatError} (accepted : ∀ cause, ¬ Refused segment cause)
    : FirstRefused (segment :: rest) failure ↔ FirstRefused rest failure := by
  constructor
  · rintro ⟨front, first, back, parts, refused, before⟩
    cases front with
    | nil =>
        cases parts
        exact absurd refused (accepted failure)
    | cons earlier front =>
        cases parts
        exact ⟨front, first, back, rfl, refused, (List.forall_mem_cons.mp before).2⟩
  · rintro ⟨front, first, back, rfl, refused, before⟩
    exact ⟨segment :: front, first, back, rfl, refused,
      List.forall_mem_cons.mpr ⟨accepted, before⟩⟩

/-- Some segment is refused just where there is a first one, by induction on the segments. -/
theorem exists_firstRefused_iff {segments : List (List Char)}
    : (∃ failure, FirstRefused segments failure)
      ↔ ∃ segment ∈ segments, ∃ cause, Refused segment cause := by
  constructor
  · rintro ⟨failure, front, segment, back, rfl, refused, _⟩
    exact ⟨segment, by simp, failure, refused⟩
  · rintro ⟨segment, member, cause, refused⟩
    induction segments with
    | nil => cases member
    | cons first rest ih =>
        by_cases here : ∃ failure, Refused first failure
        · obtain ⟨failure, refused⟩ := here
          exact ⟨failure, (firstRefused_cons_of_refused refused).mpr rfl⟩
        · rw [not_exists] at here
          rcases List.mem_cons.mp member with rfl | member
          · exact absurd refused (here cause)
          · obtain ⟨failure, later⟩ := ih member
            exact ⟨failure, (firstRefused_cons_of_not_refused here).mpr later⟩

-----------------------------------------------------------------------------------------
-- The last segment that names a key
-----------------------------------------------------------------------------------------

/-- A key has the number of the last segment that names it, or the one that it had before if no
segment does.
-/
inductive LastGiven (segments : List (List Char)) (key : Key) (start index : UInt8) : Prop
  | unnamed (names : ∀ segment ∈ segments, ¬ Names segment key) (same : index = start)
  | given (front : List (List Char)) {segment back value}
    (parts : segments = front ++ segment :: back) (gives : Gives segment key value)
    (read : key.number value = .ok index) (later : ∀ segment ∈ back, ¬ Names segment key)

theorem lastGiven_nil_iff {key : Key} {start index : UInt8}
    : LastGiven [] key start index ↔ index = start := by
  constructor
  · rintro (⟨-, same⟩ | ⟨front, parts, -, -, -⟩)
    · exact same
    · simp at parts
  · exact .unnamed (by simp)

theorem lastGiven_cons_of_gives {segment : List Char} {rest : List (List Char)} {key : Key}
    {value : List Char} {start given index : UInt8} (gives : Gives segment key value)
    (read : key.number value = .ok given)
    : LastGiven (segment :: rest) key start index ↔ LastGiven rest key given index := by
  constructor
  · rintro (⟨names, -⟩ | ⟨front, parts, again, found, later⟩)
    · exact absurd ⟨value, gives⟩ (names segment List.mem_cons_self)
    · cases front with
      | nil =>
          cases parts
          obtain ⟨-, rfl⟩ := gives.unique again
          rw [read] at found
          cases found
          exact .unnamed later rfl
      | cons first front =>
          cases parts
          exact .given front rfl again found later
  · rintro (⟨names, rfl⟩ | ⟨front, rfl, again, found, later⟩)
    · exact .given [] rfl gives read names
    · exact .given (segment :: front) rfl again found later

theorem lastGiven_cons_of_not_names {segment : List Char} {rest : List (List Char)} {key : Key}
    {start index : UInt8} (foreign : ¬ Names segment key)
    : LastGiven (segment :: rest) key start index ↔ LastGiven rest key start index := by
  constructor
  · rintro (⟨names, same⟩ | ⟨front, parts, gives, found, later⟩)
    · exact .unnamed (List.forall_mem_cons.mp names).2 same
    · cases front with
      | nil =>
          cases parts
          exact absurd ⟨_, gives⟩ foreign
      | cons first front =>
          cases parts
          exact .given front rfl gives found later
  · rintro (⟨names, same⟩ | ⟨front, rfl, gives, found, later⟩)
    · exact .unnamed (List.forall_mem_cons.mpr ⟨foreign, names⟩) same
    · exact .given (segment :: front) rfl gives found later

-----------------------------------------------------------------------------------------
-- One setting
-----------------------------------------------------------------------------------------

namespace FormatParameters

/-- The number that parameters have under a key. -/
def number (parameters : FormatParameters) : Key → UInt8
  | .profile => parameters.profile.index
  | .level => parameters.level.index
  | .tier => parameters.tier.index

/-- Parameters are told by their numbers, from which each of them is found. -/
theorem ext_number {parameters other : FormatParameters}
    (same : ∀ key, parameters.number key = other.number key)
    : parameters = other := by
  have profile := congrArg Profile.ofIndex? (same .profile)
  have level := congrArg Level.ofIndex? (same .level)
  have tier := congrArg Tier.ofIndex? (same .tier)
  simp only [number, Profile.ofIndex?_index, Level.ofIndex?_index, Tier.ofIndex?_index,
    Option.some.injEq] at profile level tier
  rcases parameters
  rcases other
  simp_all

theorem number_lt_known (parameters : FormatParameters) (key : Key)
    : (parameters.number key).toNat < key.known := by
  rw [← Nat.not_le]
  cases key with
  | profile => simp [Key.known, number, ← Profile.ofIndex?_eq_none_iff, Profile.ofIndex?_index]
  | level => simp [Key.known, number, ← Level.ofIndex?_eq_none_iff, Level.ofIndex?_index]
  | tier => simp [Key.known, number, ← Tier.ofIndex?_eq_none_iff, Tier.ofIndex?_index]

/-- The parameters changed to others that have the number under the key and are the same under all
others.
-/
structure ChangedTo (parameters : FormatParameters) (key : Key) (index : UInt8)
    (next : FormatParameters) : Prop where
  given : next.number key = index
  kept : ∀ other, other ≠ key → next.number other = parameters.number other

/-- A known number takes the place of the one that the key had, by cases on the key. -/
theorem assign_of_lt (parameters : FormatParameters) {key : Key} {index : UInt8}
    (known : index.toNat < key.known)
    : ∃ next, parameters.assign key index = .ok next ∧ parameters.ChangedTo key index next := by
  rw [← Nat.not_le] at known
  cases key with
  | profile =>
      cases found : Profile.ofIndex? index with
      | none => exact absurd (Profile.ofIndex?_eq_none_iff.mp found) known
      | some profile =>
          refine ⟨{ parameters with profile }, ?_, Profile.index_of_ofIndex? found, ?_⟩
          · rw [assign, found]
          · intro other differs
            cases other
            exacts [absurd rfl differs, rfl, rfl]
  | level =>
      cases found : Level.ofIndex? index with
      | none => exact absurd (Level.ofIndex?_eq_none_iff.mp found) known
      | some level =>
          refine ⟨{ parameters with level }, ?_, Level.index_of_ofIndex? found, ?_⟩
          · rw [assign, found]
          · intro other differs
            cases other
            exacts [rfl, absurd rfl differs, rfl]
  | tier =>
      cases found : Tier.ofIndex? index with
      | none => exact absurd (Tier.ofIndex?_eq_none_iff.mp found) known
      | some tier =>
          refine ⟨{ parameters with tier }, ?_, Tier.index_of_ofIndex? found, ?_⟩
          · rw [assign, found]
          · intro other differs
            cases other
            exacts [rfl, rfl, absurd rfl differs]

/-- Any other number is refused, by cases on the key. -/
theorem assign_of_le (parameters : FormatParameters) {key : Key} {index : UInt8}
    (unknown : key.known ≤ index.toNat)
    : parameters.assign key index = .error (key.unknown index) := by
  cases key with
  | profile => rw [assign, Profile.ofIndex?_eq_none_iff.mpr unknown, Key.unknown]
  | level => rw [assign, Level.ofIndex?_eq_none_iff.mpr unknown, Key.unknown]
  | tier => rw [assign, Tier.ofIndex?_eq_none_iff.mpr unknown, Key.unknown]

/-- A setting with a number that its key knows puts it in its place. -/
theorem apply_of_ok (parameters : FormatParameters) {setting : Setting} {index : UInt8}
    (given : setting.key.number setting.value = .ok index)
    : ∃ next,
        parameters.apply setting = .ok next
        ∧ parameters.ChangedTo setting.key index next := by
  rw [Key.number] at given
  split at given
  · cases given
  next read =>
    split at given
    next known =>
      cases given
      simp only [apply, read]
      exact parameters.assign_of_lt known
    next => cases given

/-- A setting with any other value fails with what its key has against the value. -/
theorem apply_of_error (parameters : FormatParameters) {setting : Setting} {failure : FormatError}
    (refused : setting.key.number setting.value = .error failure)
    : parameters.apply setting = .error failure := by
  rw [Key.number] at refused
  split at refused
  next read =>
    cases refused
    simp only [apply, read]
  next read =>
    split at refused
    next => cases refused
    next unknown =>
      cases refused
      simp only [apply, read]
      exact parameters.assign_of_le (Nat.not_lt.mp unknown)

-----------------------------------------------------------------------------------------
-- Segments one after another
-----------------------------------------------------------------------------------------

/-- The parameters after the settings of segments in order. -/
def applySegments (parameters : FormatParameters) (segments : List (List Char))
    : Except FormatError FormatParameters :=
  parameters.applyAll (segments.filterMap Setting.ofSegment?)

/-- What a segment does: it names no key and changes nothing, or it gives a key a number, or it is
refused.
-/
inductive SegmentStep (parameters : FormatParameters) (segment : List Char)
    (rest : List (List Char)) : Prop
  | foreign (names : ∀ key, ¬ Names segment key)
    (same : parameters.applySegments (segment :: rest) = parameters.applySegments rest)
  | given {key value index next} (gives : Gives segment key value)
    (read : key.number value = .ok index)
    (changed : parameters.ChangedTo key index next)
    (same : parameters.applySegments (segment :: rest) = next.applySegments rest)
  | refused {key value failure} (gives : Gives segment key value)
    (read : key.number value = .error failure)
    (same : parameters.applySegments (segment :: rest) = .error failure)

theorem segmentStep (parameters : FormatParameters) (segment : List Char)
    (rest : List (List Char))
    : parameters.SegmentStep segment rest := by
  cases found : Setting.ofSegment? segment with
  | none =>
      refine .foreign (not_names_of_ofSegment?_eq_none found) ?_
      rw [applySegments, List.filterMap_cons_none found, applySegments]
  | some setting =>
      have gives := Setting.ofSegment?_eq_some_iff.mp found
      cases read : setting.key.number setting.value with
      | error failure =>
          refine .refused gives read ?_
          rw [applySegments, List.filterMap_cons_some found, applyAll,
            parameters.apply_of_error read]
      | ok index =>
          obtain ⟨next, applied, changed⟩ := parameters.apply_of_ok read
          refine .given gives read changed ?_
          rw [applySegments, List.filterMap_cons_some found, applyAll, applied, applySegments]

/-- The first segment that is refused decides the failure. Witness: induction on the segments, of
which the accepted ones hand on other parameters.
-/
theorem applySegments_eq_error_iff {parameters : FormatParameters} {segments : List (List Char)}
    {failure : FormatError}
    : parameters.applySegments segments = .error failure ↔ FirstRefused segments failure := by
  induction segments generalizing parameters with
  | nil =>
      constructor
      · intro failed
        cases failed
      · intro first
        exact absurd first not_firstRefused_nil
  | cons segment rest ih =>
      cases parameters.segmentStep segment rest with
      | foreign names same =>
          have accepted := not_refused_of_not_names names
          rw [same, ih, firstRefused_cons_of_not_refused accepted]
      | given gives read changed same =>
          have accepted := gives.not_refused read
          rw [same, ih, firstRefused_cons_of_not_refused accepted]
      | refused gives read same =>
          rw [same, firstRefused_cons_of_refused ⟨_, _, gives, read⟩, Except.error.injEq]

/-- Segments of which none is refused leave each parameter with the number that it is given last.
Witness: induction on the segments.
-/
theorem applySegments_eq_ok_iff {parameters result : FormatParameters}
    {segments : List (List Char)}
    : parameters.applySegments segments = .ok result
      ↔ (∀ segment ∈ segments, ∀ cause, ¬ Refused segment cause)
        ∧ ∀ key, LastGiven segments key (parameters.number key) (result.number key) := by
  induction segments generalizing parameters with
  | nil =>
      simp only [lastGiven_nil_iff, List.not_mem_nil, false_implies, implies_true, true_and]
      constructor
      · rintro ⟨⟩ key
        rfl
      · intro same
        rw [ext_number same]
        rfl
  | cons segment rest ih =>
      rw [List.forall_mem_cons]
      cases parameters.segmentStep segment rest with
      | foreign names same =>
          have accepted := not_refused_of_not_names names
          simp only [same, ih, lastGiven_cons_of_not_names (names _), accepted,
            not_false_eq_true, implies_true, true_and]
      | @given key value index next gives read changed same =>
          have accepted := gives.not_refused read
          have last (other : Key)
              : LastGiven (segment :: rest) other (parameters.number other) (result.number other)
                ↔ LastGiven rest other (next.number other) (result.number other) := by
            by_cases here : other = key
            · rw [here, lastGiven_cons_of_gives gives read, changed.given]
            · have elsewhere : ¬ Names segment other := by
                rintro ⟨text, again⟩
                exact here (gives.unique again).1.symm
              rw [lastGiven_cons_of_not_names elsewhere, changed.kept other here]
          simp only [same, ih, last, accepted, not_false_eq_true, implies_true, true_and]
      | refused gives read same =>
          constructor
          · intro accepted
            rw [same] at accepted
            cases accepted
          · rintro ⟨⟨accepted, _⟩, _⟩
            exact absurd ⟨_, _, gives, read⟩ (accepted _)

end FormatParameters

end Av1Transport.Sdp
