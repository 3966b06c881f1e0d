import Av1Transport.Proofs.Bytes.ItemReadings
import Av1Transport.Proofs.Rtp.ExtensionRegions

/-! Extension regions with zeros anywhere between their elements.
Main statement: the elements are found in order and the zeros are passed over, whichever bytes the
payloads have; a region that is cut inside an element gives the elements in front of it and fails.
-/

namespace Av1Transport.Rtp

namespace ExtensionProfile

-----------------------------------------------------------------------------------------
-- Elements one after another
-----------------------------------------------------------------------------------------

/-- What comes next is at the front of the region or behind what is passed over there, by cases on
the layout and on the first byte.
-/
theorem next_eq (profile : ExtensionProfile) {bytes : Bytes} (present : bytes ≠ [])
    : profile.next bytes
      = match profile.readItem bytes with
        | .error failure => (some (.error failure), [])
        | .ok (some extension, count) => (some (.ok extension), bytes.drop count)
        | .ok (none, count) => profile.next (bytes.drop count) := by
  obtain ⟨first, rest, rfl⟩ := List.exists_cons_of_ne_nil present
  cases profile with
  | oneByte =>
      rw [next, nextOneByte, readItem, readOneByte]
      by_cases zero : first = 0
      · simp [zero, next]
      · rw [if_neg zero, if_neg zero]
        by_cases last : first.toNat / 16 = 15
        · simp [last, next, nextOneByte, Nat.add_comm 1]
        · rw [if_neg last, if_neg last, splitExact?_eq]
          by_cases enough : first.toNat % 16 + 1 ≤ rest.length <;> simp [enough]
  | twoByte =>
      rw [next, nextTwoByte.eq_def, readItem, readTwoByte.eq_def]
      by_cases zero : first = 0
      · simp [zero, next]
      · simp only [if_neg zero]
        cases rest with
        | nil => rfl
        | cons length rest =>
            simp only [splitExact?_eq]
            by_cases enough : length.toNat ≤ rest.length <;> simp [enough]
  | raw code => simp [next, readItem]

end ExtensionProfile

namespace ExtensionRegion

open ExtensionProfile

/-- A region gives these elements and then this failure, if there is one, when it is read as a
whole and when it is asked for one element after another.
-/
structure ScannedAs (profile : ExtensionProfile) (bytes : Bytes) (elements : List Extension)
    (failure : Option Error) : Prop where
  read : ExtensionRegion.read profile bytes = ⟨elements, failure⟩
  asked : Enumerates profile.next bytes (outcomes elements failure)

/-- Asking for one element after another gives what reading the region finds. -/
theorem scannedAs_read (profile : ExtensionProfile) (bytes : Bytes)
    : ScannedAs profile bytes (read profile bytes).elements (read profile bytes).failure where
  read := rfl
  asked := by
    refine enumerates_readAll profile.readItem id readItem_pos ?ended ?failed ?given ?skipped bytes
    case ended => cases profile <;> rfl
    case failed =>
      intro bytes failure present read
      rw [profile.next_eq present, read]
    case given =>
      intro bytes value count result present read found
      rw [profile.next_eq present, read, show value = some result from found]
    case skipped =>
      intro bytes value count present read found
      rw [profile.next_eq present, read, show value = none from found]

theorem scannedAs_of_read {profile : ExtensionProfile} {bytes : Bytes} {elements : List Extension}
    {failure : Option Error} (same : read profile bytes = ⟨elements, failure⟩)
    : ScannedAs profile bytes elements failure := by
  have scanned := scannedAs_read profile bytes
  rwa [same] at scanned

-----------------------------------------------------------------------------------------
-- The end of the elements
-----------------------------------------------------------------------------------------

/-- Nothing more to be read: no bytes, or in the one-byte layout the id 15 and whatever is behind
it.
-/
def EndsElements (profile : ExtensionProfile) (bytes : Bytes) : Prop :=
  bytes = [] ∨ profile = oneByte ∧ ∃ stop ∈ bytes.head?, stop.toNat / 16 = 15

instance (profile : ExtensionProfile) (bytes : Bytes) : Decidable (EndsElements profile bytes) :=
  inferInstanceAs (Decidable (_ ∨ _ ∧ _))

theorem read_of_endsElements {profile : ExtensionProfile} {bytes : Bytes}
    (ends : EndsElements profile bytes)
    : read profile bytes = ⟨[], none⟩ := by
  rcases ends with rfl | ⟨rfl, stop, front, last⟩
  · exact read_nil profile
  · obtain ⟨rest, rfl⟩ := List.head?_eq_some_iff.mp front
    have nonzero : stop ≠ 0 := by
      rintro rfl
      exact absurd last (by decide)
    have all : oneByte.readItem (stop :: rest) = .ok (none, (stop :: rest).length) := by
      simp only [readItem, readOneByte, if_neg nonzero, if_pos last, List.length_cons,
        Nat.add_comm 1]
    have single := readAll_ok (List.cons_ne_nil stop rest) (Nat.succ_pos _) all
    simp [read, single, Reading.cons, Reading.values]

-----------------------------------------------------------------------------------------
-- An element that is cut
-----------------------------------------------------------------------------------------

/-- Of an element that is begun and not complete nothing is read. Witness: its payload is shorter
than its first bytes tell, or its length is missing.
-/
theorem readItem_take_elementBytes {profile : ExtensionProfile}
    (small : profile = oneByte ∨ profile = twoByte) {extension : Extension}
    (accepted : profile.accepts extension.id extension.payload.length = true) {kept : Nat}
    (begun : 0 < kept) (incomplete : kept < (profile.elementBytes extension).length)
    : profile.readItem ((profile.elementBytes extension).take kept) = .error .shortExtension := by
  have short {count : Nat} (fewer : count < extension.payload.length)
      : splitExact? extension.payload.length (extension.payload.take count) = none := by
    rw [splitExact?_eq, if_neg]
    rw [List.length_take]
    omega
  obtain ⟨behind, rfl⟩ : ∃ behind, kept = behind + 1 := ⟨kept - 1, by omega⟩
  rcases small with rfl | rfl
  · obtain ⟨first, written, nonzero, notEnd, -, length⟩ := exists_first accepted
    rw [written, List.length_cons] at incomplete
    rw [written, List.take_succ_cons]
    simp only [readItem, readOneByte, if_neg nonzero, if_neg notEnd, length,
      short (Nat.lt_of_succ_lt_succ incomplete)]
  · obtain ⟨length, written, nonzero, same⟩ := exists_lengthByte accepted
    rw [written, List.length_cons, List.length_cons] at incomplete
    rw [written, List.take_succ_cons]
    cases behind with
    | zero => simp only [readItem, List.take_zero, readTwoByte, if_neg nonzero]
    | succ count =>
        rw [List.take_succ_cons]
        simp only [readItem, readTwoByte, if_neg nonzero, same,
          short (show count < extension.payload.length by omega)]

theorem read_take_elementBytes {profile : ExtensionProfile}
    (small : profile = oneByte ∨ profile = twoByte) {extension : Extension}
    (accepted : profile.accepts extension.id extension.payload.length = true) {kept : Nat}
    (begun : 0 < kept) (incomplete : kept < (profile.elementBytes extension).length)
    : read profile ((profile.elementBytes extension).take kept)
      = ⟨[], some .shortExtension⟩ := by
  have failed := readItem_take_elementBytes small accepted begun incomplete
  have present : (profile.elementBytes extension).take kept ≠ [] := by
    refine List.ne_nil_of_length_pos ?_
    rw [List.length_take]
    omega
  simp [read, readAll_error present failed, Reading.values]

-----------------------------------------------------------------------------------------
-- Whole regions
-----------------------------------------------------------------------------------------

/-- In the layouts of small elements, elements and zeros in any order give the elements, whatever
ends them. A cut inside an element leaves those in front of it and a failure.
-/
theorem scannedAs_padded {code : UInt16} (small : code = 0xBEDE ∨ code = 0x1000)
    {items : List (Option Extension)} {ending : Bytes}
    (accepted
      : ∀ extension ∈ items.filterMap id,
          (ofCode code).accepts extension.id extension.payload.length = true)
    (ends : EndsElements (ofCode code) ending)
    : ScannedAs (ofCode code) (items.flatMap (ofCode code).itemBytes ++ ending)
        (items.filterMap id) none
      ∧ ∀ (front back : List (Option Extension)) (extension : Extension) (kept : Nat),
          items = front ++ some extension :: back
          → 0 < kept
          → kept < ((ofCode code).elementBytes extension).length
          → ScannedAs (ofCode code)
              ((items.flatMap (ofCode code).itemBytes ++ ending).take
                ((front.flatMap (ofCode code).itemBytes).length + kept))
              (front.filterMap id) (some .shortExtension) := by
  have layout : ofCode code = oneByte ∨ ofCode code = twoByte := by
    rcases small with rfl | rfl
    · exact .inl rfl
    · exact .inr rfl
  generalize ofCode code = profile at *
  refine ⟨scannedAs_of_read ?whole, ?cut⟩
  case whole => rw [read_items layout accepted, read_of_endsElements ends, List.append_nil]
  case cut =>
    intro front back extension kept parts begun incomplete
    have valid : profile.accepts extension.id extension.payload.length = true :=
      accepted extension (by simp [parts])
    have earlier
        : ∀ other ∈ front.filterMap id,
            profile.accepts other.id other.payload.length = true := by
      intro other member
      rw [parts, List.filterMap_append] at accepted
      exact accepted other (List.mem_append_left _ member)
    have left
        : (items.flatMap profile.itemBytes ++ ending).take
            ((front.flatMap profile.itemBytes).length + kept)
          = front.flatMap profile.itemBytes ++ (profile.elementBytes extension).take kept := by
      rw [parts, List.flatMap_append, List.flatMap_cons, List.append_assoc, List.append_assoc,
        List.take_length_add_append, itemBytes]
      rw [List.take_append_of_le_length (Nat.le_of_lt incomplete)]
    refine scannedAs_of_read ?_
    rw [left, read_items layout earlier, read_take_elementBytes layout valid begun incomplete,
      List.append_nil]

/-- Zeros are passed over between the elements and kept inside their payloads, where a byte like
that of the id 15 ends nothing. With one byte less of the second element only the first one is
given.
-/
theorem scannedAs_padded_zeros
    : ScannedAs oneByte [0, 0x11, 0, 0xF0, 0, 0, 0xE1, 0xF0, 0, 0, 0xF7, 0x21]
        [⟨1, [0, 0xF0]⟩, ⟨14, [0xF0, 0]⟩] none
      ∧ ScannedAs oneByte [0, 0x11, 0, 0xF0, 0, 0, 0xE1, 0xF0]
          [⟨1, [0, 0xF0]⟩] (some .shortExtension) := by
  have padded := @scannedAs_padded 0xBEDE (.inl rfl)
    [none, some ⟨1, [0, 0xF0]⟩, none, none, some ⟨14, [0xF0, 0]⟩, none] [0xF7, 0x21]
    (by decide) (by decide)
  exact ⟨padded.1,
    padded.2 [none, some ⟨1, [0, 0xF0]⟩, none, none] [none] ⟨14, [0xF0, 0]⟩ 2 rfl
      (by decide) (by decide)⟩

end ExtensionRegion

end Av1Transport.Rtp
