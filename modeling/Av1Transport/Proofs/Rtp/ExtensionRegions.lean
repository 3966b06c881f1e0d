import Av1Transport.Proofs.Bytes.ItemReadings
import Av1Transport.Rtp.Header

/-! The region of a header's extensions, written and read.
Main statements: the elements of a region are read back, whatever zeros fill it up; the elements
that are found in a region can be put into it again, except those with the id of padding.
-/

namespace Av1Transport.Rtp

namespace ExtensionProfile

-----------------------------------------------------------------------------------------
-- One element or one byte of padding
-----------------------------------------------------------------------------------------

/-- An element as it is written, or a byte of padding. -/
def itemBytes (profile : ExtensionProfile) : Option Extension → Bytes
  | some extension => profile.elementBytes extension
  | none => [0]

/-- The first byte of an element in the one-byte layout tells its id and its length. It is neither
zero nor that of the id 15.
-/
theorem exists_first {extension : Extension}
    (accepted : oneByte.accepts extension.id extension.payload.length = true)
    : ∃ first,
        oneByte.elementBytes extension = first :: extension.payload
        ∧ first ≠ 0
        ∧ first.toNat / 16 ≠ 15
        ∧ UInt8.ofNat (first.toNat / 16) = extension.id
        ∧ first.toNat % 16 + 1 = extension.payload.length := by
  simp only [accepts, Bool.and_eq_true, decide_eq_true_eq] at accepted
  obtain ⟨⟨⟨positive, small⟩, present⟩, short⟩ := accepted
  have first
      : (UInt8.ofNat (extension.id.toNat * 16 + (extension.payload.length - 1) % 16)).toNat
        = extension.id.toNat * 16 + (extension.payload.length - 1) := by
    simp only [UInt8.toNat_ofNat']
    omega
  have high
      : (extension.id.toNat * 16 + (extension.payload.length - 1)) / 16 = extension.id.toNat := by
    omega
  refine ⟨_, rfl, ?_, ?_, ?_, ?_⟩
  · rw [ne_eq, ← UInt8.toNat_inj, first, UInt8.toNat_zero]
    omega
  · rw [first, high]
    omega
  · rw [first, high, UInt8.ofNat_toNat]
  · rw [first]
    omega

/-- The first two bytes of an element in the two-byte layout are its id and its length. -/
theorem exists_lengthByte {extension : Extension}
    (accepted : twoByte.accepts extension.id extension.payload.length = true)
    : ∃ length,
        twoByte.elementBytes extension = extension.id :: length :: extension.payload
        ∧ extension.id ≠ 0
        ∧ length.toNat = extension.payload.length := by
  simp only [accepts, Bool.and_eq_true, decide_eq_true_eq] at accepted
  obtain ⟨positive, short⟩ := accepted
  refine ⟨_, rfl, ?_, ?_⟩
  · rw [ne_eq, ← UInt8.toNat_inj, UInt8.toNat_zero]
    omega
  · simp only [UInt8.toNat_ofNat']
    omega

/-- An element in the one-byte layout is read back, whatever follows it. -/
theorem readOneByte_elementBytes {extension : Extension}
    (accepted : oneByte.accepts extension.id extension.payload.length = true) (rest : Bytes)
    : readOneByte (oneByte.elementBytes extension ++ rest)
      = .ok (some extension, (oneByte.elementBytes extension).length) := by
  obtain ⟨first, written, nonzero, notEnd, id, length⟩ := exists_first accepted
  rw [written, List.cons_append, readOneByte, if_neg nonzero, if_neg notEnd, length,
    splitExact?_append]
  simp only [id, List.length_cons, Except.ok.injEq, Prod.mk.injEq, true_and]
  omega

theorem readTwoByte_elementBytes {extension : Extension}
    (accepted : twoByte.accepts extension.id extension.payload.length = true) (rest : Bytes)
    : readTwoByte (twoByte.elementBytes extension ++ rest)
      = .ok (some extension, (twoByte.elementBytes extension).length) := by
  obtain ⟨length, written, nonzero, same⟩ := exists_lengthByte accepted
  rw [written, List.cons_append, List.cons_append, readTwoByte, if_neg nonzero]
  simp only [same, splitExact?_append, List.length_cons]

/-- The layouts of small elements pass over a zero between them. -/
theorem readItem_zero {profile : ExtensionProfile}
    (small : profile = oneByte ∨ profile = twoByte) (rest : Bytes)
    : profile.readItem (0 :: rest) = .ok (none, 1) := by
  rcases small with rfl | rfl <;> simp [readItem, readOneByte, readTwoByte]

theorem readItem_itemBytes {profile : ExtensionProfile}
    (small : profile = oneByte ∨ profile = twoByte) {item : Option Extension}
    (accepted
      : ∀ extension ∈ item, profile.accepts extension.id extension.payload.length = true)
    (rest : Bytes)
    : profile.readItem (profile.itemBytes item ++ rest)
      = .ok (item, (profile.itemBytes item).length) := by
  cases item with
  | none => exact readItem_zero small rest
  | some extension =>
      have valid := accepted extension rfl
      rcases small with rfl | rfl
      · exact readOneByte_elementBytes valid rest
      · exact readTwoByte_elementBytes valid rest

theorem itemBytes_ne_nil {profile : ExtensionProfile}
    (small : profile = oneByte ∨ profile = twoByte) (item : Option Extension)
    : profile.itemBytes item ≠ [] := by
  cases item with
  | none => simp [itemBytes]
  | some extension => rcases small with rfl | rfl <;> simp [itemBytes, elementBytes]

-----------------------------------------------------------------------------------------
-- What was read off the front of a region
-----------------------------------------------------------------------------------------

theorem readOneByte_some {bytes : Bytes} {extension : Extension} {count : Nat}
    (read : readOneByte bytes = .ok (some extension, count))
    : (oneByte.accepts extension.id extension.payload.length = true ∨ extension.id = 0)
      ∧ oneByte.elementLength extension.payload.length = count
      ∧ count ≤ bytes.length := by
  unfold readOneByte at read
  split at read
  next => cases read
  next first rest =>
    split at read
    next => cases read
    next =>
      split at read
      next => cases read
      next notEnd =>
        split at read
        next => cases read
        next payload behind cut =>
          obtain ⟨front, taken⟩ := eq_append_of_splitExact? cut
          cases read
          have high : (UInt8.ofNat (first.toNat / 16)).toNat = first.toNat / 16 := by
            have := first.toNat_lt
            simp only [UInt8.toNat_ofNat']
            omega
          have below := first.toNat_lt
          refine ⟨?_, ?_, ?_⟩
          · rcases Nat.eq_zero_or_pos (first.toNat / 16) with zero | positive
            · exact .inr (by simp [zero])
            · refine .inl ?_
              simp only [accepts, high, Bool.and_eq_true, decide_eq_true_eq]
              omega
          · simp only [elementLength]
            omega
          · simp only [front, List.length_cons, List.length_append]
            omega

theorem readTwoByte_some {bytes : Bytes} {extension : Extension} {count : Nat}
    (read : readTwoByte bytes = .ok (some extension, count))
    : twoByte.accepts extension.id extension.payload.length = true
      ∧ twoByte.elementLength extension.payload.length = count
      ∧ count ≤ bytes.length := by
  unfold readTwoByte at read
  split at read
  next => cases read
  next id rest =>
    split at read
    next => cases read
    next nonzero =>
      split at read
      next => cases read
      next length rest =>
        split at read
        next => cases read
        next payload behind cut =>
          obtain ⟨front, taken⟩ := eq_append_of_splitExact? cut
          cases read
          have below := length.toNat_lt
          have positive : id.toNat ≠ 0 := fun zero => nonzero (UInt8.toNat_inj.mp zero)
          refine ⟨?_, ?_, ?_⟩
          · simp only [accepts, Bool.and_eq_true, decide_eq_true_eq]
            omega
          · simp only [elementLength]
            omega
          · simp only [front, List.length_cons, List.length_append]
            omega

/-- An element that was read can be written again, except one with the id of padding in the
one-byte layout. Its length is what was taken off the front.
-/
theorem readItem_some {profile : ExtensionProfile} {bytes : Bytes} {extension : Extension}
    {count : Nat} (fits : bytes.length ≤ 65535 * 4)
    (read : profile.readItem bytes = .ok (some extension, count))
    : (profile.accepts extension.id extension.payload.length = true
        ∨ profile = oneByte ∧ extension.id = 0)
      ∧ profile.elementLength extension.payload.length = count
      ∧ count ≤ bytes.length := by
  cases profile with
  | oneByte =>
      obtain ⟨accepted | padding, taken⟩ := readOneByte_some read
      · exact ⟨.inl accepted, taken⟩
      · exact ⟨.inr ⟨rfl, padding⟩, taken⟩
  | twoByte =>
      obtain ⟨accepted, taken⟩ := readTwoByte_some read
      exact ⟨.inl accepted, taken⟩
  | raw code =>
      cases read
      exact ⟨.inl (by simpa [accepts] using fits), rfl, Nat.le_refl _⟩

theorem readItem_pos {profile : ExtensionProfile} {bytes : Bytes} {item : Option Extension}
    {count : Nat} (nonempty : bytes ≠ []) (read : profile.readItem bytes = .ok (item, count))
    : 0 < count := by
  have present := List.length_pos_iff.mpr nonempty
  cases item with
  | some extension =>
      cases profile with
      | oneByte =>
          obtain ⟨-, taken, -⟩ := readOneByte_some read
          simp only [elementLength] at taken
          omega
      | twoByte =>
          obtain ⟨-, taken, -⟩ := readTwoByte_some read
          simp only [elementLength] at taken
          omega
      | raw code =>
          cases read
          exact present
  | none =>
      cases profile with
      | oneByte =>
          simp only [readItem, readOneByte] at read
          grind
      | twoByte =>
          simp only [readItem, readTwoByte] at read
          grind
      | raw code => cases read

end ExtensionProfile

-----------------------------------------------------------------------------------------
-- Regions that were written
-----------------------------------------------------------------------------------------

namespace ExtensionRegion

open ExtensionProfile

/-- Small elements with padding anywhere between them are read back without the padding, and then
what follows them is read.
-/
theorem read_items {profile : ExtensionProfile}
    (small : profile = oneByte ∨ profile = twoByte) {items : List (Option Extension)}
    (accepted
      : ∀ extension ∈ items.filterMap id,
          profile.accepts extension.id extension.payload.length = true)
    (rest : Bytes)
    : read profile (items.flatMap profile.itemBytes ++ rest)
      = ⟨items.filterMap id ++ (read profile rest).elements, (read profile rest).failure⟩ := by
  have reading := readAll_flatMap profile.readItem id rest
    (fun item (_ : item ∈ items) => itemBytes_ne_nil small item)
    (fun item member => readItem_itemBytes small (fun extension found =>
      accepted extension (List.mem_filterMap.mpr ⟨item, member, found⟩)))
  simp [read, reading, Reading.values, Function.comp_def]

/-- No elements are found in no bytes. -/
@[simp]
theorem read_nil (profile : ExtensionProfile) : read profile [] = ⟨[], none⟩ := by
  simp [read, Reading.values]

/-- Small elements are read back in front of the zeros that fill the region up. -/
theorem read_elements {profile : ExtensionProfile}
    (small : profile = oneByte ∨ profile = twoByte) {elements : List Extension}
    (accepted
      : ∀ extension ∈ elements,
          profile.accepts extension.id extension.payload.length = true)
    (zeros : Nat)
    : read profile (elements.flatMap profile.elementBytes ++ List.replicate zeros 0)
      = ⟨elements, none⟩ := by
  have found : (elements.map some ++ List.replicate zeros none).filterMap id = elements := by
    simp [List.filterMap_append, List.filterMap_replicate_of_none]
  have items := read_items small (found.symm ▸ accepted) []
  rw [found, List.flatMap_append, List.flatMap_map] at items
  simpa [itemBytes, List.flatMap_replicate] using items

theorem read_raw (code : UInt16) (bytes : Bytes)
    : read (raw code) bytes = ⟨if bytes = [] then [] else [⟨0, bytes⟩], none⟩ := by
  by_cases empty : bytes = []
  · simp [empty]
  · have single := readAll_ok empty (List.length_pos_iff.mpr empty)
      (show (raw code).readItem bytes = .ok (some ⟨0, bytes⟩, bytes.length) from rfl)
    simp [empty, read, single, Reading.cons, Reading.values]

-----------------------------------------------------------------------------------------
-- Regions that were read
-----------------------------------------------------------------------------------------

/-- The elements that are found in a region can be written again, except those with the id of
padding in the one-byte layout, and they fit the region. Witness: induction on the reading.
-/
theorem read_bounds (profile : ExtensionProfile) {bytes : Bytes}
    (fits : bytes.length ≤ 65535 * 4)
    : (∀ extension ∈ (read profile bytes).elements,
          profile.accepts extension.id extension.payload.length = true
          ∨ profile = oneByte ∧ extension.id = 0)
      ∧ profile.elementsLength (read profile bytes).elements ≤ bytes.length := by
  revert fits
  refine readAll_induction profile.readItem readItem_pos
    (motive := fun bytes reading =>
      bytes.length ≤ 65535 * 4
      → (∀ extension ∈ reading.values.filterMap id,
            profile.accepts extension.id extension.payload.length = true
            ∨ profile = oneByte ∧ extension.id = 0)
        ∧ profile.elementsLength (reading.values.filterMap id) ≤ bytes.length) ?_ ?_ ?_ bytes
  · simp [Reading.values, elementsLength]
  · simp [Reading.values, elementsLength]
  · intro bytes item count nonempty first later fits
    have shorter : (bytes.drop count).length = bytes.length - count := List.length_drop
    obtain ⟨writable, total⟩ := later (by omega)
    rw [shorter] at total
    cases item with
    | none => exact ⟨writable, Nat.le_trans total (Nat.sub_le _ _)⟩
    | some extension =>
        obtain ⟨accepted, taken, inside⟩ := readItem_some fits first
        refine ⟨?_, ?_⟩
        · intro found member
          rcases List.mem_cons.mp member with rfl | member
          · exact accepted
          · exact writable found member
        · refine Nat.le_trans (Nat.add_le_add (Nat.le_of_eq taken) total) ?_
          omega

end ExtensionRegion

end Av1Transport.Rtp
