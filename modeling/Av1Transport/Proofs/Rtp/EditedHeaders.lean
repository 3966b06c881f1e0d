import Mathlib.Algebra.Order.BigOperators.Group.List
import Mathlib.Algebra.Order.Group.Nat
import Av1Transport.Proofs.Rtp.ExtensionEdits

/-! Headers that are built by edits.
Whatever edits are made to a blank header, and whichever of them fail, the header can be written,
and is read back as it is.
-/

namespace Av1Transport.Rtp

/-- In the layouts of small elements an element stays short. -/
theorem ExtensionProfile.elementLength_le {profile : ExtensionProfile}
    (small : profile = oneByte ∨ profile = twoByte) {id : UInt8} {length : Nat}
    (accepted : profile.accepts id length = true)
    : profile.elementLength length ≤ 257 := by
  rcases small with rfl | rfl <;>
  · simp only [accepts, Bool.and_eq_true, decide_eq_true_eq] at accepted
    simp only [elementLength]
    omega

namespace Header

/-- There are only so many ids. -/
theorem DistinctIds.length_le {header : Header} (distinct : header.DistinctIds)
    : header.extensions.length ≤ UInt8.size := by
  have numbers : ((header.extensions.map Extension.id).map UInt8.toNat).Nodup :=
    List.Nodup.map (fun _ _ => UInt8.toNat_inj.mp) distinct
  have below : (header.extensions.map Extension.id).map UInt8.toNat ⊆ List.range UInt8.size := by
    intro number member
    obtain ⟨id, -, rfl⟩ := List.mem_map.mp member
    exact List.mem_range.mpr id.toNat_lt
  have total := numbers.length_le_of_subset below
  rwa [List.length_map, List.length_map, List.length_range] at total

-----------------------------------------------------------------------------------------
-- What edits keep
-----------------------------------------------------------------------------------------

/-- Fields that fit their bits, no padding, no id that is repeated, and a layout of small elements
that can hold all extensions. There are none while extensions are off.
-/
structure Tidy (header : Header) : Prop where
  version_lt : header.version.toNat < 4
  payloadType_lt : header.payloadType.toNat < 128
  csrcs_le : header.csrcs.length ≤ maxCsrcs
  unpadded : header.paddingSize = 0
  bare : header.hasExtension = false → header.extensionCode = 0 ∧ header.extensions = []
  small : header.hasExtension = true → header.profile = .oneByte ∨ header.profile = .twoByte
  distinct : header.DistinctIds
  accepted
    : ∀ extension ∈ header.extensions,
        header.profile.accepts extension.id extension.payload.length = true

theorem tidy_blank : blank.Tidy where
  version_lt := by decide
  payloadType_lt := by decide
  csrcs_le := by decide
  unpadded := rfl
  bare := fun _ => ⟨rfl, rfl⟩
  small := by decide
  distinct := by decide
  accepted := by decide

theorem Tidy.small_layoutFor {header : Header} (tidy : header.Tidy) (length : Nat)
    : header.layoutFor length = .oneByte ∨ header.layoutFor length = .twoByte := by
  unfold layoutFor
  split
  next extended => exact tidy.small extended
  next =>
    unfold profileFor
    split
    · exact .inr rfl
    · exact .inl rfl

/-- The layout of a further extension can hold those that are there. Witness: it is their own,
unless there are none.
-/
theorem Tidy.accepted_layoutFor {header : Header} (tidy : header.Tidy) (length : Nat)
    : ∀ extension ∈ header.extensions,
        (header.layoutFor length).accepts extension.id extension.payload.length = true := by
  unfold layoutFor
  cases extended : header.hasExtension with
  | true => exact tidy.accepted
  | false => simp [(tidy.bare extended).2]

theorem mem_replaceOrAdd {extensions : List Extension} {id : UInt8} {payload : Bytes}
    {extension : Extension} (member : extension ∈ replaceOrAdd extensions id payload)
    : extension ∈ extensions ∨ extension = ⟨id, payload⟩ := by
  unfold replaceOrAdd at member
  split at member
  next => exact List.mem_or_eq_of_mem_set member
  next => simpa using member

/-- An edit keeps a header tidy. Witness: a payload is checked in the layout that all others are in. -/
theorem Tidy.apply {before after : Header} {change : Edit} (tidy : before.Tidy)
    (changed : change.apply before = .ok after)
    : after.Tidy := by
  have distinct := (changesFirst_of_apply changed).distinctIds tidy.distinct
  cases change with
  | set id payload =>
      obtain ⟨fits, rfl⟩ := setExtension_ok changed
      have small := tidy.small_layoutFor payload.length
      have others := tidy.accepted_layoutFor payload.length
      generalize before.layoutFor payload.length = layout at *
      have same : ExtensionProfile.ofCode layout.code = layout := by
        rcases small with rfl | rfl <;> rfl
      exact {
        version_lt := tidy.version_lt
        payloadType_lt := tidy.payloadType_lt
        csrcs_le := tidy.csrcs_le
        unpadded := tidy.unpadded
        bare := by simp
        small := by
          rw [profile, same]
          exact fun _ => small
        distinct
        accepted := by
          rw [profile, same]
          intro extension member
          rcases mem_replaceOrAdd member with old | rfl
          · exact others extension old
          · exact fits
      }
  | remove id =>
      obtain ⟨extended, rfl⟩ := removeExtension_ok changed
      exact {
        version_lt := tidy.version_lt
        payloadType_lt := tidy.payloadType_lt
        csrcs_le := tidy.csrcs_le
        unpadded := tidy.unpadded
        bare := by simp [extended]
        small := fun _ => tidy.small extended
        distinct
        accepted := fun extension member =>
          tidy.accepted extension (List.mem_of_mem_eraseP member)
      }

/-- The layout stays once extensions are on. -/
theorem code_of_apply {before after : Header} {change : Edit}
    (extended : before.hasExtension = true) (changed : change.apply before = .ok after)
    : after.hasExtension = true ∧ after.extensionCode = before.extensionCode := by
  cases change with
  | set id payload =>
      obtain ⟨-, rfl⟩ := setExtension_ok changed
      simp [layoutFor, extended, profile]
  | remove id =>
      obtain ⟨-, rfl⟩ := removeExtension_ok changed
      exact ⟨extended, rfl⟩

-----------------------------------------------------------------------------------------
-- Headers after edits
-----------------------------------------------------------------------------------------

/-- All ids at once are far from what the length field can measure. -/
theorem Tidy.extensionWords_le {header : Header} (tidy : header.Tidy)
    (extended : header.hasExtension = true)
    : header.extensionWords ≤ 65535 := by
  have total : header.extensionsLength ≤ 257 * header.extensions.length := by
    rw [Nat.mul_comm, ← List.length_map (f := fun extension =>
      header.profile.elementLength extension.payload.length)]
    refine List.sum_le_card_nsmul _ 257 fun length listed => ?_
    obtain ⟨extension, member, rfl⟩ := List.mem_map.mp listed
    exact ExtensionProfile.elementLength_le (tidy.small extended) (tidy.accepted extension member)
  have number : header.extensions.length ≤ 256 := tidy.distinct.length_le
  unfold extensionWords regionPadding
  omega

theorem Tidy.canonical {header : Header} (tidy : header.Tidy) : header.Canonical where
  version_lt := tidy.version_lt
  payloadType_lt := tidy.payloadType_lt
  csrcs_le := tidy.csrcs_le
  bare := tidy.bare
  measured := tidy.extensionWords_le
  filled := by
    intro extended notOne notTwo
    have raw := profile_eq_raw notOne notTwo
    have small := tidy.small extended
    simp [raw] at small
  validated := fun _ extension member =>
    ExtensionProfile.validate_eq_ok_iff.mpr (tidy.accepted extension member)

/-- A canonical header without padding is read back as it is. -/
theorem Canonical.parse_toBytes {header : Header} (canonical : header.Canonical)
    (unpadded : header.paddingSize = 0)
    : ∃ bytes, header.toBytes = .ok bytes ∧ parse bytes = .ok (header, header.size) := by
  obtain ⟨bytes, written⟩ := exists_toBytesWith canonical.check header.padding
  have read := parse_of_toBytes written []
  have same : header.onWire header.padding = header := by
    rw [canonical.onWire_eq, ← unpadded]
  rw [List.append_nil, same] at read
  exact ⟨bytes, written, read⟩

/-- No id is repeated, the layout can hold every extension, and what is written is read back. -/
structure Encodable (header : Header) : Prop where
  distinct : header.DistinctIds
  validated
    : ∀ extension ∈ header.extensions,
        header.profile.validate extension.id extension.payload.length = .ok ()
  readBack : ∃ bytes, header.toBytes = .ok bytes ∧ parse bytes = .ok (header, header.size)

theorem Tidy.encodable {header : Header} (tidy : header.Tidy) : header.Encodable where
  distinct := tidy.distinct
  validated := fun extension member =>
    ExtensionProfile.validate_eq_ok_iff.mpr (tidy.accepted extension member)
  readBack := tidy.canonical.parse_toBytes tidy.unpadded

/-- After any edits a header that was blank can be written and is read back. An edit that fails
leaves it as it was, and its layout stays once extensions are on.
-/
theorem edited_headers_encodable
    : (∀ changes : List Edit, (blank.edited changes).Encodable)
      ∧ (∀ (changes : List Edit) (change : Edit) (failure : Error) (left : Header),
          (edit change).run (blank.edited changes) = .error failure left
          → left = blank.edited changes)
      ∧ ∀ changes more : List Edit,
          (blank.edited changes).hasExtension = true
          → (blank.edited (changes ++ more)).hasExtension = true
            ∧ (blank.edited (changes ++ more)).extensionCode
              = (blank.edited changes).extensionCode := by
  refine ⟨?encodable, ?failed, ?layout⟩
  case encodable =>
    intro changes
    have tidy : (blank.edited changes).Tidy := edited_induction Tidy.apply tidy_blank changes
    exact tidy.encodable
  case failed =>
    exact fun _ _ _ _ => eq_of_run_edit_error
  case layout =>
    intro changes more extended
    have front : blank.edited (changes ++ more) = (blank.edited changes).edited more :=
      List.foldl_append
    rw [front]
    refine edited_induction (motive := fun header =>
      header.hasExtension = true
      ∧ header.extensionCode = (blank.edited changes).extensionCode) ?_ ⟨extended, rfl⟩ more
    intro before after change kept changed
    obtain ⟨on, same⟩ := code_of_apply kept.1 changed
    exact ⟨on, same.trans kept.2⟩

/-- The layout of the first extension cannot hold an empty payload, not even when that extension
is gone.
-/
theorem edited_headers_encodable_one_byte
    : ∃ left,
        (edit (.set 2 [])).run (blank.edited [.set 1 [0xAA], .remove 1])
          = .error (.invalidExtension 2 0) left
        ∧ left = blank.edited [.set 1 [0xAA], .remove 1]
        ∧ left.extensions = []
        ∧ left.hasExtension = true
        ∧ left.extensionCode = (blank.edited [.set 1 [0xAA]]).extensionCode := by
  have failed : (edit (.set 2 [])).run (blank.edited [.set 1 [0xAA], .remove 1])
      = .error (.invalidExtension 2 0) _ := rfl
  have left := edited_headers_encodable.2.1 _ _ _ _ failed
  have layout := edited_headers_encodable.2.2 [.set 1 [0xAA]] [.remove 1] rfl
  exact ⟨_, failed, left, rfl, layout.1, layout.2⟩

end Header

end Av1Transport.Rtp
