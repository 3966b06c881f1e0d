import Av1Transport.Obu.Header

/-! Headers of units after writing and reading them.
Writing cuts every field to its bits, so a header is read back as its fitted form; a header that
was read is fitted already.
-/

namespace Av1Transport.Obu

/-- The extension with every field cut to its bits. -/
def Extension.fitted (extension : Extension) : Extension where
  temporalId := UInt8.ofNat (extension.temporalId.toNat % 8)
  spatialId := UInt8.ofNat (extension.spatialId.toNat % 4)
  reserved := UInt8.ofNat (extension.reserved.toNat % 8)

/-- The fields of the layer byte are read back, by arithmetic modulo powers of two. -/
theorem Extension.ofByte_toByte (extension : Extension)
    : ofByte extension.toByte = extension.fitted := by
  rcases extension with ⟨temporalId, spatialId, reserved⟩
  simp only [ofByte, toByte, fitted, bitField, UInt8.toNat_ofNat', Extension.mk.injEq,
    ← UInt8.toNat_inj]
  omega

theorem Extension.toByte_fitted (extension : Extension)
    : extension.fitted.toByte = extension.toByte := by
  simp only [toByte, fitted, UInt8.toNat_ofNat', ← UInt8.toNat_inj]
  omega

theorem Extension.fitted_ofByte (byte : UInt8) : (ofByte byte).fitted = ofByte byte := by
  simp only [ofByte, fitted, bitField, UInt8.toNat_ofNat', Extension.mk.injEq,
    ← UInt8.toNat_inj]
  omega

namespace Header

/-- The header with every field cut to its bits, and the kind that what is left of its number
stands for.
-/
def fitted (header : Header) : Header :=
  { header with
    kind := Kind.ofValue (UInt8.ofNat (header.kind.value.toNat % 16))
    extension := header.extension.map Extension.fitted }

@[simp]
theorem fitted_withSize (header : Header) (hasSize : Bool)
    : (header.withSize hasSize).fitted = header.fitted.withSize hasSize :=
  rfl

theorem size_fitted (header : Header) : header.fitted.size = header.size := by
  unfold size fitted
  rw [Option.isSome_map]

/-- What is cut off a header is not written. -/
theorem toBytes_fitted (header : Header) : header.fitted.toBytes = header.toBytes := by
  obtain ⟨_, extension, _, _⟩ := header
  cases extension with
  | none => simp [toBytes, fitted]
  | some extension => simp [toBytes, fitted, Extension.toByte_fitted]

/-- The kind is read back from the header's first byte. Witness: the flags take the three bits
below it.
-/
private theorem kindOfByte_first (kind : Kind) (extension size reserved : Bool)
    : kindOfByte
          (UInt8.ofNat
            (kind.value.toNat % 16 * 8 + flagWeight extension 4 + flagWeight size 2
              + flagWeight reserved 1))
        = Kind.ofValue (UInt8.ofNat (kind.value.toNat % 16)) := by
  unfold kindOfByte bitField
  congr 2
  cases extension <;> cases size <;> cases reserved <;>
  · simp only [flagWeight, UInt8.toNat_ofNat', Bool.false_eq_true, if_true, if_false]
    omega

/-- The flags are read back from the header's first byte, and the forbidden bit is clear. -/
private theorem bitSet_first (kind : Kind) (extension size reserved : Bool)
    : let first := UInt8.ofNat
        (kind.value.toNat % 16 * 8 + flagWeight extension 4 + flagWeight size 2
          + flagWeight reserved 1)
      bitSet first 128 = false
      ∧ bitSet first 4 = extension
      ∧ bitSet first 2 = size
      ∧ bitSet first 1 = reserved := by
  cases extension <;> cases size <;> cases reserved <;>
  · simp only [bitSet, flagWeight, UInt8.toNat_ofNat', Bool.false_eq_true, if_true, if_false,
      beq_iff_eq, beq_eq_false_iff_ne]
    omega

/-- A header is read back fitted, whatever follows it. -/
theorem parse_toBytes (header : Header) (rest : Bytes)
    : parse (header.toBytes ++ rest) = .ok header.fitted := by
  obtain ⟨kind, extension, hasSize, reservedBit⟩ := header
  have kinds := kindOfByte_first kind extension.isSome hasSize reservedBit
  obtain ⟨forbidden, extended, sized, reserved⟩ :=
    bitSet_first kind extension.isSome hasSize reservedBit
  unfold toBytes
  -- only what was read back matters of the first byte
  generalize UInt8.ofNat _ = first at *
  cases extension with
  | none => simp [parse, fitted, kinds, forbidden, extended, sized, reserved]
  | some extension =>
      simp [parse, fitted, kinds, forbidden, extended, sized, reserved, Extension.ofByte_toByte]

private theorem kindOfByte_fitted (byte : UInt8)
    : Kind.ofValue (UInt8.ofNat ((kindOfByte byte).value.toNat % 16)) = kindOfByte byte := by
  have small := toNat_bitField_lt byte 8 (by decide : 0 < 16)
  simp only [kindOfByte, Kind.value_ofValue, Nat.mod_eq_of_lt small, UInt8.ofNat_toNat]

/-- A header that was read is fitted, by cases on its first byte. -/
theorem fitted_of_parse {bytes : Bytes} {header : Header} (h : parse bytes = .ok header)
    : header.fitted = header := by
  unfold parse at h
  split at h
  · simp at h
  next first rest =>
    split at h
    · simp at h
    · split at h
      · split at h
        · simp at h
        · cases h
          simp [fitted, kindOfByte_fitted, Extension.fitted_ofByte]
      · cases h
        simp [fitted, kindOfByte_fitted]

theorem size_le_of_parse {bytes : Bytes} {header : Header} (h : parse bytes = .ok header)
    : header.size ≤ bytes.length := by
  unfold parse at h
  split at h
  · simp at h
  · split at h
    · simp at h
    · split at h
      · split at h
        · simp at h
        · cases h
          simp [size]
      · cases h
        simp [size]

/-- The first byte alone says the kind of a header that was read. -/
theorem kind_of_parse {bytes : Bytes} {header : Header} (h : parse bytes = .ok header)
    : ∃ first rest, bytes = first :: rest ∧ header.kind = kindOfByte first := by
  unfold parse at h
  split at h
  · cases h
  next first rest =>
    refine ⟨first, rest, rfl, ?_⟩
    split at h
    · cases h
    · split at h
      · split at h
        · cases h
        · cases h
          rfl
      · cases h
        rfl

end Header

end Av1Transport.Obu
