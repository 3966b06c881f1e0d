import Av1Transport.Proofs.Rtp.ExtensionRegions
import Av1Transport.Rtp.Header

/-! Headers that are written.
Writing cuts fields to their bits and leaves out what is turned off, so a header is read back as
it is on the wire. A canonical header is on the wire as it is.
-/

namespace Av1Transport.Rtp

-----------------------------------------------------------------------------------------
-- The extension region of a header
-----------------------------------------------------------------------------------------

theorem ExtensionProfile.small_or_raw (profile : ExtensionProfile)
    : (profile = .oneByte ∨ profile = .twoByte) ∨ ∃ code, profile = .raw code := by
  cases profile <;> simp

namespace Header

theorem profile_eq_raw {header : Header} (notOne : header.extensionCode ≠ 0xBEDE)
    (notTwo : header.extensionCode ≠ 0x1000)
    : header.profile = .raw header.extensionCode := by
  simp [profile, ExtensionProfile.ofCode, notOne, notTwo]

/-- The elements of the header's extensions and the zeros that fill up the last word. -/
def region (header : Header) : Bytes :=
  header.extensions.flatMap header.profile.elementBytes
    ++ List.replicate (regionPadding header.extensionsLength) 0

/-- The extensions as a reader finds them: in the raw layout one that fills the region. -/
def carriedExtensions (header : Header) : List Extension :=
  match header.profile with
  | .raw _ => if header.region = [] then [] else [⟨0, header.region⟩]
  | _ => header.extensions

theorem extensionsLength_add_regionPadding (header : Header)
    : header.extensionsLength + regionPadding header.extensionsLength
      = 4 * header.extensionWords := by
  unfold extensionWords regionPadding
  omega

theorem size_eq (header : Header)
    : header.size
      = fixedLength + 4 * header.csrcs.length
        + if header.hasExtension then 4 + 4 * header.extensionWords else 0 := by
  rw [size, Nat.add_assoc 4, extensionsLength_add_regionPadding]

theorem length_region (header : Header) : header.region.length = 4 * header.extensionWords := by
  have elements : (header.extensions.flatMap header.profile.elementBytes).length
      = header.extensionsLength := by
    simp only [List.length_flatMap, ExtensionProfile.length_elementBytes, extensionsLength,
      ExtensionProfile.elementsLength]
  rw [region, List.length_append, elements, List.length_replicate]
  exact header.extensionsLength_add_regionPadding

/-- In the small layouts the region gives back the elements that were put into it. -/
theorem carriedExtensions_eq_extensions {header : Header}
    (small : header.profile = .oneByte ∨ header.profile = .twoByte)
    : header.carriedExtensions = header.extensions := by
  rcases small with layout | layout <;> rw [carriedExtensions, layout]

/-- In the raw layout the region gives back one element without an id, unless it is empty. -/
theorem carriedExtensions_of_raw {header : Header} {code : UInt16}
    (layout : header.profile = .raw code)
    : header.carriedExtensions = if header.region = [] then [] else [⟨0, header.region⟩] := by
  rw [carriedExtensions, layout]

/-- Raw elements are followed in their region by the zeros that fill up their last word. -/
theorem region_of_raw {header : Header} {code : UInt16} (layout : header.profile = .raw code)
    {bytes : Bytes} (joined : header.extensions.flatMap Extension.payload = bytes)
    : header.region = bytes ++ List.replicate (regionPadding bytes.length) 0 := by
  have length : header.extensionsLength = bytes.length := by
    rw [← joined, List.length_flatMap, extensionsLength, layout]
    rfl
  rw [region, length, layout, ← joined]
  rfl

/-- Raw elements that fill whole words are their region. -/
theorem region_eq_of_raw {header : Header} {code : UInt16} (layout : header.profile = .raw code)
    {bytes : Bytes} (joined : header.extensions.flatMap Extension.payload = bytes)
    (full : regionPadding bytes.length = 0)
    : header.region = bytes := by
  rw [region_of_raw layout joined, full, List.replicate_zero, List.append_nil]

/-- The region is read back as the extensions that it carries. -/
theorem read_region {header : Header}
    (accepted
      : ∀ extension ∈ header.extensions,
          header.profile.accepts extension.id extension.payload.length = true)
    : ExtensionRegion.read header.profile header.region = ⟨header.carriedExtensions, none⟩ := by
  rcases header.profile.small_or_raw with small | ⟨code, layout⟩
  · rw [carriedExtensions_eq_extensions small]
    exact ExtensionRegion.read_elements small accepted (regionPadding header.extensionsLength)
  · rw [carriedExtensions_of_raw layout, layout]
    exact ExtensionRegion.read_raw code header.region

-----------------------------------------------------------------------------------------
-- Headers that were written
-----------------------------------------------------------------------------------------

/-- The header as its bytes say it, with the padding flag as told. -/
def onWire (header : Header) (padding : Bool) : Header :=
  { header with
    version := UInt8.ofNat (header.version.toNat % 4)
    padding
    payloadType := UInt8.ofNat (header.payloadType.toNat % 128)
    extensionCode := if header.hasExtension then header.extensionCode else 0
    extensions := if header.hasExtension then header.carriedExtensions else []
    paddingSize := 0 }

/-- What can be written: no more sources than can be counted, and, where extensions are on,
elements that the layout can hold in a region that the length field can measure.
-/
theorem check_eq_ok_iff (header : Header)
    : header.check = .ok ()
      ↔ header.csrcs.length ≤ maxCsrcs
        ∧ (header.hasExtension = true
          → (∀ extension ∈ header.extensions,
                header.profile.accepts extension.id extension.payload.length = true)
            ∧ header.extensionWords ≤ 65535) := by
  unfold check
  by_cases many : maxCsrcs < header.csrcs.length
  · simp [many, Nat.not_le_of_lt many]
  · rw [if_neg many]
    have few := Nat.le_of_not_lt many
    cases header.hasExtension with
    | false => simp [few]
    | true =>
        simp only [if_true, few, true_and, true_implies]
        split
        next extension found =>
          have rejected := List.find?_some found
          have member := List.mem_of_find?_eq_some found
          simp only [Bool.not_eq_true', reduceCtorEq, false_iff] at rejected ⊢
          intro valid
          simp [valid.1 extension member] at rejected
        next none =>
          have accepted : ∀ extension ∈ header.extensions,
              header.profile.accepts extension.id extension.payload.length = true := by
            simpa using List.find?_eq_none.mp none
          by_cases long : 65535 < header.extensionWords
          · simp [long, Nat.not_le_of_lt long]
          · rw [if_neg long]
            exact ⟨fun _ => ⟨accepted, Nat.le_of_not_lt long⟩, fun _ => rfl⟩

theorem exists_toBytesWith {header : Header} (valid : header.check = .ok ()) (padding : Bool)
    : ∃ bytes, header.toBytesWith padding = .ok bytes :=
  ⟨_, by rw [toBytesWith, valid]⟩

/-- The fields of the first byte are read back, by arithmetic modulo powers of two. -/
private theorem firstByte_fields (version : UInt8) (padding extension : Bool) {count : Nat}
    (few : count ≤ maxCsrcs)
    : let first := UInt8.ofNat
        (version.toNat % 4 * 64 + flagWeight padding 32 + flagWeight extension 16 + count)
      bitField first 64 4 = UInt8.ofNat (version.toNat % 4)
      ∧ bitSet first 32 = padding
      ∧ bitSet first 16 = extension
      ∧ (bitField first 1 16).toNat = count := by
  have bound : count ≤ 15 := few
  cases padding <;> cases extension <;>
  · simp only [bitSet, bitField, flagWeight, UInt8.toNat_ofNat', Bool.false_eq_true, if_true,
      if_false, beq_iff_eq, beq_eq_false_iff_ne, ← UInt8.toNat_inj]
    omega

private theorem secondByte_fields (marker : Bool) (payloadType : UInt8)
    : let second := UInt8.ofNat (flagWeight marker 128 + payloadType.toNat % 128)
      bitSet second 128 = marker
      ∧ bitField second 1 128 = UInt8.ofNat (payloadType.toNat % 128) := by
  cases marker <;>
  · simp only [bitSet, bitField, flagWeight, UInt8.toNat_ofNat', Bool.false_eq_true, if_true,
      if_false, beq_iff_eq, beq_eq_false_iff_ne, ← UInt8.toNat_inj]
    omega

/-- The fixed bytes are read over any older header, in front of whatever follows them. -/
theorem readFixed?_fixedBytes {header : Header} (few : header.csrcs.length ≤ maxCsrcs)
    (old : Header) (padding : Bool) (rest : Bytes)
    : old.readFixed? (header.fixedBytes padding ++ rest)
      = some
          ({ old with
              version := UInt8.ofNat (header.version.toNat % 4)
              padding
              hasExtension := header.hasExtension
              marker := header.marker
              payloadType := UInt8.ofNat (header.payloadType.toNat % 128)
              sequenceNumber := header.sequenceNumber
              timestamp := header.timestamp
              ssrc := header.ssrc },
            header.csrcs.length,
            rest) := by
  obtain ⟨version, padded, extended, count⟩ :=
    firstByte_fields header.version padding header.hasExtension few
  obtain ⟨marked, payload⟩ := secondByte_fields header.marker header.payloadType
  unfold fixedBytes
  -- only what was read back matters of the first two bytes
  generalize UInt8.ofNat (header.version.toNat % 4 * 64 + _ + _ + _) = first at *
  generalize UInt8.ofNat (flagWeight header.marker 128 + _) = second at *
  simp only [word16Bytes, word32Bytes, List.cons_append, List.nil_append, readFixed?, version,
    padded, extended, count, marked, payload, word16_bytes, word32_bytes]

theorem extensionBytes_eq {header : Header} (extended : header.hasExtension = true)
    : header.extensionBytes
      = word16Bytes header.extensionCode ++ word16Bytes (UInt16.ofNat header.extensionWords)
        ++ header.region := by
  simp only [extensionBytes, extended, if_true, region, List.append_assoc]

/-- The extensions are read back as they are on the wire. -/
theorem readExtensions_extensionBytes {header : Header} (extended : header.hasExtension = true)
    (accepted
      : ∀ extension ∈ header.extensions,
          header.profile.accepts extension.id extension.payload.length = true)
    (measured : header.extensionWords ≤ 65535) (old : Header) (rest : Bytes)
    : old.readExtensions (header.extensionBytes ++ rest)
      = (.ok (4 + 4 * header.extensionWords),
        { old with
          extensionCode := header.extensionCode
          extensions := header.carriedExtensions }) := by
  have words : (UInt16.ofNat header.extensionWords).toNat = header.extensionWords := by
    simp only [UInt16.toNat_ofNat']
    omega
  have cut : splitExact? (4 * header.extensionWords) (header.region ++ rest)
      = some (header.region, rest) := by
    rw [← length_region]
    exact splitExact?_append header.region rest
  have found := read_region accepted
  rw [profile] at found
  rw [extensionBytes_eq extended]
  simp only [word16Bytes, List.cons_append, List.nil_append, readExtensions, word16_bytes]
  -- the length is known only behind the two bytes that spell it
  simp only [words, cut, profile, found]

/-- The bytes of a header that can be written are as many as its size says. -/
theorem length_of_toBytesWith {header : Header} {padding : Bool} {bytes : Bytes}
    (written : header.toBytesWith padding = .ok bytes)
    : bytes.length = header.size := by
  unfold toBytesWith at written
  split at written
  next => cases written
  next =>
    cases written
    have sources : (header.csrcs.flatMap word32Bytes).length = 4 * header.csrcs.length := by
      simp only [List.length_flatMap, length_word32Bytes, List.map_const', List.sum_replicate_nat,
        Nat.mul_comm]
    rw [List.length_append, List.length_append, length_fixedBytes, sources, size_eq]
    cases extended : header.hasExtension with
    | false => simp [extensionBytes, extended]
    | true =>
        rw [extensionBytes_eq extended]
        simp only [List.length_append, length_word16Bytes, length_region, if_true]

/-- A header is read over any older one as its bytes say it, in front of whatever follows it.
Witness: its parts are read one after another.
-/
theorem overwrite_of_toBytesWith {header : Header} {padding : Bool} {bytes : Bytes}
    (written : header.toBytesWith padding = .ok bytes) (old : Header) (rest : Bytes)
    : old.overwrite (bytes ++ rest) = (.ok header.size, header.onWire padding) := by
  unfold toBytesWith at written
  split at written
  next => cases written
  next valid =>
    cases written
    obtain ⟨few, extensions⟩ := header.check_eq_ok_iff.mp valid
    rw [List.append_assoc, List.append_assoc, overwrite, readFixed?_fixedBytes few]
    simp only [readWords_flatMap]
    cases extended : header.hasExtension with
    | false =>
        simp [extended, size_eq, onWire, clear]
    | true =>
        obtain ⟨accepted, measured⟩ := extensions extended
        simp only [if_true, readExtensions_extensionBytes extended accepted measured]
        simp [extended, size_eq, onWire, clear]

/-- A header that was written is parsed as its bytes say it, whatever follows them. -/
theorem parse_of_toBytes {header : Header} {bytes : Bytes} (written : header.toBytes = .ok bytes)
    (rest : Bytes)
    : parse (bytes ++ rest) = .ok (header.onWire header.padding, header.size) := by
  rw [parse, overwrite_of_toBytesWith written]

-----------------------------------------------------------------------------------------
-- Canonical headers
-----------------------------------------------------------------------------------------

/-- Every field fits its bits, nothing is kept of extensions that are off, and the extensions
that are on fit the length field. A raw extension fills its region.
-/
structure Fitting (header : Header) : Prop where
  version_lt : header.version.toNat < 4
  payloadType_lt : header.payloadType.toNat < 128
  csrcs_le : header.csrcs.length ≤ maxCsrcs
  bare : header.hasExtension = false → header.extensionCode = 0 ∧ header.extensions = []
  measured : header.hasExtension = true → header.extensionWords ≤ 65535
  filled
    : header.hasExtension = true
      → header.extensionCode ≠ 0xBEDE
      → header.extensionCode ≠ 0x1000
      → header.extensions.length ≤ 1
        ∧ ∀ extension ∈ header.extensions,
            extension.payload ≠ [] ∧ extension.payload.length % 4 = 0

/-- A fitting header whose extensions its layout can hold. -/
structure Canonical (header : Header) : Prop extends Fitting header where
  validated
    : header.hasExtension = true
      → ∀ extension ∈ header.extensions,
          header.profile.validate extension.id extension.payload.length = .ok ()

theorem Canonical.accepted {header : Header} (canonical : header.Canonical)
    (extended : header.hasExtension = true)
    : ∀ extension ∈ header.extensions,
        header.profile.accepts extension.id extension.payload.length = true :=
  fun extension member =>
    ExtensionProfile.validate_eq_ok_iff.mp (canonical.validated extended extension member)

theorem Canonical.check {header : Header} (canonical : header.Canonical)
    : header.check = .ok () :=
  header.check_eq_ok_iff.mpr
    ⟨canonical.csrcs_le,
      fun extended => ⟨canonical.accepted extended, canonical.measured extended⟩⟩

/-- A canonical header's extensions are found as they are. Witness: a raw one is as long as its
region.
-/
theorem Canonical.carriedExtensions_eq {header : Header} (canonical : header.Canonical)
    (extended : header.hasExtension = true)
    : header.carriedExtensions = header.extensions := by
  rcases header.profile.small_or_raw with small | ⟨code, layout⟩
  · exact carriedExtensions_eq_extensions small
  · have other : header.extensionCode ≠ 0xBEDE ∧ header.extensionCode ≠ 0x1000 := by
      constructor <;>
      · intro same
        simp [profile, ExtensionProfile.ofCode, same] at layout
    obtain ⟨single, filling⟩ := canonical.filled extended other.1 other.2
    have accepted := canonical.accepted extended
    rw [layout] at accepted
    rw [carriedExtensions_of_raw layout]
    match found : header.extensions with
    | [] => rw [if_pos (region_eq_of_raw layout (by rw [found]; rfl) rfl)]
    | [⟨id, payload⟩] =>
        rw [found] at filling accepted
        obtain ⟨nonempty, words⟩ := filling _ List.mem_cons_self
        have padded : regionPadding payload.length = 0 := by
          unfold regionPadding
          simp [words]
        have none : id = 0 := by
          have accepted := accepted _ List.mem_cons_self
          simp only [ExtensionProfile.accepts, Bool.and_eq_true, beq_iff_eq] at accepted
          exact UInt8.toNat_inj.mp accepted.1
        rw [region_eq_of_raw layout (by rw [found]; exact List.flatMap_singleton _ _) padded,
          if_neg nonempty, none]
    | _ :: _ :: _ =>
        rw [found] at single
        simp at single

/-- A canonical header is on the wire as it is, but for its padding. -/
theorem Canonical.onWire_eq {header : Header} (canonical : header.Canonical) (padding : Bool)
    : header.onWire padding = { header with padding, paddingSize := 0 } := by
  have version : UInt8.ofNat (header.version.toNat % 4) = header.version := by
    rw [Nat.mod_eq_of_lt canonical.version_lt, UInt8.ofNat_toNat]
  have payloadType : UInt8.ofNat (header.payloadType.toNat % 128) = header.payloadType := by
    rw [Nat.mod_eq_of_lt canonical.payloadType_lt, UInt8.ofNat_toNat]
  unfold onWire
  rw [version, payloadType]
  cases extended : header.hasExtension with
  | false =>
      obtain ⟨code, none⟩ := canonical.bare extended
      simp [code, none]
  | true => simp [canonical.carriedExtensions_eq extended]

end Header

end Av1Transport.Rtp
