import Av1Transport.Proofs.Rtp.WrittenHeaders

/-! Headers that are read.
A header that was read is fitting and no longer than its bytes. It can be written again exactly
where none of its elements in the one-byte layout has the id of padding.
-/

namespace Av1Transport

/-- Words that were read take four bytes each, by induction on their number. -/
theorem length_of_readWords {count : Nat} {bytes rest : Bytes} {words : List UInt32}
    (read : readWords count bytes = some (words, rest))
    : words.length = count ∧ bytes.length = 4 * count + rest.length := by
  fun_induction readWords count bytes generalizing words with
  | case1 bytes =>
      cases read
      simp
  | case2 count b3 b2 b1 b0 bytes later behind found ih =>
      cases read
      obtain ⟨number, total⟩ := ih found
      simp only [List.length_cons]
      omega
  | case3 => cases read
  | case4 => cases read

namespace Rtp.Header

-----------------------------------------------------------------------------------------
-- The parts of a header
-----------------------------------------------------------------------------------------

theorem readFixed?_some {old fixed : Header} {bytes rest : Bytes} {count : Nat}
    (read : old.readFixed? bytes = some (fixed, count, rest))
    : bytes.length = fixedLength + rest.length
      ∧ count ≤ maxCsrcs
      ∧ fixed.version.toNat < 4
      ∧ fixed.payloadType.toNat < 128
      ∧ fixed.extensionCode = old.extensionCode
      ∧ fixed.extensions = old.extensions
      ∧ fixed.paddingSize = old.paddingSize := by
  unfold readFixed? at read
  split at read
  next b0 b1 _ _ _ _ _ _ _ _ _ _ rest =>
    cases read
    have sources := toNat_bitField_lt b0 1 (by decide : 0 < 16)
    refine ⟨?_, Nat.le_of_lt_succ sources, toNat_bitField_lt b0 64 (by decide),
      toNat_bitField_lt b1 1 (by decide), rfl, rfl, rfl⟩
    simp only [List.length_cons, fixedLength]
    omega
  next => cases read

theorem readExtensions_ok {old header : Header} {bytes : Bytes} {length : Nat}
    (read : old.readExtensions bytes = (.ok length, header))
    : ∃ code region words,
        header
            = { old with
                extensionCode := code
                extensions := (ExtensionRegion.read (.ofCode code) region).elements }
          ∧ region.length = 4 * words
          ∧ words ≤ 65535
          ∧ length = 4 + 4 * words
          ∧ length ≤ bytes.length := by
  unfold readExtensions at read
  split at read
  next c1 c0 n1 n0 rest =>
    dsimp only at read
    split at read
    next => cases read
    next region behind cut =>
      split at read
      next => cases read
      next =>
        cases read
        obtain ⟨front, taken⟩ := eq_append_of_splitExact? cut
        have words := (word16 n1 n0).toNat_lt
        refine ⟨word16 c1 c0, region, (word16 n1 n0).toNat, rfl, taken, by omega, rfl, ?_⟩
        simp only [front, List.length_cons, List.length_append]
        omega
  next => cases read

/-- A header that was read has been read part by part. Without extensions it is what its sources
complete.
-/
theorem parts_of_overwrite {old header : Header} {bytes : Bytes} {count : Nat}
    (read : old.overwrite bytes = (.ok count, header))
    : ∃ fixed sources rest csrcs behind,
        old.clear.readFixed? bytes = some (fixed, sources, rest)
        ∧ readWords sources rest = some (csrcs, behind)
        ∧ ((fixed.hasExtension = true
              ∧ ∃ length,
                  ({ fixed with csrcs } : Header).readExtensions behind = (.ok length, header)
                  ∧ count = fixedLength + 4 * sources + length)
            ∨ (fixed.hasExtension = false
              ∧ header = { fixed with csrcs }
              ∧ count = fixedLength + 4 * sources)) := by
  unfold overwrite at read
  split at read
  next => cases read
  next fixed sources rest first =>
    split at read
    next => cases read
    next csrcs behind second =>
      refine ⟨fixed, sources, rest, csrcs, behind, first, second, ?_⟩
      dsimp only at read
      split at read
      next extended =>
        split at read
        next => cases read
        next length filled third =>
          cases read
          exact .inl ⟨extended, length, third, rfl⟩
      next off =>
        cases read
        exact .inr ⟨Bool.eq_false_iff.mpr off, rfl, rfl⟩

-----------------------------------------------------------------------------------------
-- Whole headers
-----------------------------------------------------------------------------------------

/-- A fitting header whose elements were found in a region: the layout can hold them, or else
they have the id of padding in the one-byte layout.
-/
structure Found (header : Header) : Prop extends Fitting header where
  held
    : ∀ extension ∈ header.extensions,
        header.profile.accepts extension.id extension.payload.length = true
        ∨ header.profile = .oneByte ∧ extension.id = 0

theorem Found.withPadding {header : Header} (found : header.Found) (padding : Bool)
    (paddingSize : UInt8)
    : ({ header with padding, paddingSize } : Header).Found :=
  ⟨⟨found.version_lt, found.payloadType_lt, found.csrcs_le, found.bare, found.measured,
    found.filled⟩, found.held⟩

/-- What a region gives fits the length field, and is a single element if the layout is raw. -/
theorem found_of_region (header : Header) {region : Bytes} {words : Nat}
    (sized : region.length = 4 * words) (small : words ≤ 65535)
    (elements : header.extensions = (ExtensionRegion.read header.profile region).elements)
    (extended : header.hasExtension = true) (version_lt : header.version.toNat < 4)
    (payloadType_lt : header.payloadType.toNat < 128)
    (csrcs_le : header.csrcs.length ≤ maxCsrcs)
    : header.Found ∧ header.extensionWords ≤ words := by
  obtain ⟨held, total⟩ := ExtensionRegion.read_bounds header.profile
    (show region.length ≤ 65535 * 4 by omega)
  rw [← elements] at held total
  have bound : header.extensionWords ≤ words := by
    have total : header.extensionsLength ≤ region.length := total
    unfold extensionWords regionPadding
    omega
  refine ⟨⟨⟨version_lt, payloadType_lt, csrcs_le, by simp [extended], ?_, ?_⟩, held⟩, bound⟩
  · exact fun _ => Nat.le_trans bound small
  · intro _ notOne notTwo
    have layout := profile_eq_raw notOne notTwo
    rw [elements, layout, ExtensionRegion.read_raw]
    by_cases empty : region = []
    · simp [empty]
    · simp [empty, sized]

/-- A header that was read is as a reader leaves it, and what it takes when written is no more
than what it took when it was read.
-/
theorem overwrite_ok {old header : Header} {bytes : Bytes} {count : Nat}
    (read : old.overwrite bytes = (.ok count, header))
    : header.Found ∧ header.paddingSize = 0 ∧ header.size ≤ count ∧ count ≤ bytes.length := by
  obtain ⟨fixed, sources, rest, csrcs, behind, first, second, extensions⟩ :=
    parts_of_overwrite read
  obtain ⟨total, few, version, payloadType, code, elements, unpadded⟩ := readFixed?_some first
  obtain ⟨number, taken⟩ := length_of_readWords second
  rcases extensions with ⟨extended, length, third, rfl⟩ | ⟨off, rfl, rfl⟩
  · obtain ⟨code, region, words, same, sized, small, rfl, inside⟩ := readExtensions_ok third
    have extended : header.hasExtension = true := same ▸ extended
    have number : header.csrcs.length = sources := same ▸ number
    obtain ⟨found, bound⟩ := found_of_region header sized small (by rw [same]; rfl) extended
      (same ▸ version) (same ▸ payloadType) (number ▸ few)
    refine ⟨found, same ▸ unpadded, ?_, ?_⟩
    · rw [size_eq, if_pos extended, number]
      omega
    · omega
  · have none : fixed.extensions = [] := elements
    refine ⟨⟨⟨version, payloadType, number ▸ few, fun _ => ⟨code, elements⟩, ?_, ?_⟩, ?_⟩,
      unpadded, ?_, ?_⟩
    · simp [off]
    · simp [off]
    · simp [none]
    · simp [size_eq, off, number]
    · omega

/-- A header that was read is canonical unless an element has the id of padding. -/
theorem Found.canonical {header : Header} (found : header.Found)
    (distinct
      : header.profile = .oneByte → ∀ extension ∈ header.extensions, extension.id ≠ 0)
    : header.Canonical :=
  { found.toFitting with
    validated := by
      intro _ extension member
      rcases found.held extension member with accepted | ⟨layout, padding⟩
      · exact ExtensionProfile.validate_eq_ok_iff.mpr accepted
      · exact absurd padding (distinct layout extension member) }

/-- An element with the id of padding keeps a header that was read from being written. Witness:
all elements in front of it can be written.
-/
theorem Found.check_eq_error {header : Header} (found : header.Found)
    (layout : header.profile = .oneByte) {extension : Extension}
    (member : extension ∈ header.extensions) (padding : extension.id = 0)
    : ∃ length, header.check = .error (.invalidExtension 0 length) := by
  have extended : header.hasExtension = true := by
    cases extended : header.hasExtension with
    | true => rfl
    | false => simp [(found.bare extended).2] at member
  unfold check
  rw [if_neg (Nat.not_lt.mpr found.csrcs_le), if_pos extended]
  split
  next rejected first =>
    have refused := List.find?_some first
    rcases found.held rejected (List.mem_of_find?_eq_some first) with accepted | ⟨_, zero⟩
    · simp [accepted] at refused
    · exact ⟨rejected.payload.length, by rw [zero]⟩
  next none =>
    have accepted := List.find?_eq_none.mp none extension member
    simp [layout, padding, ExtensionProfile.accepts] at accepted

end Rtp.Header

end Av1Transport
