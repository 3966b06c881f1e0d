import Av1Transport.Proofs.Rtp.PacketRoundTrip

/-! What is written is a stable form.
Writing cuts wide fields, leaves out extensions that are off, joins raw extensions into one that
fills its words, and tells of padding only where there is some. All of this is done once: what
is read back from the bytes is written to the same bytes.
-/

namespace Av1Transport.Rtp

namespace Header

-----------------------------------------------------------------------------------------
-- The extension region on the wire
-----------------------------------------------------------------------------------------

theorem profile_onWire {header : Header} (extended : header.hasExtension = true) (padding : Bool)
    : (header.onWire padding).profile = header.profile := by
  simp only [profile, onWire, extended, if_true]

theorem extensions_onWire {header : Header} (extended : header.hasExtension = true)
    (padding : Bool)
    : (header.onWire padding).extensions = header.carriedExtensions := by
  simp only [onWire, extended, if_true]

/-- The extensions that a region carries fill the same region. -/
theorem region_onWire {header : Header} (extended : header.hasExtension = true) (padding : Bool)
    : (header.onWire padding).region = header.region := by
  have kept := extensions_onWire extended padding
  have same := profile_onWire extended padding
  rcases header.profile.small_or_raw with small | ⟨code, layout⟩
  · rw [carriedExtensions_eq_extensions small] at kept
    simp only [region, extensionsLength, same, kept]
  · -- several elements and the zeros behind them have become one element without zeros
    rw [carriedExtensions_of_raw layout] at kept
    refine region_eq_of_raw (same.trans layout) ?_ ?_
    · rw [kept]
      split
      next empty => rw [empty, List.flatMap_nil]
      next => rw [List.flatMap_singleton]
    · rw [length_region]
      unfold regionPadding
      omega

theorem extensionWords_onWire {header : Header} (extended : header.hasExtension = true)
    (padding : Bool)
    : (header.onWire padding).extensionWords = header.extensionWords := by
  have same := congrArg List.length (region_onWire extended padding)
  rw [length_region, length_region] at same
  omega

/-- The layout can hold what its region carries. -/
theorem accepts_carriedExtensions {header : Header}
    (accepted
      : ∀ extension ∈ header.extensions,
          header.profile.accepts extension.id extension.payload.length = true)
    (measured : header.extensionWords ≤ 65535)
    : ∀ extension ∈ header.carriedExtensions,
        header.profile.accepts extension.id extension.payload.length = true := by
  rcases header.profile.small_or_raw with small | ⟨code, layout⟩
  · rw [carriedExtensions_eq_extensions small]
    exact accepted
  · intro extension member
    rw [carriedExtensions_of_raw layout] at member
    split at member
    next => cases member
    next =>
      rw [List.mem_singleton.mp member, layout]
      have length := header.length_region
      simp only [ExtensionProfile.accepts, UInt8.toNat_zero, beq_self_eq_true, Bool.true_and,
        decide_eq_true_eq]
      omega

-----------------------------------------------------------------------------------------
-- Headers on the wire
-----------------------------------------------------------------------------------------

/-- What can be written can be written again. -/
theorem check_onWire {header : Header} (valid : header.check = .ok ()) (padding : Bool)
    : (header.onWire padding).check = .ok () := by
  obtain ⟨few, extensions⟩ := header.check_eq_ok_iff.mp valid
  rw [check_eq_ok_iff]
  refine ⟨few, fun (extended : header.hasExtension = true) => ?_⟩
  obtain ⟨accepted, measured⟩ := extensions extended
  rw [extensions_onWire extended, profile_onWire extended, extensionWords_onWire extended]
  exact ⟨accepts_carriedExtensions accepted measured, measured⟩

/-- A field is cut to its bits once. -/
theorem fixedBytes_onWire (header : Header) (told padding : Bool)
    : (header.onWire told).fixedBytes padding = header.fixedBytes padding := by
  have version : (UInt8.ofNat (header.version.toNat % 4)).toNat % 4 = header.version.toNat % 4 := by
    rw [UInt8.toNat_ofNat']
    omega
  have payloadType
      : (UInt8.ofNat (header.payloadType.toNat % 128)).toNat % 128
        = header.payloadType.toNat % 128 := by
    rw [UInt8.toNat_ofNat']
    omega
  simp only [fixedBytes, onWire, version, payloadType]

theorem extensionBytes_onWire (header : Header) (padding : Bool)
    : (header.onWire padding).extensionBytes = header.extensionBytes := by
  cases extended : header.hasExtension with
  | false =>
      have off : (header.onWire padding).hasExtension = false := extended
      rw [extensionBytes, extensionBytes, extended, off]
      rfl
  | true =>
      have code : (header.onWire padding).extensionCode = header.extensionCode := by
        simp only [onWire, extended, if_true]
      have again : (header.onWire padding).hasExtension = true := extended
      rw [extensionBytes_eq extended, extensionBytes_eq again, extensionWords_onWire extended,
        region_onWire extended, code]

/-- A header on the wire is written to the bytes that it was written to before. -/
theorem toBytesWith_onWire {header : Header} {padding : Bool} {bytes : Bytes}
    (written : header.toBytesWith padding = .ok bytes)
    : (header.onWire padding).toBytesWith padding = .ok bytes := by
  unfold toBytesWith at written
  split at written
  next => cases written
  next valid =>
    cases written
    have sources : (header.onWire padding).csrcs = header.csrcs := rfl
    rw [toBytesWith, check_onWire valid, fixedBytes_onWire, extensionBytes_onWire, sources]

/-- The padding stands behind the payload: a header is written without it. -/
theorem toBytesWith_paddingSize (header : Header) (paddingSize : UInt8) (padding : Bool)
    : ({ header with paddingSize } : Header).toBytesWith padding = header.toBytesWith padding :=
  rfl

/-- What is kept of a header, besides its extensions, when it is written and read: its fields,
and of those that are too wide the bits that fit.
-/
structure Kept (written read : Header) : Prop where
  version : read.version.toNat = written.version.toNat % 4
  payloadType : read.payloadType.toNat = written.payloadType.toNat % 128
  marker : read.marker = written.marker
  sequenceNumber : read.sequenceNumber = written.sequenceNumber
  timestamp : read.timestamp = written.timestamp
  ssrc : read.ssrc = written.ssrc
  csrcs : read.csrcs = written.csrcs

theorem kept_onWire (header : Header) (padding : Bool) : header.Kept (header.onWire padding) where
  version := by
    rw [onWire, UInt8.toNat_ofNat']
    omega
  payloadType := by
    rw [onWire, UInt8.toNat_ofNat']
    omega
  marker := rfl
  sequenceNumber := rfl
  timestamp := rfl
  ssrc := rfl
  csrcs := rfl

end Header

-----------------------------------------------------------------------------------------
-- Packets and headers that are written again
-----------------------------------------------------------------------------------------

namespace Packet

/-- A packet on the wire is written to the bytes that it was written to before. -/
theorem toBytes_onWire {packet : Packet} {bytes : Bytes} (written : packet.toBytes = .ok bytes)
    : packet.onWire.toBytes = .ok bytes := by
  obtain ⟨front, header, rfl⟩ := toBytes_eq_ok_iff.mp written
  have again : packet.onWire.header.toBytesWith (packet.header.paddingSize != 0) = .ok front := by
    rw [onWire, Header.toBytesWith_paddingSize]
    exact Header.toBytesWith_onWire header
  exact toBytes_eq_ok_iff.mpr ⟨front, again, rfl⟩

end Packet

/-- Whatever is written is read back, all of it, and is then written to the same bytes. What is
read holds the payload, the padding and the fields that were written. Witness: a packet or a
header as it is on the wire.
-/
theorem written_forms_stable
    : (∀ (packet : Packet) (bytes : Bytes),
          packet.toBytes = .ok bytes
          → bytes.length = packet.size
            ∧ ∃ again,
                Packet.parse bytes = .ok again
                ∧ again.payload = packet.payload
                ∧ again.header.paddingSize = packet.header.paddingSize
                ∧ packet.header.Kept again.header
                ∧ again.toBytes = .ok bytes)
      ∧ (∀ (header : Header) (bytes : Bytes),
          header.toBytes = .ok bytes
          → bytes.length = header.size
            ∧ ∃ again,
                Header.parse bytes = .ok (again, bytes.length)
                ∧ header.Kept again
                ∧ again.toBytes = .ok bytes) := by
  refine ⟨?packets, ?headers⟩
  case packets =>
    intro packet bytes written
    have kept := packet.header.kept_onWire (packet.header.paddingSize != 0)
    exact ⟨Packet.length_of_toBytes written, packet.onWire, Packet.parse_of_toBytes written, rfl,
      rfl, ⟨kept.version, kept.payloadType, rfl, rfl, rfl, rfl, rfl⟩,
      Packet.toBytes_onWire written⟩
  case headers =>
    intro header bytes (written : header.toBytesWith header.padding = .ok bytes)
    have length := Header.length_of_toBytesWith written
    have read := Header.overwrite_of_toBytesWith written Header.blank []
    rw [List.append_nil, ← length] at read
    have again : (header.onWire header.padding).toBytes = .ok bytes :=
      Header.toBytesWith_onWire written
    refine ⟨length, header.onWire header.padding, ?_, header.kept_onWire header.padding, again⟩
    rw [Header.parse, read]

/-- A version and a payload type that are too wide, a padding flag without padding, and raw
extensions of which one has no bytes and none fills a word.
-/
def Packet.unfitting : Packet where
  header :=
    { Header.blank with
      version := 6
      padding := true
      hasExtension := true
      payloadType := 200
      csrcs := [7]
      extensionCode := 0xABCD
      extensions := [⟨0, [1, 2, 3]⟩, ⟨0, []⟩, ⟨0, [4, 5]⟩] }
  payload := [9]

/-- Extensions that are off, and that no layout could hold. -/
def Header.stale : Header :=
  { Header.blank with
    padding := true
    extensionCode := 0xBEDE
    extensions := [⟨200, []⟩]
    paddingSize := 3 }

/-- Raw extensions become one that fills two words, and the padding flag is dropped. Without its
packet a header keeps its padding flag.
-/
theorem written_forms_stable_unfitting
    : (∃ bytes,
        Packet.unfitting.toBytes = .ok bytes
        ∧ bytes.length = 29
        ∧ ∃ again,
            Packet.parse bytes = .ok again
            ∧ again.payload = [9]
            ∧ again.header.paddingSize = 0
            ∧ Packet.unfitting.header.Kept again.header
            ∧ again.toBytes = .ok bytes)
      ∧ ∃ bytes,
          Header.stale.toBytes = .ok bytes
          ∧ bytes.length = 12
          ∧ ∃ again,
              Header.parse bytes = .ok (again, bytes.length)
              ∧ Header.stale.Kept again
              ∧ again.toBytes = .ok bytes := by
  have packet : Packet.unfitting.toBytes = .ok
      [0x91, 72, 0, 0, 0, 0, 0, 0, 0, 0, 0, 0, 0, 0, 0, 7, 0xAB, 0xCD, 0, 2,
        1, 2, 3, 4, 5, 0, 0, 0, 9] := rfl
  have header : Header.stale.toBytes = .ok [0xA0, 0, 0, 0, 0, 0, 0, 0, 0, 0, 0, 0] := rfl
  exact ⟨⟨_, packet, written_forms_stable.1 _ _ packet⟩,
    ⟨_, header, written_forms_stable.2 _ _ header⟩⟩

end Av1Transport.Rtp
