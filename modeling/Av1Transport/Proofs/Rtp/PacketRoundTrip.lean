import Av1Transport.Proofs.Rtp.ReadHeaders
import Av1Transport.Rtp.Packet

/-! Packets written and read.
Main statements: a canonical packet is read back from its bytes; a packet that was read is
written and read again without change, but for the one kind of element that cannot be written.
-/

namespace Av1Transport.Rtp

namespace Packet

-----------------------------------------------------------------------------------------
-- Packets that were written
-----------------------------------------------------------------------------------------

/-- The packet with the padding flag that its padding calls for. -/
def flagged (packet : Packet) : Packet :=
  { packet with
    header := { packet.header with padding := packet.header.paddingSize != 0 } }

/-- The packet as its bytes say it. -/
def onWire (packet : Packet) : Packet where
  header :=
    { packet.header.onWire (packet.header.paddingSize != 0) with
      paddingSize := packet.header.paddingSize }
  payload := packet.payload

/-- Padding is told from the payload in front of it by its last byte. -/
theorem splitPadding_paddingBytes (payload : Bytes) (count : UInt8)
    : splitPadding (count != 0) (payload ++ paddingBytes count) = .ok (payload, count) := by
  by_cases unpadded : count = 0
  · simp [unpadded, splitPadding, paddingBytes]
  · have padded : (count != 0) = true := bne_iff_ne.mpr unpadded
    have last : (payload ++ paddingBytes count).getLast? = some count := by
      simp [paddingBytes, unpadded]
    have length : (payload ++ paddingBytes count).length = payload.length + count.toNat := by
      rw [List.length_append, length_paddingBytes]
    rw [splitPadding, if_pos padded, last]
    dsimp only
    rw [if_neg (by omega), length, Nat.add_sub_cancel, List.take_left]

theorem toBytes_eq_ok_iff {packet : Packet} {bytes : Bytes}
    : packet.toBytes = .ok bytes
      ↔ ∃ front,
          packet.header.toBytesWith (packet.header.paddingSize != 0) = .ok front
          ∧ bytes = front ++ (packet.payload ++ paddingBytes packet.header.paddingSize) := by
  unfold toBytes
  cases packet.header.toBytesWith (packet.header.paddingSize != 0) with
  | error failure => simp
  | ok front => simp [eq_comm]

theorem length_of_toBytes {packet : Packet} {bytes : Bytes}
    (written : packet.toBytes = .ok bytes)
    : bytes.length = packet.size := by
  obtain ⟨front, header, rfl⟩ := toBytes_eq_ok_iff.mp written
  simp only [List.length_append, Header.length_of_toBytesWith header, length_paddingBytes, size,
    Nat.add_assoc]

/-- Bytes that were written spell the packet as it is on the wire. -/
theorem parse_of_toBytes {packet : Packet} {bytes : Bytes}
    (written : packet.toBytes = .ok bytes)
    : parse bytes = .ok packet.onWire := by
  obtain ⟨front, header, rfl⟩ := toBytes_eq_ok_iff.mp written
  have read := Header.overwrite_of_toBytesWith header blank.header
    (packet.payload ++ paddingBytes packet.header.paddingSize)
  rw [← Header.length_of_toBytesWith header] at read
  have split := splitPadding_paddingBytes packet.payload packet.header.paddingSize
  simp only [parse, overwrite, read, List.drop_left]
  simp only [Header.onWire, split]
  rfl

-----------------------------------------------------------------------------------------
-- Canonical packets
-----------------------------------------------------------------------------------------

/-- A packet with a canonical header, whose padding flag tells whether there is padding. -/
structure Canonical (packet : Packet) : Prop where
  header : packet.header.Canonical
  padded : packet.header.padding = (packet.header.paddingSize != 0)

/-- A packet with a canonical header is read back from its bytes with its own padding flag. -/
theorem exists_toBytes {packet : Packet} (canonical : packet.header.Canonical)
    : ∃ bytes,
        packet.toBytes = .ok bytes
        ∧ bytes.length = packet.size
        ∧ parse bytes = .ok packet.flagged := by
  obtain ⟨front, header⟩ := Header.exists_toBytesWith canonical.check
    (packet.header.paddingSize != 0)
  have written := toBytes_eq_ok_iff.mpr ⟨front, header, rfl⟩
  have read := parse_of_toBytes written
  rw [onWire, canonical.onWire_eq] at read
  exact ⟨_, written, length_of_toBytes written, read⟩

/-- A canonical packet is written in as many bytes as its size says and read back from them. -/
theorem parse_toBytes_of_canonical {packet : Packet} (canonical : packet.Canonical)
    : ∃ bytes,
        packet.toBytes = .ok bytes
        ∧ bytes.length = packet.size
        ∧ parse bytes = .ok packet := by
  obtain ⟨bytes, written, length, read⟩ := exists_toBytes canonical.header
  have unchanged : packet.flagged = packet := by rw [flagged, ← canonical.padded]
  exact ⟨bytes, written, length, unchanged ▸ read⟩

/-- Two elements with one id, whose zeros look like the ones that fill up their region, and a
payload of zeros in front of padding.
-/
def zeroed : Packet where
  header :=
    { Header.blank with
      padding := true
      hasExtension := true
      csrcs := [7, 8]
      extensionCode := 0xBEDE
      extensions := [⟨1, [0, 0]⟩, ⟨1, [0]⟩]
      paddingSize := 3 }
  payload := [0, 0]

theorem parse_toBytes_zeroed
    : zeroed.Canonical
      ∧ ∃ bytes,
          zeroed.toBytes = .ok bytes
          ∧ bytes.length = zeroed.size
          ∧ parse bytes = .ok zeroed := by
  have canonical : zeroed.Canonical :=
    { header :=
        { version_lt := by decide
          payloadType_lt := by decide
          csrcs_le := by decide
          bare := by decide
          measured := by decide
          filled := by decide
          validated := by
            simp only [ExtensionProfile.validate_eq_ok_iff]
            decide }
      padded := rfl }
  exact ⟨canonical, parse_toBytes_of_canonical canonical⟩

-----------------------------------------------------------------------------------------
-- Packets that were read
-----------------------------------------------------------------------------------------

theorem splitPadding_ok {padded : Bool} {rest payload : Bytes} {count : UInt8}
    (split : splitPadding padded rest = .ok (payload, count))
    : payload.length + count.toNat = rest.length := by
  unfold splitPadding at split
  split at split
  next =>
    split at split
    next => cases split
    next last _ =>
      split at split
      next => cases split
      next room =>
        cases split
        simp only [List.length_take]
        omega
  next =>
    cases split
    simp

/-- A packet that was read has a header as a reader leaves it and does not grow. -/
theorem parse_ok {bytes : Bytes} {packet : Packet} (read : parse bytes = .ok packet)
    : packet.header.Found ∧ packet.size ≤ bytes.length := by
  unfold parse at read
  split at read
  next taken =>
    cases read
    unfold overwrite at taken
    split at taken
    next => cases taken
    next count header front =>
      obtain ⟨found, -, bound, inside⟩ := Header.overwrite_ok front
      split at taken
      next => cases taken
      next payload paddingSize split =>
        cases taken
        have behind := splitPadding_ok split
        rw [List.length_drop] at behind
        refine ⟨found.withPadding header.padding paddingSize, ?_⟩
        show header.size + payload.length + paddingSize.toNat ≤ bytes.length
        omega
  next => cases read

/-- An element with the id of padding was found in the one-byte layout. -/
def HoldsPadding (packet : Packet) : Prop :=
  packet.header.profile = .oneByte ∧ ∃ extension ∈ packet.header.extensions, extension.id = 0

/-- A packet that was read is written in no more bytes than it was read from, and from then on
it stays as it is. The exception is an element whose first byte has the id of padding and a
length: it is found, but the layout does not hold it, so that the packet cannot be written.
-/
theorem toBytes_of_parse {bytes : Bytes} {packet : Packet} (read : parse bytes = .ok packet)
    : (¬ packet.HoldsPadding
        → ∃ written,
            packet.toBytes = .ok written
            ∧ written.length = packet.size
            ∧ packet.size ≤ bytes.length
            ∧ parse written = .ok packet.flagged
            ∧ packet.flagged.toBytes = .ok written)
      ∧ (packet.HoldsPadding
        → ∃ length, packet.toBytes = .error (.invalidExtension 0 length)) := by
  obtain ⟨found, bound⟩ := parse_ok read
  refine ⟨?_, ?_⟩
  · intro clean
    have canonical := found.canonical (fun layout extension member padding =>
      clean ⟨layout, extension, member, padding⟩)
    obtain ⟨written, first, length, again⟩ := exists_toBytes canonical
    -- the flag that was read is not looked at when the packet is written
    have same : packet.flagged.toBytes = packet.toBytes := rfl
    exact ⟨written, first, length, bound, again, same.trans first⟩
  · rintro ⟨layout, extension, member, padding⟩
    obtain ⟨length, refused⟩ := found.check_eq_error layout member padding
    exact ⟨length, by rw [toBytes, Header.toBytesWith, refused]⟩

/-- The bytes of a packet with one word of extensions in the one-byte layout. -/
def oneWordBytes (region : Bytes) : Bytes :=
  [0x90, 96, 0, 1, 0, 0, 0, 2, 0, 0, 0, 3, 0xBE, 0xDE, 0, 1] ++ region ++ [9]

/-- The packet in those bytes, if these are the elements of the region. -/
def oneWordPacket (extensions : List Extension) : Packet where
  header :=
    { Header.blank with
      hasExtension := true
      payloadType := 96
      sequenceNumber := 1
      timestamp := 2
      ssrc := 3
      extensionCode := 0xBEDE
      extensions }
  payload := [9]

theorem parse_of_toOption {bytes : Bytes} {packet : Packet}
    (value : (parse bytes).toOption = some packet)
    : parse bytes = .ok packet := by
  cases read : parse bytes with
  | error failure =>
      rw [read] at value
      cases value
  | ok found =>
      rw [read] at value
      exact congrArg Except.ok (Option.some.inj value)

/-- An element between zeros can be written again. -/
theorem toBytes_of_parse_zeros
    : parse (oneWordBytes [0, 0x10, 5, 0]) = .ok (oneWordPacket [⟨1, [5]⟩])
      ∧ ∃ written,
          (oneWordPacket [⟨1, [5]⟩]).toBytes = .ok written
          ∧ written.length = (oneWordPacket [⟨1, [5]⟩]).size
          ∧ (oneWordPacket [⟨1, [5]⟩]).size ≤ (oneWordBytes [0, 0x10, 5, 0]).length
          ∧ parse written = .ok (oneWordPacket [⟨1, [5]⟩]).flagged
          ∧ (oneWordPacket [⟨1, [5]⟩]).flagged.toBytes = .ok written := by
  have read : parse (oneWordBytes [0, 0x10, 5, 0]) = .ok (oneWordPacket [⟨1, [5]⟩]) :=
    parse_of_toOption (by decide +kernel)
  have clean : ¬ (oneWordPacket [⟨1, [5]⟩]).HoldsPadding := by
    rintro ⟨-, extension, member, padding⟩
    rw [List.mem_singleton.mp member] at padding
    cases padding
  exact ⟨read, (toBytes_of_parse read).1 clean⟩

/-- A byte with the id of padding and a length is found as an element, and cannot be written. -/
theorem toBytes_of_parse_padding_id
    : parse (oneWordBytes [1, 5, 6, 0]) = .ok (oneWordPacket [⟨0, [5, 6]⟩])
      ∧ (oneWordPacket [⟨0, [5, 6]⟩]).toBytes = .error (.invalidExtension 0 2) :=
  ⟨parse_of_toOption (by decide +kernel), rfl⟩

end Packet

end Av1Transport.Rtp
