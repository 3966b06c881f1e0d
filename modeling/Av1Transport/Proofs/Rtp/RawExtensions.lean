import Av1Transport.Proofs.Rtp.ExtensionEdits

/-! Raw extensions over the wire.
The raw layout tells its length in words and in no other way. Main statement: a raw extension is
received as it was set exactly where it fills whole words and is not empty.
-/

namespace Av1Transport.Rtp.Header

/-- What is received of a raw extension: its payload and the zeros that fill up the last word, or
nothing if the payload is empty.
-/
def receivedRaw (payload : Bytes) : Option Bytes :=
  if payload = [] then
    none
  else
    some (payload ++ List.replicate (regionPadding payload.length) 0)

theorem receivedRaw_eq_some_iff (payload : Bytes)
    : receivedRaw payload = some payload ↔ payload ≠ [] ∧ payload.length % 4 = 0 := by
  unfold receivedRaw
  by_cases empty : payload = []
  · simp [empty]
  · have full : regionPadding payload.length = 0 ↔ payload.length % 4 = 0 := by
      unfold regionPadding
      omega
    simp [empty, full]

/-- The first extension that is set in a raw layout is the only one and stays raw. -/
theorem setExtension_raw {before after : Header} {payload : Bytes}
    (extended : before.hasExtension = true) (notOne : before.extensionCode ≠ 0xBEDE)
    (notTwo : before.extensionCode ≠ 0x1000) (none : before.extensions = [])
    (set : before.setExtension 0 payload = .ok after)
    : after = { before with extensions := [⟨0, payload⟩] }
      ∧ after.profile = .raw before.extensionCode := by
  have raw := profile_eq_raw notOne notTwo
  obtain ⟨-, same⟩ := setExtension_ok set
  rw [layoutFor, if_pos extended, raw, none, ← extended] at same
  have single : after = { before with extensions := [⟨0, payload⟩] } := same
  exact ⟨single, by rw [single]; exact raw⟩

/-- A raw extension that was set is received with the zeros that fill up its last word, so it is
received as it was set exactly where it fills whole words and is not empty. Witness: the reader
finds one element that is the whole region.
-/
theorem raw_extension_received_iff {before after : Header} {payload bytes : Bytes}
    (extended : before.hasExtension = true) (notOne : before.extensionCode ≠ 0xBEDE)
    (notTwo : before.extensionCode ≠ 0x1000) (none : before.extensions = [])
    (set : before.setExtension 0 payload = .ok after) (written : after.toBytes = .ok bytes)
    (rest : Bytes)
    : ∃ received,
        parse (bytes ++ rest) = .ok (received, bytes.length)
        ∧ received.extension? 0 = receivedRaw payload
        ∧ (received.extension? 0 = some payload
          ↔ payload ≠ [] ∧ payload.length % 4 = 0) := by
  obtain ⟨single, raw⟩ := setExtension_raw extended notOne notTwo none set
  have on : after.hasExtension = true := by rw [single]; exact extended
  have region : after.region = payload ++ List.replicate (regionPadding payload.length) 0 :=
    region_of_raw raw (by rw [single]; exact List.flatMap_singleton _ _)
  have found : (after.onWire after.padding).extension? 0 = receivedRaw payload := by
    have carried : (after.onWire after.padding).extensions
        = if after.region = [] then [] else [⟨0, after.region⟩] :=
      (if_pos on).trans (carriedExtensions_of_raw raw)
    have still : (after.onWire after.padding).hasExtension = true := on
    rw [extension?, if_pos still, carried, region, receivedRaw]
    by_cases empty : payload = []
    · simp [empty, regionPadding]
    · simp [empty]
  refine ⟨after.onWire after.padding, ?_, found, ?_⟩
  · rw [parse_of_toBytes written, length_of_toBytesWith written]
  · rw [found]
    exact receivedRaw_eq_some_iff payload

/-- A header whose extensions are in a raw layout, with no extension yet. -/
def rawHeader : Header :=
  { blank with hasExtension := true, extensionCode := 0x1234 }

/-- The bytes of that header with a raw extension of one word. -/
def rawHeaderBytes : Bytes :=
  [0x90, 0, 0, 0, 0, 0, 0, 0, 0, 0, 0, 0, 0x12, 0x34, 0, 1, 0xAA, 0, 0, 0]

/-- A whole word is received as it was set. -/
theorem raw_extension_received_word
    : ∃ after received,
        rawHeader.setExtension 0 [0xAA, 0, 0, 0] = .ok after
        ∧ after.toBytes = .ok rawHeaderBytes
        ∧ parse (rawHeaderBytes ++ [0x55]) = .ok (received, 20)
        ∧ received.extension? 0 = some [0xAA, 0, 0, 0] := by
  have set : rawHeader.setExtension 0 [0xAA, 0, 0, 0]
      = .ok { rawHeader with extensions := [⟨0, [0xAA, 0, 0, 0]⟩] } := rfl
  have written : ({ rawHeader with extensions := [⟨0, [0xAA, 0, 0, 0]⟩] } : Header).toBytes
      = .ok rawHeaderBytes := rfl
  obtain ⟨received, read, -, whole⟩ :=
    raw_extension_received_iff rfl (by decide) (by decide) rfl set written [0x55]
  exact ⟨_, received, set, written, read, whole.mpr (by decide)⟩

/-- A single byte can be set and written, and is received with three zeros behind it. An empty
payload can be set and written too, and no extension is received.
-/
theorem raw_extension_received_padded
    : (∃ after received,
          rawHeader.setExtension 0 [0xAA] = .ok after
          ∧ after.toBytes = .ok rawHeaderBytes
          ∧ parse rawHeaderBytes = .ok (received, 20)
          ∧ received.extension? 0 = some [0xAA, 0, 0, 0]
          ∧ received.extension? 0 ≠ some [0xAA])
      ∧ ∃ after bytes received,
          rawHeader.setExtension 0 [] = .ok after
          ∧ after.toBytes = .ok bytes
          ∧ parse bytes = .ok (received, 16)
          ∧ received.extension? 0 = none := by
  refine ⟨?single, ?empty⟩
  case single =>
    have written : ({ rawHeader with extensions := [⟨0, [0xAA]⟩] } : Header).toBytes
        = .ok rawHeaderBytes := rfl
    exact ⟨_, _, rfl, written, parse_of_toBytes written [], rfl, by decide⟩
  case empty =>
    have written : ({ rawHeader with extensions := [⟨0, []⟩] } : Header).toBytes
        = .ok (rawHeaderBytes.take 14 ++ [0, 0]) := rfl
    exact ⟨_, _, _, rfl, written, parse_of_toBytes written [], rfl⟩

end Av1Transport.Rtp.Header
