import Av1Transport.Bytes
import Av1Transport.Rtp.Packet

/-! Writing headers and packets into buffers piece by piece.
Pieces that are put down one after another are put down like all of their bytes at once, also where
they do not fit. There is no result where a piece would run past the end of its buffer, or where a
length cannot be told.
-/

namespace Av1Transport

/-- A buffer that is being written. -/
inductive Sink where
  /-- A buffer that grows with what is written. -/
  | growing (written : Bytes)
  /-- A buffer of a fixed length, with the bytes that are still to be written over. -/
  | fixed (written room : Bytes)
  deriving Repr, DecidableEq

namespace Sink

/-- All bytes of the buffer, the old ones behind those that were written. -/
def bytes : Sink → Bytes
  | growing written => written
  | fixed written room => written ++ room

/-- Puts bytes down behind those that were written, unless they run past the end. -/
def put? : Sink → Bytes → Option Sink
  | growing written, bytes => some (growing (written ++ bytes))
  | fixed written room, bytes =>
      if bytes.length ≤ room.length then
        some (fixed (written ++ bytes) (room.drop bytes.length))
      else
        none

@[simp]
theorem put?_nil (sink : Sink) : sink.put? [] = some sink := by
  cases sink <;> simp [put?]

/-- Two pieces fit one after the other where they fit together. -/
theorem bind_put? (sink : Sink) (front back : Bytes)
    : (sink.put? front).bind (fun sink => sink.put? back) = sink.put? (front ++ back) := by
  cases sink with
  | growing written => simp [put?]
  | fixed written room =>
      simp only [put?, List.length_append]
      by_cases enough : front.length ≤ room.length
      · rw [if_pos enough, Option.bind_some]
        simp only [List.length_drop, List.drop_drop, List.append_assoc]
        by_cases both : front.length + back.length ≤ room.length
        · rw [if_pos both, if_pos (by omega)]
        · rw [if_neg both, if_neg (by omega)]
      · rw [if_neg enough, if_neg (by omega), Option.bind_none]

/-- Items are put down one by one like all of their bytes at once, by induction on them. -/
theorem foldlM_put? {α : Type} {write : Sink → α → Option Sink} {encode : α → Bytes}
    {items : List α} (puts : ∀ item ∈ items, ∀ sink, write sink item = sink.put? (encode item))
    (sink : Sink)
    : items.foldlM write sink = sink.put? (items.flatMap encode) := by
  induction items generalizing sink with
  | nil => simp
  | cons item items ih =>
      have later := ih (fun next member => puts next (List.mem_cons_of_mem item member))
      rw [List.foldlM_cons, puts item List.mem_cons_self, List.flatMap_cons, ← bind_put?]
      exact congrArg (Option.bind _) (funext later)

end Sink

end Av1Transport

namespace Av1Transport.Rtp

/-- Puts an element down: what stands in front of its payload, and the payload. The one-byte
layout tells one less than the length of a payload. -/
def ExtensionProfile.putElement? (profile : ExtensionProfile) (sink : Sink)
    (extension : Extension)
    : Option Sink :=
  match profile with
  | oneByte =>
      if extension.payload.length < 1 then
        none
      else do
        let first := extension.id.toNat * 16 + (extension.payload.length - 1) % 16
        let sink ← sink.put? [UInt8.ofNat first]
        sink.put? extension.payload
  | twoByte => do
      let sink ← sink.put? [extension.id, UInt8.ofNat extension.payload.length]
      sink.put? extension.payload
  | raw _ => sink.put? extension.payload

namespace Header

/-- Puts down the extensions: their layout, their length in words, the elements one by one, and
the padding. -/
def putExtensions? (header : Header) (sink : Sink) : Option Sink :=
  if header.hasExtension then do
    let sink ← sink.put? (word16Bytes header.extensionCode)
    let sink ← sink.put? (word16Bytes (UInt16.ofNat header.extensionWords))
    let sink ← header.extensions.foldlM header.profile.putElement? sink
    sink.put? (List.replicate (regionPadding header.extensionsLength) 0)
  else
    some sink

/-- Puts down the fixed bytes, the contributing sources and the extensions. -/
def putParts? (header : Header) (padding : Bool) (sink : Sink) : Option Sink := do
  let sink ← (header.fixedBytes padding).foldlM (fun sink byte => sink.put? [byte]) sink
  let sink ← header.csrcs.foldlM (fun sink csrc => sink.put? (word32Bytes csrc)) sink
  header.putExtensions? sink

/-- Writes the header into a buffer, with the padding flag as told. What cannot be written is
refused before the first byte. -/
def writeTo? (header : Header) (padding : Bool) (sink : Sink)
    : Option (Except Error Unit × Sink) :=
  match header.check with
  | .error failure => some (.error failure, sink)
  | .ok () =>
      match header.putParts? padding sink with
      | none => none
      | some sink => some (.ok (), sink)

end Header

namespace Packet

/-- Puts down padding of the given length. -/
def putPadding? (count : UInt8) (sink : Sink) : Option Sink :=
  if count = 0 then
    some sink
  else do
    let sink ← sink.put? (List.replicate (count.toNat - 1) 0)
    sink.put? [count]

/-- Puts down the payload and the padding. -/
def putPayload? (packet : Packet) (sink : Sink) : Option Sink := do
  let sink ← sink.put? packet.payload
  putPadding? packet.header.paddingSize sink

/-- Writes the packet into a buffer, its header first. -/
def writeTo? (packet : Packet) (sink : Sink) : Option (Except Error Unit × Sink) :=
  match packet.header.writeTo? (packet.header.paddingSize != 0) sink with
  | none => none
  | some (.error failure, sink) => some (.error failure, sink)
  | some (.ok (), sink) =>
      match packet.putPayload? sink with
      | none => none
      | some sink => some (.ok (), sink)

end Packet

-----------------------------------------------------------------------------------------
-- Buffers to write into
-----------------------------------------------------------------------------------------

section Entries

variable (write : Sink → Option (Except Error Unit × Sink))

/-- Writes to a buffer of its own. -/
def writeAlone? : Option (Except Error Bytes) :=
  match write (.growing []) with
  | none => none
  | some (.error failure, _) => some (.error failure)
  | some (.ok (), sink) => some (.ok sink.bytes)

/-- Writes over the front of a buffer, which is cut to the length foretold, and gives that length
and the whole buffer as it is left. -/
def writeFront? (size : Nat) (buffer : Bytes) : Option (Except Error Nat × Bytes) :=
  match splitExact? size buffer with
  | none => some (.error .bufferTooSmall, buffer)
  | some (front, back) =>
      match write (.fixed [] front) with
      | none => none
      | some (.error failure, sink) => some (.error failure, sink.bytes ++ back)
      | some (.ok (), sink) => some (.ok size, sink.bytes ++ back)

/-- Writes behind the bytes of a buffer and gives the buffer as it is left. -/
def writeBehind? (buffer : Bytes) : Option (Except Error Unit × Bytes) :=
  match write (.growing buffer) with
  | none => none
  | some (outcome, sink) => some (outcome, sink.bytes)

end Entries

end Av1Transport.Rtp
