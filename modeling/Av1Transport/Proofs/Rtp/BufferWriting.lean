import Av1Transport.Proofs.Rtp.PacketRoundTrip
import Av1Transport.Rtp.BufferWriter

/-! Headers and packets in buffers.
Whether they are written into a buffer of their own, over the front of one or behind its bytes, the
bytes are the same, all of them fit, and a buffer is not touched where they cannot be written.
-/

namespace Av1Transport.Rtp

-----------------------------------------------------------------------------------------
-- Pieces and all bytes at once
-----------------------------------------------------------------------------------------

/-- An element that its layout can hold is put down like all of its bytes at once. -/
theorem ExtensionProfile.putElement?_eq {profile : ExtensionProfile} {extension : Extension}
    (accepted : profile.accepts extension.id extension.payload.length = true) (sink : Sink)
    : profile.putElement? sink extension = sink.put? (profile.elementBytes extension) := by
  cases profile with
  | oneByte =>
      have told : ¬ extension.payload.length < 1 := by
        simp only [accepts, Bool.and_eq_true, decide_eq_true_eq] at accepted
        omega
      rw [putElement?, if_neg told]
      exact sink.bind_put? [_] extension.payload
  | twoByte => exact sink.bind_put? [_, _] extension.payload
  | raw code => rfl

namespace Header

theorem putExtensions?_eq {header : Header}
    (accepted
      : header.hasExtension = true
        → ∀ extension ∈ header.extensions,
            header.profile.accepts extension.id extension.payload.length = true)
    (sink : Sink)
    : header.putExtensions? sink = sink.put? header.extensionBytes := by
  unfold putExtensions? extensionBytes
  cases extended : header.hasExtension with
  | false => simp
  | true =>
      have elements := Sink.foldlM_put?
        (fun extension member sink =>
          ExtensionProfile.putElement?_eq (accepted extended extension member) sink)
      simp only [if_true, Option.bind_eq_bind, elements, Sink.bind_put?, List.append_assoc]

/-- The parts of a header that can be written are put down like all of its bytes at once. -/
theorem putParts?_eq {header : Header} (valid : header.check = .ok ()) (padding : Bool)
    (sink : Sink)
    : header.putParts? padding sink
      = sink.put?
          (header.fixedBytes padding ++ header.csrcs.flatMap word32Bytes
            ++ header.extensionBytes) := by
  have fixed (sink : Sink)
      : (header.fixedBytes padding).foldlM (fun sink byte => sink.put? [byte]) sink
        = sink.put? (header.fixedBytes padding) := by
    rw [Sink.foldlM_put? (fun _ _ _ => rfl), List.flatMap_singleton']
  have sources (sink : Sink)
      : header.csrcs.foldlM (fun sink csrc => sink.put? (word32Bytes csrc)) sink
        = sink.put? (header.csrcs.flatMap word32Bytes) :=
    Sink.foldlM_put? (fun _ _ _ => rfl) sink
  have extensions := putExtensions?_eq
    (fun extended => ((header.check_eq_ok_iff.mp valid).2 extended).1)
  simp only [putParts?, Option.bind_eq_bind, fixed, sources, extensions, Sink.bind_put?,
    List.append_assoc]

end Header

theorem Packet.putPayload?_eq (packet : Packet) (sink : Sink)
    : packet.putPayload? sink
      = sink.put? (packet.payload ++ paddingBytes packet.header.paddingSize) := by
  have padding (count : UInt8) (sink : Sink)
      : putPadding? count sink = sink.put? (paddingBytes count) := by
    unfold putPadding? paddingBytes
    split
    next => simp
    next => exact sink.bind_put? _ [count]
  simp only [putPayload?, Option.bind_eq_bind, padding, Sink.bind_put?]

-----------------------------------------------------------------------------------------
-- Writers and what they write
-----------------------------------------------------------------------------------------

/-- The writer puts down all of the bytes at once, in whatever buffer, or refuses to write and
leaves the buffer as it was.
-/
def Writes (write : Sink → Option (Except Error Unit × Sink)) (result : Except Error Bytes)
    : Prop :=
  ∀ sink,
    write sink
      = match result with
        | .error failure => some (.error failure, sink)
        | .ok bytes => (sink.put? bytes).map fun sink => (.ok (), sink)

theorem Header.writes (header : Header) (padding : Bool)
    : Writes (header.writeTo? padding) (header.toBytesWith padding) := by
  intro sink
  unfold writeTo? toBytesWith
  cases valid : header.check with
  | error failure => rfl
  | ok =>
      dsimp only
      rw [putParts?_eq valid]
      cases sink.put? _ <;> rfl

/-- A packet is written where its header is. Witness: the pieces of both are put down like one. -/
theorem Packet.writes (packet : Packet) : Writes packet.writeTo? packet.toBytes := by
  intro sink
  have front := packet.header.writes (packet.header.paddingSize != 0) sink
  unfold writeTo? toBytes
  rw [front]
  cases packet.header.toBytesWith (packet.header.paddingSize != 0) with
  | error failure => rfl
  | ok bytes =>
      dsimp only
      rw [List.append_assoc, ← Sink.bind_put?]
      cases sink.put? bytes with
      | none => rfl
      | some sink =>
        simp only [Option.map_some, putPayload?_eq, Option.bind_some]
        cases sink.put? _ <;> rfl

-----------------------------------------------------------------------------------------
-- Buffers that are written into
-----------------------------------------------------------------------------------------

/-- What becomes of a buffer that is written over with bytes of the length foretold. -/
def overFront (size : Nat) (result : Except Error Bytes) (buffer : Bytes)
    : Except Error Nat × Bytes :=
  if buffer.length < size then
    (.error .bufferTooSmall, buffer)
  else
    match result with
    | .error failure => (.error failure, buffer)
    | .ok bytes => (.ok size, bytes ++ buffer.drop bytes.length)

/-- What becomes of a buffer that is written behind. -/
def behindEnd (result : Except Error Bytes) (buffer : Bytes) : Except Error Unit × Bytes :=
  match result with
  | .error failure => (.error failure, buffer)
  | .ok bytes => (.ok (), buffer ++ bytes)

section Entries

variable {write : Sink → Option (Except Error Unit × Sink)} {result : Except Error Bytes}

theorem Writes.alone (writes : Writes write result) : writeAlone? write = some result := by
  rw [writeAlone?, writes]
  cases result <;> rfl

theorem Writes.behind (writes : Writes write result) (buffer : Bytes)
    : writeBehind? write buffer = some (behindEnd result buffer) := by
  rw [writeBehind?, writes]
  cases result <;> rfl

/-- What was foretold is just enough room. -/
theorem Writes.front (writes : Writes write result) {size : Nat}
    (sized : ∀ bytes, result = .ok bytes → bytes.length = size) (buffer : Bytes)
    : writeFront? write size buffer = some (overFront size result buffer) := by
  unfold overFront
  rw [writeFront?, splitExact?_eq]
  by_cases short : buffer.length < size
  · rw [if_neg (Nat.not_le_of_lt short), if_pos short]
  · have enough := Nat.le_of_not_lt short
    rw [if_pos enough, if_neg short]
    dsimp only
    rw [writes]
    cases result with
    | error failure => simp [Sink.bytes]
    | ok bytes =>
        have length := sized bytes rfl
        simp [Sink.put?, Sink.bytes, length, enough]

end Entries

/-- Writing over the front of a buffer succeeds exactly where there is room for the size foretold
and the bytes can be written. Then these take the front of the buffer, as many as foretold, and
nothing else changes; otherwise nothing changes at all, and too little room is the first reason.
-/
structure WrittenFront (size : Nat) (result : Except Error Bytes) (buffer : Bytes)
    (outcome : Except Error Nat × Bytes)
    : Prop where
  succeeds
    : (∃ count, outcome.1 = .ok count)
      ↔ size ≤ buffer.length ∧ ∃ bytes, result = .ok bytes
  written
    : ∀ count bytes,
        outcome.1 = .ok count
        → result = .ok bytes
        → count = bytes.length
          ∧ count = size
          ∧ outcome.2.take count = bytes
          ∧ outcome.2.drop count = buffer.drop count
          ∧ outcome.2.length = buffer.length
  short : buffer.length < size → outcome = (.error .bufferTooSmall, buffer)
  refused
    : ∀ failure,
        size ≤ buffer.length → result = .error failure → outcome = (.error failure, buffer)

/-- Writing behind the bytes of a buffer succeeds where the bytes can be written. -/
structure WrittenBehind (result : Except Error Bytes) (buffer : Bytes)
    (outcome : Except Error Unit × Bytes)
    : Prop where
  written : ∀ bytes, result = .ok bytes → outcome = (.ok (), buffer ++ bytes)
  refused : ∀ failure, result = .error failure → outcome = (.error failure, buffer)

theorem writtenFront {size : Nat} {result : Except Error Bytes}
    (sized : ∀ bytes, result = .ok bytes → bytes.length = size) (buffer : Bytes)
    : WrittenFront size result buffer (overFront size result buffer) := by
  unfold overFront
  by_cases short : buffer.length < size
  · rw [if_pos short]
    exact {
      succeeds := by simp [Nat.not_le_of_lt short]
      written := by simp
      short := fun _ => rfl
      refused := fun _ enough => absurd short (Nat.not_lt_of_le enough)
    }
  · have enough := Nat.le_of_not_lt short
    rw [if_neg short]
    cases result with
    | error failure =>
        exact {
          succeeds := by simp
          written := by simp
          short := fun small => absurd small short
          refused := by
            rintro _ _ ⟨⟩
            rfl
        }
    | ok bytes =>
        have length := sized bytes rfl
        exact {
          succeeds := by simp [enough]
          written := by
            rintro count _ ⟨⟩ ⟨⟩
            refine ⟨length.symm, rfl, ?_, ?_, ?_⟩
            · exact List.take_left' length
            · exact (List.drop_left' length).trans (congrArg (buffer.drop ·) length)
            · rw [List.length_append, List.length_drop]
              omega
          short := fun small => absurd small short
          refused := by simp
        }

theorem writtenBehind (result : Except Error Bytes) (buffer : Bytes)
    : WrittenBehind result buffer (behindEnd result buffer) := by
  constructor
  · rintro bytes rfl
    rfl
  · rintro failure rfl
    rfl

/-- However a packet or a header is written, the bytes are the same, and no piece of them runs past
the end of its buffer. Where there is too little room, or the bytes cannot be written, the buffer
is left as it was.
-/
theorem writers_agree
    : (∀ packet : Packet,
          writeAlone? packet.writeTo? = some packet.toBytes
          ∧ ∀ buffer,
              writeFront? packet.writeTo? packet.size buffer = some (packet.writeOver buffer)
              ∧ WrittenFront packet.size packet.toBytes buffer (packet.writeOver buffer)
              ∧ writeBehind? packet.writeTo? buffer = some (packet.appendTo buffer)
              ∧ WrittenBehind packet.toBytes buffer (packet.appendTo buffer))
      ∧ ∀ header : Header,
          writeAlone? (header.writeTo? header.padding) = some header.toBytes
          ∧ ∀ buffer,
              writeFront? (header.writeTo? header.padding) header.size buffer
                = some (header.writeOver buffer)
              ∧ WrittenFront header.size header.toBytes buffer (header.writeOver buffer) := by
  refine ⟨?packets, ?headers⟩
  case packets =>
    intro packet
    have sized (bytes : Bytes) (written : packet.toBytes = .ok bytes) :=
      Packet.length_of_toBytes written
    have appended (buffer : Bytes) : packet.appendTo buffer = behindEnd packet.toBytes buffer := by
      unfold Packet.appendTo behindEnd
      cases packet.toBytes <;> rfl
    refine ⟨packet.writes.alone, fun buffer =>
      ⟨packet.writes.front sized buffer, writtenFront sized buffer, ?_, ?_⟩⟩
    · rw [appended]
      exact packet.writes.behind buffer
    · rw [appended]
      exact writtenBehind packet.toBytes buffer
  case headers =>
    intro header
    have writes := header.writes header.padding
    have sized (bytes : Bytes) (written : header.toBytes = .ok bytes) :=
      Header.length_of_toBytesWith written
    exact ⟨writes.alone, fun buffer => ⟨writes.front sized buffer, writtenFront sized buffer⟩⟩

/-- The last byte would run past the end if one byte less were foretold. -/
example : writeFront? (Header.blank.writeTo? false) 11 (List.replicate 16 0xEE) = none :=
  rfl

end Av1Transport.Rtp
