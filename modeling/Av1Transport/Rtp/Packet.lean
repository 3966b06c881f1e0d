import Av1Transport.Rtp.Header

/-! RTP packets: a header, a payload, and padding whose last byte counts it.
Headers and packets are also read over older ones in place, one field after another. Sources and
extensions are put behind those that are there, so that nothing is kept of the older ones only because
they are taken out first. A failure keeps what was done before it.
-/

namespace Av1Transport.Rtp

/-- A packet without its padding, whose length the header knows. -/
structure Packet where
  header : Header
  payload : Bytes
  deriving Repr, DecidableEq

namespace Packet

/-- A blank header and no payload. -/
def blank : Packet :=
  ⟨.blank, []⟩

instance : Inhabited Packet :=
  ⟨blank⟩

/-- The payload and the number of padding bytes in the bytes that follow a header. -/
def splitPadding (padded : Bool) (rest : Bytes) : Except Error (Bytes × UInt8) :=
  if padded then
    match rest.getLast? with
    | none => .error .paddingTooLong
    | some count =>
        if rest.length < count.toNat then
          .error .paddingTooLong
        else
          .ok (rest.take (rest.length - count.toNat), count)
  else
    .ok (rest, 0)

/-- Takes over a packet. After a failure the payload is as it was, and the header holds what was
read. -/
def overwrite (packet : Packet) (bytes : Bytes) : Except Error Unit × Packet :=
  match packet.header.overwrite bytes with
  | (.error failure, header) => (.error failure, { packet with header })
  | (.ok count, header) =>
      match splitPadding header.padding (bytes.drop count) with
      | .error failure => (.error failure, { packet with header })
      | .ok (payload, paddingSize) => (.ok (), ⟨{ header with paddingSize }, payload⟩)

/-- The packet that the bytes spell. -/
def parse (bytes : Bytes) : Except Error Packet :=
  match blank.overwrite bytes with
  | (.ok (), packet) => .ok packet
  | (.error failure, _) => .error failure

/-- The bytes that the packet takes when written. -/
def size (packet : Packet) : Nat :=
  packet.header.size + packet.payload.length + packet.header.paddingSize.toNat

/-- Padding of the given length: zeros, and a last byte that counts all of it. -/
def paddingBytes (count : UInt8) : Bytes :=
  if count = 0 then [] else List.replicate (count.toNat - 1) 0 ++ [count]

/-- The packet's bytes. The padding flag tells whether there is padding. -/
def toBytes (packet : Packet) : Except Error Bytes :=
  match packet.header.toBytesWith (packet.header.paddingSize != 0) with
  | .error failure => .error failure
  | .ok bytes => .ok (bytes ++ packet.payload ++ paddingBytes packet.header.paddingSize)

/-- Writes the packet over the front of a buffer and gives the number of bytes written. After a
failure the buffer is as it was. -/
def writeOver (packet : Packet) (buffer : Bytes) : Except Error Nat × Bytes :=
  if buffer.length < packet.size then
    (.error .bufferTooSmall, buffer)
  else
    match packet.toBytes with
    | .error failure => (.error failure, buffer)
    | .ok bytes => (.ok packet.size, bytes ++ buffer.drop bytes.length)

/-- Writes the packet behind the bytes of a buffer. After a failure the buffer is as it was. -/
def appendTo (packet : Packet) (buffer : Bytes) : Except Error Unit × Bytes :=
  match packet.toBytes with
  | .error failure => (.error failure, buffer)
  | .ok bytes => (.ok (), buffer ++ bytes)

/-- Padding takes as many bytes as it says. -/
@[simp]
theorem length_paddingBytes (count : UInt8) : (paddingBytes count).length = count.toNat := by
  unfold paddingBytes
  split
  next h => simp [h]
  next h =>
    have : count.toNat ≠ 0 := fun h' => h (UInt8.toNat_inj.mp h')
    simp only [List.length_append, List.length_replicate, List.length_singleton]
    omega

end Packet

-----------------------------------------------------------------------------------------
-- Reading in place
-----------------------------------------------------------------------------------------

/-- What an outcome is as the result of an action in place: a failure has a state too. -/
def resultOf {α σ : Type} : Except Error α × σ → EStateM.Result Error σ α
  | (.ok value, state) => .ok value state
  | (.error failure, state) => .error failure state

namespace Header

/-- Takes out what not every packet has. -/
def clearInPlace : EStateM Error Header Unit := do
  modify fun header => { header with csrcs := [] }
  modify fun header => { header with extensions := [] }
  modify fun header => { header with extensionCode := 0 }
  modify fun header => { header with paddingSize := 0 }

/-- Sets the fields of the fixed bytes. Gives the number of contributing sources that follow and
the bytes that are left. -/
def readFixedInPlace : Bytes → EStateM Error Header (Nat × Bytes)
  | b0 :: b1 :: q1 :: q0 :: t3 :: t2 :: t1 :: t0 :: s3 :: s2 :: s1 :: s0 :: rest => do
      modify fun header => { header with version := bitField b0 64 4 }
      modify fun header => { header with padding := bitSet b0 32 }
      modify fun header => { header with hasExtension := bitSet b0 16 }
      modify fun header => { header with marker := bitSet b1 128 }
      modify fun header => { header with payloadType := bitField b1 1 128 }
      modify fun header => { header with sequenceNumber := word16 q1 q0 }
      modify fun header => { header with timestamp := word32 t3 t2 t1 t0 }
      modify fun header => { header with ssrc := word32 s3 s2 s1 s0 }
      pure ((bitField b0 1 16).toNat, rest)
  | _ => throw .shortHeader

/-- One more contributing source behind the others. -/
def pushCsrc (csrc : UInt32) (header : Header) : Header :=
  { header with csrcs := header.csrcs ++ [csrc] }

/-- One more extension behind the others. -/
def pushExtension (extension : Extension) (header : Header) : Header :=
  { header with extensions := header.extensions ++ [extension] }

/-- Puts contributing sources behind those that are there, and gives the bytes that are left. -/
def readCsrcsInPlace (count : Nat) (bytes : Bytes) : EStateM Error Header Bytes :=
  match readWords count bytes with
  | none => throw .shortHeader
  | some (csrcs, rest) => do
      csrcs.forM fun csrc => modify (pushCsrc csrc)
      pure rest

/-- Sets the layout and puts extensions behind those that are there, up to the first that cannot
be read. Gives the number of bytes that they take. -/
def readExtensionsInPlace : Bytes → EStateM Error Header Nat
  | c1 :: c0 :: n1 :: n0 :: rest => do
      modify fun header => { header with extensionCode := word16 c1 c0 }
      let length := 4 * (word16 n1 n0).toNat
      match splitExact? length rest with
      | none => throw .shortExtension
      | some (bytes, _) =>
          let region := ExtensionRegion.read (.ofCode (word16 c1 c0)) bytes
          region.elements.forM fun extension => modify (pushExtension extension)
          match region.failure with
          | some failure => throw failure
          | none => pure (4 + length)
  | _ => throw .shortExtension

/-- Reads the header at the front of the bytes and gives the number of bytes it takes. -/
def readInPlace (bytes : Bytes) : EStateM Error Header Nat := do
  clearInPlace
  let (count, rest) ← readFixedInPlace bytes
  let rest ← readCsrcsInPlace count rest
  if (← get).hasExtension then
    let length ← readExtensionsInPlace rest
    pure (fixedLength + 4 * count + length)
  else
    pure (fixedLength + 4 * count)

end Header

namespace Packet

/-- Does to the header of a packet what is done to a header. -/
def onHeader {α : Type} (action : EStateM Error Header α) : EStateM Error Packet α :=
  fun packet =>
    match action.run packet.header with
    | .ok value header => .ok value { packet with header }
    | .error failure header => .error failure { packet with header }

/-- Takes the payload from the bytes behind the header, and the size of the padding from the last
of them. The payload is set last, when nothing can fail any more. -/
def readPayloadInPlace (rest : Bytes) : EStateM Error Packet Unit := do
  if (← get).header.padding then
    match rest.getLast? with
    | none => throw .paddingTooLong
    | some size =>
        if rest.length < size.toNat then
          throw .paddingTooLong
        else
          onHeader (modify fun header => { header with paddingSize := size })
          modify fun packet => { packet with payload := rest.take (rest.length - size.toNat) }
  else
    modify fun packet => { packet with payload := rest }

/-- Reads a whole packet. -/
def readInPlace (bytes : Bytes) : EStateM Error Packet Unit := do
  let count ← onHeader (Header.readInPlace bytes)
  readPayloadInPlace (bytes.drop count)

end Packet

end Av1Transport.Rtp
