import Av1Transport.Rtp.Extension
import Av1Transport.Bytes

/-! The RTP header: twelve fixed bytes, the contributing sources and the header extensions.
A header is read over an older one: after a failure it holds what was read up to there, and what
cannot have been read is either cleared or, where even the fixed bytes are missing, left as it was.
All is checked before the first byte is written. Its extensions work as a map from ids to payloads, in
the order in which they are written.
-/

namespace Av1Transport.Rtp

/-- The bytes that every header has. -/
def fixedLength : Nat := 12

/-- The most contributing sources that a header can carry. -/
def maxCsrcs : Nat := 15

/-- A header. Fields are kept as given, also when too wide to be written. -/
structure Header where
  version : UInt8
  /-- The padding flag as read. Padding itself is given by `paddingSize`. -/
  padding : Bool
  hasExtension : Bool
  marker : Bool
  payloadType : UInt8
  sequenceNumber : UInt16
  timestamp : UInt32
  ssrc : UInt32
  csrcs : List UInt32
  extensionCode : UInt16
  extensions : List Extension
  /-- The bytes of padding at the end of the packet, with the one that counts them. -/
  paddingSize : UInt8
  deriving Repr, DecidableEq

namespace Header

/-- Version 2, and nothing else set. -/
def blank : Header where
  version := 2
  padding := false
  hasExtension := false
  marker := false
  payloadType := 0
  sequenceNumber := 0
  timestamp := 0
  ssrc := 0
  csrcs := []
  extensionCode := 0
  extensions := []
  paddingSize := 0

instance : Inhabited Header :=
  ⟨blank⟩

/-- The layout of the extensions. -/
def profile (header : Header) : ExtensionProfile :=
  .ofCode header.extensionCode

/-- The bytes of all extension elements, without any padding. -/
def extensionsLength (header : Header) : Nat :=
  header.profile.elementsLength header.extensions

/-- The bytes that the header takes when written. -/
def size (header : Header) : Nat :=
  fixedLength + 4 * header.csrcs.length
    + if header.hasExtension then
        4 + header.extensionsLength + regionPadding header.extensionsLength
      else
        0

-----------------------------------------------------------------------------------------
-- Reading over an older header
-----------------------------------------------------------------------------------------

/-- The header without the parts that not every packet has. -/
def clear (header : Header) : Header :=
  { header with csrcs := [], extensionCode := 0, extensions := [], paddingSize := 0 }

/-- Takes over the fixed bytes. Gives the header, the number of contributing sources that
follow and the bytes that are left. -/
def readFixed? (header : Header) : Bytes → Option (Header × Nat × Bytes)
  | b0 :: b1 :: q1 :: q0 :: t3 :: t2 :: t1 :: t0 :: s3 :: s2 :: s1 :: s0 :: rest =>
      some
        ({ header with
            version := bitField b0 64 4
            padding := bitSet b0 32
            hasExtension := bitSet b0 16
            marker := bitSet b1 128
            payloadType := bitField b1 1 128
            sequenceNumber := word16 q1 q0
            timestamp := word32 t3 t2 t1 t0
            ssrc := word32 s3 s2 s1 s0 },
          (bitField b0 1 16).toNat,
          rest)
  | _ => none

/-- Takes over the extensions and gives the number of bytes they take. -/
def readExtensions (header : Header) : Bytes → Except Error Nat × Header
  | c1 :: c0 :: n1 :: n0 :: rest =>
      let coded := { header with extensionCode := word16 c1 c0 }
      let length := 4 * (word16 n1 n0).toNat
      match splitExact? length rest with
      | none => (.error .shortExtension, coded)
      | some (bytes, _) =>
          let region := ExtensionRegion.read coded.profile bytes
          let filled := { coded with extensions := region.elements }
          match region.failure with
          | some failure => (.error failure, filled)
          | none => (.ok (4 + length), filled)
  | _ => (.error .shortExtension, header)

/-- Takes over the header at the front of the bytes and gives the number of bytes it takes. -/
def overwrite (header : Header) (bytes : Bytes) : Except Error Nat × Header :=
  match header.clear.readFixed? bytes with
  | none => (.error .shortHeader, header.clear)
  | some (fixed, count, rest) =>
      match readWords count rest with
      | none => (.error .shortHeader, fixed)
      | some (csrcs, rest) =>
          let sourced := { fixed with csrcs }
          if sourced.hasExtension then
            match sourced.readExtensions rest with
            | (.error failure, filled) => (.error failure, filled)
            | (.ok length, filled) => (.ok (fixedLength + 4 * count + length), filled)
          else
            (.ok (fixedLength + 4 * count), sourced)

/-- The header at the front of the bytes, and how many bytes it takes. -/
def parse (bytes : Bytes) : Except Error (Header × Nat) :=
  match blank.overwrite bytes with
  | (.ok count, header) => .ok (header, count)
  | (.error failure, _) => .error failure

/-- Where the fixed bytes are all there, nothing of the older header is left. -/
theorem readFixed?_clear (header other : Header) {bytes : Bytes}
    (h : fixedLength ≤ bytes.length)
    : header.clear.readFixed? bytes = other.clear.readFixed? bytes := by
  match bytes, h with
  | _ :: _ :: _ :: _ :: _ :: _ :: _ :: _ :: _ :: _ :: _ :: _ :: _, _ => rfl

-----------------------------------------------------------------------------------------
-- Writing
-----------------------------------------------------------------------------------------

/-- The number of words that the extension region takes. -/
def extensionWords (header : Header) : Nat :=
  (header.extensionsLength + regionPadding header.extensionsLength) / 4

/-- Fails with the first thing that the header's bytes could not say: too many contributing
sources, an element that its layout cannot hold, or elements beyond the length field. -/
def check (header : Header) : Except Error Unit :=
  if maxCsrcs < header.csrcs.length then
    .error (.tooManyCsrcs header.csrcs.length)
  else if header.hasExtension then
    match header.extensions.find? fun extension =>
        !header.profile.accepts extension.id extension.payload.length with
    | some extension => .error (.invalidExtension extension.id extension.payload.length)
    | none =>
        if 65535 < header.extensionWords then
          .error (.invalidExtension 0 header.extensionsLength)
        else
          .ok ()
  else
    .ok ()

/-- The fixed bytes, every field cut to its bits. -/
def fixedBytes (header : Header) (padding : Bool) : Bytes :=
  UInt8.ofNat (header.version.toNat % 4 * 64 + flagWeight padding 32
    + flagWeight header.hasExtension 16 + header.csrcs.length)
  :: UInt8.ofNat (flagWeight header.marker 128 + header.payloadType.toNat % 128)
  :: (word16Bytes header.sequenceNumber ++ word32Bytes header.timestamp
    ++ word32Bytes header.ssrc)

/-- The bytes of the extensions: their layout, their length in words, the elements and the
padding. -/
def extensionBytes (header : Header) : Bytes :=
  if header.hasExtension then
    word16Bytes header.extensionCode ++ word16Bytes (UInt16.ofNat header.extensionWords)
      ++ header.extensions.flatMap header.profile.elementBytes
      ++ List.replicate (regionPadding header.extensionsLength) 0
  else
    []

/-- The header's bytes, with the padding flag as told. -/
def toBytesWith (header : Header) (padding : Bool) : Except Error Bytes :=
  match header.check with
  | .error failure => .error failure
  | .ok () =>
      .ok (header.fixedBytes padding ++ header.csrcs.flatMap word32Bytes ++ header.extensionBytes)

/-- The header's bytes. -/
def toBytes (header : Header) : Except Error Bytes :=
  header.toBytesWith header.padding

/-- Writes the header over the front of a buffer and gives the number of bytes written. After a
failure the buffer is as it was. -/
def writeOver (header : Header) (buffer : Bytes) : Except Error Nat × Bytes :=
  if buffer.length < header.size then
    (.error .bufferTooSmall, buffer)
  else
    match header.toBytes with
    | .error failure => (.error failure, buffer)
    | .ok bytes => (.ok header.size, bytes ++ buffer.drop bytes.length)

/-- The fixed bytes are twelve. -/
@[simp]
theorem length_fixedBytes (header : Header) (padding : Bool)
    : (header.fixedBytes padding).length = fixedLength :=
  rfl

-----------------------------------------------------------------------------------------
-- Single extensions
-----------------------------------------------------------------------------------------

/-- The layout for a first extension with a payload of this length: the one-byte layout if it
can hold it, the two-byte layout otherwise. -/
def profileFor (length : Nat) : ExtensionProfile :=
  if length = 0 ∨ 16 < length then .twoByte else .oneByte

/-- The extensions with this payload under this id, in the place of the first one that has the
id, or else at the end. -/
def replaceOrAdd (extensions : List Extension) (id : UInt8) (payload : Bytes) : List Extension :=
  match extensions.findIdx? fun extension => extension.id == id with
  | some i => extensions.set i ⟨id, payload⟩
  | none => extensions ++ [⟨id, payload⟩]

/-- The header with this payload under this id. The first extension also turns extensions on. -/
def setExtension (header : Header) (id : UInt8) (payload : Bytes) : Except Error Header :=
  let profile := if header.hasExtension then header.profile else profileFor payload.length
  match profile.validate id payload.length with
  | .error failure => .error failure
  | .ok () =>
      .ok { header with
        hasExtension := true
        extensionCode := if header.hasExtension then header.extensionCode else profile.code
        extensions := replaceOrAdd header.extensions id payload }

/-- The payload under an id, if extensions are on and there is one. -/
def extension? (header : Header) (id : UInt8) : Option Bytes :=
  if header.hasExtension then
    (header.extensions.find? fun extension => extension.id == id).map Extension.payload
  else
    none

/-- The ids of the extensions in order, if extensions are on. -/
def extensionIds? (header : Header) : Option (List UInt8) :=
  if header.hasExtension then some (header.extensions.map Extension.id) else none

/-- The header without the first extension that has this id. -/
def removeExtension (header : Header) (id : UInt8) : Except Error Header :=
  if header.hasExtension then
    if header.extensions.any fun extension => extension.id == id then
      .ok { header with extensions := header.extensions.eraseP fun extension => extension.id == id }
    else
      .error (.extensionNotFound id)
  else
    .error .extensionsDisabled

/-- A change of a single extension. -/
inductive Edit where
  | set (id : UInt8) (payload : Bytes)
  | remove (id : UInt8)
  deriving Repr, DecidableEq

/-- What an edit makes of a header. -/
def Edit.apply (edit : Edit) (header : Header) : Except Error Header :=
  match edit with
  | .set id payload => header.setExtension id payload
  | .remove id => header.removeExtension id

/-- Edits a header in place, one field after another. A failure keeps what was done before it. -/
def edit : Edit → EStateM Error Header Unit
  | .set id payload => do
      let header ← get
      let profile := if header.hasExtension then header.profile else profileFor payload.length
      match profile.validate id payload.length with
      | .error failure => throw failure
      | .ok () =>
          if !header.hasExtension then
            modify fun header =>
              { header with hasExtension := true, extensionCode := profile.code }
          modify fun header =>
            { header with extensions := replaceOrAdd header.extensions id payload }
  | .remove id => do
      let header ← get
      if !header.hasExtension then
        throw .extensionsDisabled
      match header.extensions.findIdx? fun extension => extension.id == id with
      | none => throw (.extensionNotFound id)
      | some i =>
          modify fun header => { header with extensions := header.extensions.eraseIdx i }

/-- The header as an edit leaves it, also where it fails. -/
def leftBy (header : Header) (change : Edit) : Header :=
  match (edit change).run header with
  | .ok () changed => changed
  | .error _ left => left

/-- The header after edits one after another, whichever of them fail. -/
def edited (header : Header) (changes : List Edit) : Header :=
  changes.foldl leftBy header

end Header

end Av1Transport.Rtp
