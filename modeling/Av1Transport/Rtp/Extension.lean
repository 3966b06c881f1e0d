import Av1Transport.Bytes

/-! The header extensions of a packet: the two layouts of small elements and the raw one, and what
can go wrong with an RTP packet. The region that holds the elements is filled up with zeros to a whole
number of words.
-/

namespace Av1Transport.Rtp

-----------------------------------------------------------------------------------------
-- Errors
-----------------------------------------------------------------------------------------

/-- Why a packet cannot be read, written or edited. -/
inductive Error where
  | shortHeader
  | shortExtension
  | paddingTooLong
  | bufferTooSmall
  | tooManyCsrcs (count : Nat)
  | invalidExtension (id : UInt8) (length : Nat)
  | extensionsDisabled
  | extensionNotFound (id : UInt8)
  deriving Repr, DecidableEq

def Error.message : Error → String
  | .shortHeader => "RTP header size insufficient"
  | .shortExtension => "RTP header size insufficient for extension"
  | .paddingTooLong => "RTP padding size exceeds the packet length"
  | .bufferTooSmall => "buffer too small to marshal the RTP packet"
  | .tooManyCsrcs count => "RTP header can carry at most 15 CSRCs, got " ++ toString count
  | .invalidExtension id length =>
      "header extension id " ++ toString id.toNat ++ " with a " ++ toString length
        ++ " byte payload is invalid for the extension profile"
  | .extensionsDisabled => "header extensions are not enabled"
  | .extensionNotFound id => "header extension " ++ toString id.toNat ++ " not found"

-----------------------------------------------------------------------------------------
-- Layouts
-----------------------------------------------------------------------------------------

/-- How a header's extensions are laid out. -/
inductive ExtensionProfile where
  /-- Elements behind four bits of id and four of length. -/
  | oneByte
  /-- Elements behind a byte of id and one of length. -/
  | twoByte
  /-- One element that fills the region, in a layout of its own. -/
  | raw (code : UInt16)
  deriving Repr, DecidableEq

/-- An extension element. In the raw layout the id is 0. -/
structure Extension where
  id : UInt8
  payload : Bytes
  deriving Repr, DecidableEq

/-- The zeros that fill up a region of the given length. -/
def regionPadding (length : Nat) : Nat :=
  (4 - length % 4) % 4

namespace ExtensionProfile

/-- The layout that a code selects. -/
def ofCode (code : UInt16) : ExtensionProfile :=
  if code = 0xBEDE then oneByte else if code = 0x1000 then twoByte else raw code

/-- The code of a layout. -/
def code : ExtensionProfile → UInt16
  | oneByte => 0xBEDE
  | twoByte => 0x1000
  | raw code => code

/-- The layout can hold an element of this id and payload length. -/
def accepts (profile : ExtensionProfile) (id : UInt8) (length : Nat) : Bool :=
  match profile with
  | oneByte => 1 ≤ id.toNat && id.toNat ≤ 14 && 1 ≤ length && length ≤ 16
  | twoByte => 1 ≤ id.toNat && length ≤ 255
  | raw _ => id.toNat == 0 && length ≤ 65535 * 4

/-- Fails if the layout cannot hold the element. -/
def validate (profile : ExtensionProfile) (id : UInt8) (length : Nat) : Except Error Unit :=
  if profile.accepts id length then .ok () else .error (.invalidExtension id length)

/-- The bytes that an element takes, without any padding. -/
def elementLength (profile : ExtensionProfile) (payloadLength : Nat) : Nat :=
  match profile with
  | oneByte => 1 + payloadLength
  | twoByte => 2 + payloadLength
  | raw _ => payloadLength

/-- The bytes that elements take together, without any padding. -/
def elementsLength (profile : ExtensionProfile) (extensions : List Extension) : Nat :=
  (extensions.map fun extension => profile.elementLength extension.payload.length).sum

/-- An element's bytes, in a layout that can hold it. -/
def elementBytes (profile : ExtensionProfile) (extension : Extension) : Bytes :=
  match profile with
  | oneByte =>
      UInt8.ofNat (extension.id.toNat * 16 + (extension.payload.length - 1) % 16)
        :: extension.payload
  | twoByte => extension.id :: UInt8.ofNat extension.payload.length :: extension.payload
  | raw _ => extension.payload

/-- The element behind its one byte of id and length, or a byte of padding. The id 15 ends the
region. -/
def readOneByte : Bytes → Except Error (Option Extension × Nat)
  | [] => .ok (none, 0)
  | first :: rest =>
      if first = 0 then
        .ok (none, 1)
      else if first.toNat / 16 = 15 then
        .ok (none, 1 + rest.length)
      else
        match splitExact? (first.toNat % 16 + 1) rest with
        | none => .error .shortExtension
        | some (payload, _) =>
            .ok (some ⟨UInt8.ofNat (first.toNat / 16), payload⟩, first.toNat % 16 + 2)

/-- The element behind its two bytes of id and length, or a byte of padding. -/
def readTwoByte : Bytes → Except Error (Option Extension × Nat)
  | [] => .ok (none, 0)
  | id :: rest =>
      if id = 0 then
        .ok (none, 1)
      else
        match rest with
        | [] => .error .shortExtension
        | length :: rest =>
            match splitExact? length.toNat rest with
            | none => .error .shortExtension
            | some (payload, _) => .ok (some ⟨id, payload⟩, length.toNat + 2)

/-- The element, the padding byte or the end of the elements at the front of a region. -/
def readItem (profile : ExtensionProfile) (bytes : Bytes)
    : Except Error (Option Extension × Nat) :=
  match profile with
  | oneByte => readOneByte bytes
  | twoByte => readTwoByte bytes
  | raw _ => .ok (some ⟨0, bytes⟩, bytes.length)

/-- The element behind any padding, or the failure to read it, and the bytes that are left. No
element comes behind the id 15. -/
def nextOneByte : Bytes → Option (Except Error Extension) × Bytes
  | [] => (none, [])
  | first :: rest =>
      if first = 0 then
        nextOneByte rest
      else if first.toNat / 16 = 15 then
        (none, [])
      else
        match splitExact? (first.toNat % 16 + 1) rest with
        | none => (some (.error .shortExtension), [])
        | some (payload, left) => (some (.ok ⟨UInt8.ofNat (first.toNat / 16), payload⟩), left)

/-- The element behind any padding, or the failure to read it, and the bytes that are left. -/
def nextTwoByte : Bytes → Option (Except Error Extension) × Bytes
  | [] => (none, [])
  | id :: rest =>
      if id = 0 then
        nextTwoByte rest
      else
        match rest with
        | [] => (some (.error .shortExtension), [])
        | length :: rest =>
            match splitExact? length.toNat rest with
            | none => (some (.error .shortExtension), [])
            | some (payload, left) => (some (.ok ⟨id, payload⟩), left)

/-- What comes next out of a region, an element or the failure that ends it, and the bytes that are
left. Where nothing comes next, nothing is left. -/
def next (profile : ExtensionProfile) (bytes : Bytes) : Option (Except Error Extension) × Bytes :=
  match profile with
  | oneByte => nextOneByte bytes
  | twoByte => nextTwoByte bytes
  | raw _ => if bytes.isEmpty then (none, []) else (some (.ok ⟨0, bytes⟩), [])

/-- A code is kept by the layout it selects. -/
@[simp]
theorem code_ofCode (number : UInt16) : (ofCode number).code = number := by
  unfold ofCode
  split
  next h => exact h.symm
  · split
    next h => exact h.symm
    · rfl

theorem validate_eq_ok_iff {profile : ExtensionProfile} {id : UInt8} {length : Nat}
    : profile.validate id length = .ok () ↔ profile.accepts id length = true := by
  unfold validate
  split
  next accepted => simp [accepted]
  next rejected => simp [rejected]

/-- An element that its layout can hold takes the length foretold. -/
theorem length_elementBytes (profile : ExtensionProfile) (extension : Extension)
    : (profile.elementBytes extension).length = profile.elementLength extension.payload.length := by
  cases profile <;> simp [elementBytes, elementLength] <;> omega

end ExtensionProfile

/-- The elements of an extension region, and the failure behind them, if there is one. -/
structure ExtensionRegion where
  elements : List Extension
  failure : Option Error
  deriving Repr, DecidableEq

/-- The elements that a region holds, without its padding. -/
def ExtensionRegion.read (profile : ExtensionProfile) (bytes : Bytes) : ExtensionRegion :=
  let reading := readAll profile.readItem bytes
  ⟨reading.values.filterMap id, reading.failure⟩

end Av1Transport.Rtp
