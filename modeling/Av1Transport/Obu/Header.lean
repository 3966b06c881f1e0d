import Av1Transport.Bytes
import Av1Transport.Leb128

/-! The kinds of open bitstream units and their headers: one byte, and a second one for the layer.

    forbidden 1, kind 4, extension flag 1, size flag 1, reserved 1
    temporal id 3, spatial id 2, reserved 3
-/

namespace Av1Transport.Obu

-----------------------------------------------------------------------------------------
-- Kinds
-----------------------------------------------------------------------------------------

/-- The kind of a unit. A number without a meaning of its own is kept as it is. -/
inductive Kind where
  | sequenceHeader
  | temporalDelimiter
  | frameHeader
  | tileGroup
  | metadata
  | frame
  | redundantFrameHeader
  | tileList
  | padding
  | reserved (value : UInt8)
  deriving Repr, DecidableEq

namespace Kind

/-- The kind that a number stands for. -/
def ofValue (value : UInt8) : Kind :=
  match value.toNat with
  | 1 => sequenceHeader
  | 2 => temporalDelimiter
  | 3 => frameHeader
  | 4 => tileGroup
  | 5 => metadata
  | 6 => frame
  | 7 => redundantFrameHeader
  | 8 => tileList
  | 15 => padding
  | _ => reserved value

/-- The number of a kind. -/
def value : Kind → UInt8
  | sequenceHeader => 1
  | temporalDelimiter => 2
  | frameHeader => 3
  | tileGroup => 4
  | metadata => 5
  | frame => 6
  | redundantFrameHeader => 7
  | tileList => 8
  | padding => 15
  | reserved value => value

/-- The name of a kind in the bitstream specification. -/
def name : Kind → String
  | sequenceHeader => "OBU_SEQUENCE_HEADER"
  | temporalDelimiter => "OBU_TEMPORAL_DELIMITER"
  | frameHeader => "OBU_FRAME_HEADER"
  | tileGroup => "OBU_TILE_GROUP"
  | metadata => "OBU_METADATA"
  | frame => "OBU_FRAME"
  | redundantFrameHeader => "OBU_REDUNDANT_FRAME_HEADER"
  | tileList => "OBU_TILE_LIST"
  | padding => "OBU_PADDING"
  | reserved _ => "OBU_RESERVED"

/-- Temporal delimiters and tile lists are not sent over RTP. -/
def isTransmitted : Kind → Bool
  | temporalDelimiter => false
  | tileList => false
  | _ => true

/-- A number is kept by the kind it stands for, by cases on the number. -/
@[simp]
theorem value_ofValue (number : UInt8) : (ofValue number).value = number := by
  unfold ofValue
  split <;> simp only [value] <;> (apply UInt8.toNat_inj.mp; simp [*])

end Kind

-----------------------------------------------------------------------------------------
-- Headers
-----------------------------------------------------------------------------------------

/-- Why no unit can be read. -/
inductive Error where
  | forbiddenBit
  | shortHeader
  | invalidSize (cause : Leb128.Error)
  | sizeExceedsBuffer (size remaining : Nat)
  deriving Repr, DecidableEq

def Error.message : Error → String
  | .forbiddenBit => "obu_forbidden_bit is set"
  | .shortHeader => "OBU header is truncated"
  | .invalidSize cause => "invalid obu_size: " ++ cause.message
  | .sizeExceedsBuffer size remaining =>
      "obu_size of " ++ toString size ++ " exceeds the " ++ toString remaining
        ++ " remaining bytes"

/-- The second header byte. Fields are kept as given, also when too wide to be written. -/
structure Extension where
  temporalId : UInt8
  spatialId : UInt8
  reserved : UInt8
  deriving Repr, DecidableEq

/-- The layer byte with each field cut to its bits. -/
def Extension.toByte (extension : Extension) : UInt8 :=
  UInt8.ofNat (extension.temporalId.toNat % 8 * 32 + extension.spatialId.toNat % 4 * 8
    + extension.reserved.toNat % 8)

/-- The fields of a layer byte. -/
def Extension.ofByte (byte : UInt8) : Extension :=
  ⟨bitField byte 32 8, bitField byte 8 4, bitField byte 1 8⟩

/-- A unit's header. The size flag says that the length of the payload follows the header. -/
structure Header where
  kind : Kind
  extension : Option Extension
  hasSize : Bool
  reservedBit : Bool
  deriving Repr, DecidableEq

namespace Header

/-- The kind in a header's first byte. -/
def kindOfByte (byte : UInt8) : Kind :=
  Kind.ofValue (bitField byte 8 16)

/-- The header at the front of the bytes. A set forbidden bit is reported before a missing
second byte. -/
def parse (bytes : Bytes) : Except Error Header :=
  match bytes with
  | [] => .error .shortHeader
  | first :: rest =>
      if bitSet first 128 then
        .error .forbiddenBit
      else if bitSet first 4 then
        match rest with
        | [] => .error .shortHeader
        | second :: _ =>
            .ok ⟨kindOfByte first, some (Extension.ofByte second), bitSet first 2, bitSet first 1⟩
      else
        .ok ⟨kindOfByte first, none, bitSet first 2, bitSet first 1⟩

/-- The number of bytes that the header takes. -/
def size (header : Header) : Nat :=
  if header.extension.isSome then 2 else 1

/-- The header's bytes, every field cut to its bits. -/
def toBytes (header : Header) : Bytes :=
  UInt8.ofNat (header.kind.value.toNat % 16 * 8 + flagWeight header.extension.isSome 4
    + flagWeight header.hasSize 2 + flagWeight header.reservedBit 1)
  :: match header.extension with
    | some extension => [extension.toByte]
    | none => []

/-- The temporal and the spatial layer, both 0 without an extension. -/
def layer (header : Header) : UInt8 × UInt8 :=
  match header.extension with
  | some extension => (extension.temporalId, extension.spatialId)
  | none => (0, 0)

/-- The same header saying whether a size follows it. -/
def withSize (header : Header) (hasSize : Bool) : Header :=
  { header with hasSize }

@[simp]
theorem size_withSize (header : Header) (hasSize : Bool)
    : (header.withSize hasSize).size = header.size :=
  rfl

/-- Only the first two bytes matter, by cases on their number. -/
theorem parse_take (bytes : Bytes) : parse (bytes.take 2) = parse bytes := by
  match bytes with
  | [] => rfl
  | [_] => rfl
  | _ :: _ :: _ => rfl

/-- The header takes as many bytes as it says. -/
@[simp]
theorem length_toBytes (header : Header) : header.toBytes.length = header.size := by
  rcases header with ⟨_, _ | _, _, _⟩ <;> rfl

/-- A header takes one byte or two. -/
theorem size_pos (header : Header) : 0 < header.size := by
  unfold size
  split <;> decide

end Header

end Av1Transport.Obu
