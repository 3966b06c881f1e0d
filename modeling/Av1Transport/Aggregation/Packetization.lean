import Av1Transport.Aggregation.Group
import Av1Transport.Obu.Stream

/-! Packing a stream unit by unit, and the packets that carry a frame.
Whole units wait until the packet they share is full or has to end. That a coded video sequence
starts is noted when its sequence header is met, and is told by the next packet that is made.
-/

namespace Av1Transport.Aggregation

-----------------------------------------------------------------------------------------
-- Packing unit by unit
-----------------------------------------------------------------------------------------

/-- A packer between two units of a stream. -/
structure Packer where
  /-- The packets that are made. -/
  packets : Array Packet
  /-- The units that wait for the next packet. -/
  bundle : Bundle
  /-- The layer of the units that wait; when none does, that of those that waited last. -/
  layer : UInt8 × UInt8
  /-- The next packet is the first of a coded video sequence. -/
  opensSequence : Bool

namespace Packer

/-- A packer that has seen nothing. -/
def start : Packer :=
  ⟨#[], .empty, (0, 0), false⟩

/-- The units that wait become a packet, if there are any. -/
def flush (packer : Packer) : Packer :=
  if packer.bundle.obus.isEmpty then
    packer
  else
    { packer with
      packets := packer.packets.push
        (Bundle.packetWith packer.opensSequence packer.bundle.obus.toList)
      bundle := .empty
      opensSequence := false }

/-- The unit waits behind the others. -/
def push (packer : Packer) (obu : Obu) : Packer :=
  { packer with
    bundle := packer.bundle.push obu
    layer := if packer.bundle.obus.isEmpty then obu.header.layer else packer.layer }

/-- The unit becomes packets of its own, in pieces. -/
def fragment (mtu : Nat) (packer : Packer) (obu : Obu) : Packer :=
  { packer with
    packets := packer.packets ++ Group.cutPackets mtu packer.opensSequence obu
    opensSequence := false }

/-- Units of another layer share no packet with the unit. -/
def matchLayer (packer : Packer) (obu : Obu) : Packer :=
  if !packer.bundle.obus.isEmpty && packer.layer != obu.header.layer then
    packer.flush
  else
    packer

/-- Finds the unit a place: in pieces if it fills more than a packet, with the units that wait if
the packet still has room for it, else as the first one of the next packet. -/
def place (mtu : Nat) (packer : Packer) (obu : Obu) : Packer :=
  let packer := packer.matchLayer obu
  if mtu - 1 < obu.bareLength then
    packer.flush.fragment mtu obu
  else if packer.bundle.lengthWith obu ≤ mtu then
    packer.push obu
  else
    packer.flush.push obu

/-- Takes the next unit of the stream. A temporal delimiter ends the packet and a tile list is
passed over; neither is sent. A sequence header ends the packet and is told by the next one. -/
def add (mtu : Nat) (packer : Packer) (obu : Obu) : Packer :=
  match obu.header.kind with
  | .temporalDelimiter => packer.flush
  | .tileList => packer
  | .sequenceHeader => { packer.flush with opensSequence := true }.place mtu obu
  | _ => packer.place mtu obu

/-- The packets of a run of units, for packets of at most `mtu` bytes. -/
def pack (mtu : Nat) (obus : List Obu) : List Packet :=
  (obus.foldl (add mtu) start).flush.packets.toList

end Packer

-----------------------------------------------------------------------------------------
-- The packets of a frame
-----------------------------------------------------------------------------------------

/-- The packets of a frame. A frame that cannot be read to its end gives the packets of the
units in front of the failure. -/
structure Packetization where
  packets : List Packet
  failure : Option Obu.Error
  deriving Repr, DecidableEq

namespace Packetization

/-- The packets as they are sent. -/
def payloads (packetization : Packetization) : List Bytes :=
  packetization.packets.map Packet.toBytes

/-- What went wrong, if anything did, and how much was packed before. -/
def message? (packetization : Packetization) : Option String :=
  packetization.failure.map fun failure =>
    "malformed OBU stream after " ++ toString packetization.packets.length ++ " packets: "
      ++ failure.message

end Packetization

/-- Packs a frame into packets of at most `mtu` bytes. Below two bytes no packet can hold
anything, and the frame is not looked at. -/
def packetize (mtu : Nat) (frame : Bytes) : Packetization :=
  if mtu < 2 then
    ⟨[], none⟩
  else
    let stream := Obu.split frame
    ⟨Packer.pack mtu stream.values, stream.failure⟩

end Av1Transport.Aggregation
