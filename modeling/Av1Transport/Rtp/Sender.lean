import Av1Transport.Rtp.Packet

/-! A sender: it numbers packets, stamps frames with the media clock and marks the last packet of
each frame. Its sequence numbers count how often the sixteen bits on the wire went round.
-/

namespace Av1Transport.Rtp

-----------------------------------------------------------------------------------------
-- Sequence numbers
-----------------------------------------------------------------------------------------

/-- A sequence number that does not go round. -/
structure ExtendedSequenceNumber where
  value : Nat
  deriving Repr, DecidableEq

namespace ExtendedSequenceNumber

/-- The sixteen bits on the wire. -/
def truncated (number : ExtendedSequenceNumber) : UInt16 :=
  UInt16.ofNat number.value

/-- How often the sixteen bits went round. -/
def rollover (number : ExtendedSequenceNumber) : Nat :=
  number.value / 65536

/-- The next number. -/
def succ (number : ExtendedSequenceNumber) : ExtendedSequenceNumber :=
  ⟨number.value + 1⟩

/-- The number before, or the number itself if it is the first of all. -/
def pred (number : ExtendedSequenceNumber) : ExtendedSequenceNumber :=
  ⟨number.value - 1⟩

/-- The bits on the wire and the rollovers make up the number. -/
theorem rollover_truncated (number : ExtendedSequenceNumber)
    : number.rollover * 65536 + number.truncated.toNat = number.value := by
  simp only [rollover, truncated, UInt16.toNat_ofNat']
  omega

end ExtendedSequenceNumber

/-- The source of a sender's sequence numbers. -/
structure Sequencer where
  next : ExtendedSequenceNumber
  deriving Repr, DecidableEq

namespace Sequencer

/-- Numbers from a given one on. -/
def startingAt (start : UInt16) : Sequencer :=
  ⟨⟨start.toNat⟩⟩

/-- Numbers from the low bits of a random word on. -/
def random (word : UInt64) : Sequencer :=
  startingAt word.toUInt16

/-- The next number, and the numbers after it. -/
def take (sequencer : Sequencer) : UInt16 × Sequencer :=
  (sequencer.next.truncated, ⟨sequencer.next.succ⟩)

/-- How often the numbers went round, up to the last one that was taken. -/
def rollover (sequencer : Sequencer) : Nat :=
  sequencer.next.pred.rollover

end Sequencer

-----------------------------------------------------------------------------------------
-- Senders
-----------------------------------------------------------------------------------------

/-- A sender between two frames. -/
structure Sender where
  /-- The most bytes of a packet, with its header. -/
  mtu : Nat
  payloadType : UInt8
  ssrc : UInt32
  csrcs : List UInt32
  /-- The timestamp of the next frame. -/
  timestamp : UInt32
  sequencer : Sequencer
  csrcs_le : csrcs.length ≤ maxCsrcs := by decide

namespace Sender

/-- The sender with these contributing sources, of which the first fifteen are used. -/
def withCsrcs (sender : Sender) (csrcs : List UInt32) : Sender :=
  { sender with
    csrcs := csrcs.take maxCsrcs
    csrcs_le := List.length_take_le maxCsrcs csrcs }

/-- The bytes of a packet that its header leaves to the payload. -/
def payloadBudget (sender : Sender) : Nat :=
  sender.mtu - (fixedLength + 4 * sender.csrcs.length)

/-- Passes over media time without sending anything. -/
def skipSamples (sender : Sender) (samples : UInt32) : Sender :=
  { sender with timestamp := sender.timestamp + samples }

/-- The packet with this number and payload. -/
def packet (sender : Sender) (number : UInt16) (marker : Bool) (payload : Bytes) : Packet where
  header := { Header.blank with
    marker
    payloadType := sender.payloadType
    sequenceNumber := number
    timestamp := sender.timestamp
    ssrc := sender.ssrc
    csrcs := sender.csrcs }
  payload

/-- Makes packets of payloads, each of which takes the next number. The one at the index `last` is
marked. -/
def packets (sender : Sender) (last : Nat) (payloads : List (Bytes × Nat))
    : StateM Sequencer (List Packet) :=
  payloads.mapM fun (payload, index) => do
    let number ← modifyGet Sequencer.take
    return sender.packet number (index == last) payload

/-- The packets of a frame with these payloads, and the sender after the frame. -/
def send (sender : Sender) (payloads : List Bytes) (samples : UInt32) : List Packet × Sender :=
  let last := payloads.length - 1
  let (packets, sequencer) := (sender.packets last payloads.zipIdx).run sender.sequencer
  (packets, { sender with sequencer }.skipSamples samples)

end Sender

end Av1Transport.Rtp
