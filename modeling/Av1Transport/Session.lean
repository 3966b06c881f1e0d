import Av1Transport.Aggregation.Packetization
import Av1Transport.Rtp.Sender
import Av1Transport.Reassembly
import Av1Transport.Rtp.Packet

/-! AV1 frames sent over RTP, and received both as a stored bitstream and as the units that were
sent.
-/

namespace Av1Transport.Session

-----------------------------------------------------------------------------------------
-- Sending
-----------------------------------------------------------------------------------------

open Av1Transport.Rtp

/-- The packets of a frame, and the sender after it. Of a frame that cannot be read to its end,
the units in front of the failure are sent. -/
def sendFrame (sender : Sender) (frame : Bytes) (samples : UInt32) : List Packet × Sender :=
  sender.send (Aggregation.packetize sender.payloadBudget frame).payloads samples

/-- The packets of frames of equal duration, and the sender after them. -/
def sendFrames (sender : Sender) (samples : UInt32) : List Bytes → List Packet × Sender
  | [] => ([], sender)
  | frame :: frames =>
      let (packets, next) := sendFrame sender frame samples
      let (later, last) := sendFrames next samples frames
      (packets ++ later, last)

/-- The bytes of packets in order, if all of them can be written. -/
def wireBytes (packets : List Packet) : Except Error (List Bytes) :=
  packets.mapM Packet.toBytes

-----------------------------------------------------------------------------------------
-- Receiving
-----------------------------------------------------------------------------------------

open Av1Transport.Reassembly

/-- A receiver between two packets. -/
structure Receiver where
  stream : StreamReceiver
  elements : ElementReceiver

/-- What a packet that could be read brought. -/
structure Delivery where
  packet : Rtp.Packet
  stored : Except Aggregation.Error Chunked
  elements : Except Aggregation.Error (List Chunked)

namespace Receiver

/-- A receiver that has seen nothing. -/
def initial : Receiver :=
  ⟨.initial, .initial⟩

/-- Takes the bytes of a packet. Bytes that are no packet change nothing. -/
def receive (receiver : Receiver) (bytes : Bytes) : Except Rtp.Error Delivery × Receiver :=
  match Rtp.Packet.parse bytes with
  | .error failure => (.error failure, receiver)
  | .ok packet =>
      let (stored, stream) := receiver.stream.receive packet.payload
      let (elements, rest) := receiver.elements.receivePayload packet.payload
      (.ok ⟨packet, stored, elements⟩, ⟨stream, rest⟩)

/-- The answers to the bytes of packets in order, and the receiver after them. -/
def receiveAll (receiver : Receiver)
    : List Bytes → List (Except Rtp.Error Delivery) × Receiver
  | [] => ([], receiver)
  | bytes :: wires =>
      let (result, next) := receiver.receive bytes
      let (results, last) := next.receiveAll wires
      (result :: results, last)

end Receiver

end Av1Transport.Session
