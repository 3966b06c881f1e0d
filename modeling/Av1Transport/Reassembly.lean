import Av1Transport.Aggregation.Packet
import Av1Transport.Bytes.Chunked

/-! Two receivers of AV1 payloads. One gives back a stored bitstream: every unit has its size, and the
kinds that are not sent over RTP are left out; a payload that is rejected leaves nothing pending. The
other gives back units as they were sent, without a size.
-/

namespace Av1Transport.Reassembly

open Av1Transport.Aggregation

-----------------------------------------------------------------------------------------
-- A stored bitstream
-----------------------------------------------------------------------------------------

/-- The most bytes that the pending parts of a unit may come to. -/
def maxPendingSize : Nat := 100000000

/-- The payload of an element, cut to the element's own size if it has one. -/
def elementPayload (header : Obu.Header) (rest : Chunked) : Except Error Chunked :=
  if header.hasSize then
    match Leb128.read (rest.take Leb128.maxLength).bytes with
    | .error cause => .error (.invalidLength cause)
    | .ok (size, count) =>
        if rest.size - count < size then
          .error .shortPacket
        else
          .ok ((rest.drop count).take size)
  else
    .ok rest

/-- A complete element as a stored unit with its size, or nothing if its kind is not sent. -/
def storedBytes (element : Chunked) : Except Error Chunked :=
  match Obu.Header.parse (element.take 2).bytes with
  | .error cause => .error (.invalidObu cause)
  | .ok header =>
      if header.kind.isTransmitted then
        match elementPayload header (element.drop header.size) with
        | .error failure => .error failure
        | .ok payload =>
            .ok (Chunked.ofBytes
              ((header.withSize true).toBytes ++ Leb128.encode payload.size) ++ payload)
      else
        .ok .empty

/-- What is stored for an element depends on its bytes and not on its pieces: the payload is cut
out of the bytes behind the header. -/
theorem bytes_elementPayload (header : Obu.Header) (rest : Chunked)
    : (elementPayload header rest).map Chunked.bytes
      = if header.hasSize then
          match Leb128.read rest.bytes with
          | .error cause => .error (.invalidLength cause)
          | .ok (size, count) =>
              if rest.bytes.length - count < size then
                .error .shortPacket
              else
                .ok ((rest.bytes.drop count).take size)
        else
          .ok rest.bytes := by
  unfold elementPayload
  split
  · rw [Chunked.bytes_take, Leb128.read_take]
    split
    · rfl
    · rw [Chunked.size_eq_length]
      split
      · rfl
      · simp [Except.map]
  · rfl

/-- The parts of a unit that is not complete yet, and the stored units of a payload so far. -/
structure StreamProgress where
  pending : Chunked
  output : Chunked

namespace StreamProgress

/-- A further part of the pending unit. -/
def grow (progress : StreamProgress) (part : Bytes) : Except Error StreamProgress :=
  if maxPendingSize < progress.pending.size + part.length then
    .error .fragmentTooLarge
  else
    .ok { progress with pending := progress.pending.push part }

/-- A complete element goes to the output. -/
def write (progress : StreamProgress) (element : Chunked) : Except Error StreamProgress :=
  match storedBytes element with
  | .error failure => .error failure
  | .ok stored => .ok { progress with output := progress.output ++ stored }

/-- The pending unit is complete. -/
def finish (progress : StreamProgress) : Except Error StreamProgress :=
  write { progress with pending := .empty } progress.pending

/-- Takes one piece of a packet. A continuation of something that is not there is passed over. -/
def absorb (progress : StreamProgress) (piece : Piece) : Except Error StreamProgress :=
  if piece.continues then
    if progress.pending.isEmpty then
      .ok progress
    else
      match progress.grow piece.bytes with
      | .error failure => .error failure
      | .ok grown => if piece.continued then .ok grown else grown.finish
  else if piece.continued then
    progress.grow piece.bytes
  else
    progress.write (.ofBytes piece.bytes)

/-- Takes the pieces of a packet in order, up to the first failure. -/
def absorbAll (progress : StreamProgress) : List Piece → Except Error StreamProgress
  | [] => .ok progress
  | piece :: pieces =>
      match progress.absorb piece with
      | .error failure => .error failure
      | .ok next => next.absorbAll pieces

end StreamProgress

/-- A receiver between two payloads: the parts of a unit that is not complete yet. -/
structure StreamReceiver where
  pending : Chunked

namespace StreamReceiver

/-- Nothing pending: the state of a new receiver, and of one that was told of a loss. -/
def initial : StreamReceiver :=
  ⟨.empty⟩

instance : Inhabited StreamReceiver :=
  ⟨initial⟩

/-- The parts that a packet may continue. A new coded video sequence continues none, nor does a
packet that starts with an element. -/
def pendingFor (receiver : StreamReceiver) (header : Header) : Chunked :=
  if header.startsSequence || !header.continues then .empty else receiver.pending

/-- The stored units that a payload completes. -/
def receive (receiver : StreamReceiver) (payload : Bytes)
    : Except Error Chunked × StreamReceiver :=
  match Packet.parse payload with
  | .error failure => (.error failure, initial)
  | .ok packet =>
      match StreamProgress.absorbAll ⟨receiver.pendingFor packet.header, .empty⟩
          packet.pieces with
      | .error failure => (.error failure, initial)
      | .ok progress => (.ok progress.output, ⟨progress.pending⟩)

/-- The answers to payloads in order, and the receiver after them. -/
def receiveAll (receiver : StreamReceiver)
    : List Bytes → List (Except Error Chunked) × StreamReceiver
  | [] => ([], receiver)
  | payload :: payloads =>
      let (result, next) := receiver.receive payload
      let (results, last) := next.receiveAll payloads
      (result :: results, last)

/-- A rejected payload leaves nothing pending, by cases on the failure. -/
theorem receive_error {receiver next : StreamReceiver} {payload : Bytes} {failure : Error}
    (h : receiver.receive payload = (.error failure, next))
    : next = initial := by
  unfold receive at h
  split at h
  · exact (Prod.mk.inj h).2.symm
  · split at h
    · exact (Prod.mk.inj h).2.symm
    · simp at h

end StreamReceiver

-----------------------------------------------------------------------------------------
-- Units as they were sent
-----------------------------------------------------------------------------------------

/-- The parts of a unit that is not complete yet, and the elements of a packet so far. -/
structure ElementProgress where
  pending : Option Chunked
  elements : Array Chunked

namespace ElementProgress

/-- A complete element goes to the output, unless it is empty or of a kind that is not sent. -/
def emit (progress : ElementProgress) (element : Chunked) : ElementProgress :=
  match (element.take 1).bytes with
  | [] => progress
  | first :: _ =>
      if (Obu.Header.kindOfByte first).isTransmitted then
        { progress with elements := progress.elements.push element }
      else
        progress

/-- Takes one piece of a packet. A continuation of something that is not there is passed over,
and a unit that grows too large is given up. -/
def absorb (progress : ElementProgress) (piece : Piece) : ElementProgress :=
  if piece.continues then
    match progress.pending with
    | none => progress
    | some pending =>
        let grown := pending.push piece.bytes
        if maxPendingSize < grown.size then
          { progress with pending := none }
        else if piece.continued then
          { progress with pending := some grown }
        else
          emit { progress with pending := none } grown
  else if piece.continued then
    { progress with pending := some (.ofBytes piece.bytes) }
  else
    progress.emit (.ofBytes piece.bytes)

end ElementProgress

/-- A receiver between two packets: the parts of a unit that is not complete yet. -/
structure ElementReceiver where
  pending : Option Chunked

namespace ElementReceiver

/-- Nothing pending. -/
def initial : ElementReceiver :=
  ⟨none⟩

instance : Inhabited ElementReceiver :=
  ⟨initial⟩

/-- The parts that a packet may continue: none if it starts with an element. -/
def pendingFor (receiver : ElementReceiver) (header : Header) : Option Chunked :=
  if header.continues then receiver.pending else none

/-- The elements that a packet completes, in order. -/
def receive (receiver : ElementReceiver) (packet : Packet) : List Chunked × ElementReceiver :=
  let progress :=
    packet.pieces.foldl ElementProgress.absorb ⟨receiver.pendingFor packet.header, #[]⟩
  (progress.elements.toList, ⟨progress.pending⟩)

/-- The elements that packets complete, packet by packet, and the receiver after them. -/
def receiveAll (receiver : ElementReceiver)
    : List Packet → List (List Chunked) × ElementReceiver
  | [] => ([], receiver)
  | packet :: packets =>
      let (elements, next) := receiver.receive packet
      let (later, last) := next.receiveAll packets
      (elements :: later, last)

/-- The elements that a payload completes; a payload that is no packet changes nothing. -/
def receivePayload (receiver : ElementReceiver) (payload : Bytes)
    : Except Error (List Chunked) × ElementReceiver :=
  match Packet.parse payload with
  | .error failure => (.error failure, receiver)
  | .ok packet =>
      let (elements, next) := receiver.receive packet
      (.ok elements, next)

end ElementReceiver

end Av1Transport.Reassembly
