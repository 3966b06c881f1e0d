import Av1Transport.Proofs.Aggregation.FramePackets
import Av1Transport.Proofs.Aggregation.ReadPackets
import Av1Transport.Proofs.Reassembly.StreamRuns

/-! What a stream receiver keeps of the past.
Main statements: a payload that says nothing of the packet before it is received alike by all
receivers, a rejected one leaves nothing pending, and so a frame is received alike after anything.
-/

namespace Av1Transport.Reassembly

open Av1Transport.Aggregation

/-- The payload says nothing of the packet before it: it is no packet, it starts with an element,
or a coded video sequence starts with it.
-/
def Restarts (payload : Bytes) : Prop :=
  (∃ failure, Packet.parse payload = .error failure)
  ∨ ∃ first body,
      payload = first :: body
      ∧ ((Header.ofByte first).continues = false
        ∨ (Header.ofByte first).startsSequence = true)

theorem restarts_of_startsElement {payload : Bytes} (starts : startsElement payload = true)
    : Restarts payload := by
  match payload with
  | [] => cases starts
  | [_] => cases starts
  | first :: second :: body =>
      refine Or.inr ⟨first, second :: body, rfl, Or.inl ?_⟩
      simpa [startsElement] using starts

/-- A packet of such a payload goes on from nothing. -/
theorem Restarts.header {payload : Bytes} (restarts : Restarts payload) {packet : Packet}
    (parsed : Packet.parse payload = .ok packet)
    : packet.header.continues = false ∨ packet.header.startsSequence = true := by
  obtain ⟨first, body, rfl, header, _⟩ := Packet.parse_ok parsed
  rcases restarts with ⟨failure, failed⟩ | ⟨other, rest, same, alone⟩
  · rw [parsed] at failed
    cases failed
  · cases same
    exact header.symm ▸ alone

namespace StreamReceiver

theorem pendingFor_of_startsSequence {header : Header} (starts : header.startsSequence = true)
    (receiver : StreamReceiver)
    : receiver.pendingFor header = .empty := by
  simp [pendingFor, starts]

/-- Such a payload finds every receiver with nothing pending. -/
theorem receive_eq_of_restarts {payload : Bytes} (restarts : Restarts payload)
    (receiver other : StreamReceiver)
    : receiver.receive payload = other.receive payload := by
  unfold receive
  split
  next => rfl
  next packet parsed =>
    have same : receiver.pendingFor packet.header = other.pendingFor packet.header := by
      rcases restarts.header parsed with alone | starts
      · rw [pendingFor_of_not_continues alone, pendingFor_of_not_continues alone]
      · rw [pendingFor_of_startsSequence starts, pendingFor_of_startsSequence starts]
    rw [same]

/-- A run that starts with such a payload goes the same way from every receiver. -/
theorem receiveAll_eq_of_restarts {payload : Bytes} (restarts : Restarts payload)
    (payloads : List Bytes) (receiver other : StreamReceiver)
    : receiver.receiveAll (payload :: payloads) = other.receiveAll (payload :: payloads) := by
  simp only [receiveAll, receive_eq_of_restarts restarts receiver other]

/-- The packets of a frame are answered alike by every receiver: the first of them starts with an
element.
-/
theorem answers_packetize_eq {mtu : Nat} (room : 2 ≤ mtu) (frame : Bytes)
    (receiver other : StreamReceiver)
    : (receiver.receiveAll (packetize mtu frame).payloads).1
      = (other.receiveAll (packetize mtu frame).payloads).1 := by
  match sent : (packetize mtu frame).payloads with
  | [] => rfl
  | first :: later =>
      have restarts := restarts_of_startsElement (startsElement_of_payloads_eq_cons room sent)
      rw [receiveAll_eq_of_restarts restarts later receiver other]

/-- Nothing of the past outlives a payload that restarts the receiver. Two receivers give the same
answer to such a payload and are left alike; a receiver that rejects a payload is left as a new one;
and after any payloads at all the packets of a frame get the answers that a new receiver gives.
-/
theorem resynchronizes
    : (∀ (receiver other : StreamReceiver) (payload : Bytes),
        Restarts payload → receiver.receive payload = other.receive payload)
      ∧ (∀ (receiver : StreamReceiver) (payload : Bytes) (failure : Error),
        (receiver.receive payload).1 = .error failure
        → (receiver.receive payload).2 = initial)
      ∧ ∀ (receiver : StreamReceiver) (history : List Bytes) (mtu : Nat) (frame : Bytes),
        2 ≤ mtu
        → ((receiver.receiveAll history).2.receiveAll (packetize mtu frame).payloads).1
          = (initial.receiveAll (packetize mtu frame).payloads).1 := by
  refine ⟨?_, ?_, ?_⟩
  · intro receiver other payload restarts
    exact receive_eq_of_restarts restarts receiver other
  · intro receiver payload failure failed
    exact receive_error (Prod.ext failed rfl)
  · intro receiver history mtu frame room
    exact answers_packetize_eq room frame _ initial

/-- A receiver in the middle of a unit: a continuation that starts a coded video sequence finds
nothing to continue, a length beyond the payload is rejected, and a frame after both is stored.
-/
theorem resynchronizes_begun
    : let begun : StreamReceiver := ⟨.ofBytes [0x30, 1]⟩
      Restarts [0xD8, 2]
      ∧ begun.receive [0xD8, 2] = initial.receive [0xD8, 2]
      ∧ (begun.receive [0xE0, 5, 2]).1 = .error .shortPacket
      ∧ (begun.receive [0xE0, 5, 2]).2 = initial
      ∧ ((begun.receiveAll [[0xD0, 7], [0xE0, 5, 2], [0x50, 0x30]]).2.receiveAll
            (packetize 3 [0x0A, 1, 0xAA, 0x32, 2, 3, 4]).payloads).1
        = (initial.receiveAll (packetize 3 [0x0A, 1, 0xAA, 0x32, 2, 3, 4]).payloads).1 := by
  intro begun
  have restarts : Restarts [0xD8, 2] := Or.inr ⟨0xD8, [2], rfl, Or.inr rfl⟩
  have failed : (begun.receive [0xE0, 5, 2]).1 = .error .shortPacket := rfl
  obtain ⟨alike, rejected, frames⟩ := resynchronizes
  exact ⟨restarts, alike begun initial _ restarts, failed, rejected begun _ _ failed,
    frames begun _ 3 _ (by decide)⟩

end StreamReceiver

end Av1Transport.Reassembly
