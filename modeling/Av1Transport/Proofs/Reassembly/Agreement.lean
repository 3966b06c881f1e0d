import Mathlib.Data.List.Forall2
import Av1Transport.Proofs.Aggregation.ReadPackets
import Av1Transport.Proofs.Reassembly.StreamRuns
import Av1Transport.Reassembly

/-! The two receivers side by side.
A step lemma takes one piece through both of them. Main statement: as long as the stream receiver
accepts what comes, the element receiver waits for the rest of the same bytes and gives the elements
of exactly those units that the stream receiver stores.
-/

namespace Av1Transport.Reassembly

open Av1Transport.Aggregation

-----------------------------------------------------------------------------------------
-- What the receivers have in common
-----------------------------------------------------------------------------------------

/-- Both receivers wait for the rest of the same bytes; no part is the same as no byte. -/
inductive SamePending (pending : Chunked) : Option Chunked → Prop where
  | nothing (empty : pending.bytes = []) : SamePending pending none
  | begun {part : Chunked} (same : part.bytes = pending.bytes) (started : pending.bytes ≠ [])
      : SamePending pending (some part)

/-- The output holds the units that the elements spell, each with its size; all of them are of a
kind that is sent.
-/
structure Stores (output : Chunked) (elements : List Chunked) (units : List Obu) : Prop where
  spelled : elements.map (fun element => elementUnit element.bytes) = units.map .ok
  joined : output.bytes = Obu.joinBytes units
  sent : ∀ unit ∈ units, unit.isTransmitted = true

/-- The payload does not both go on from the packet before and start a coded video sequence. -/
def Consistent (payload : Bytes) : Prop :=
  ∀ first body,
    payload = first :: body
    → (Header.ofByte first).continues = true
    → (Header.ofByte first).startsSequence = false

/-- Both receivers have come to the same point of a payload. -/
structure InStep (stream : StreamProgress) (elements : ElementProgress) : Prop where
  pending : SamePending stream.pending elements.pending
  stored : ∃ units, Stores stream.output elements.elements.toList units

-----------------------------------------------------------------------------------------
-- One piece
-----------------------------------------------------------------------------------------

namespace InStep

variable {stream next : StreamProgress} {elements : ElementProgress}

/-- A complete element that is stored as a unit is given as it is, and both receivers leave out the
same ones: the first byte of an element says its kind as its header does.
-/
theorem write (step : InStep stream elements) {element other : Chunked}
    (same : other.bytes = element.bytes) (written : stream.write element = .ok next)
    : InStep next (elements.emit other) := by
  obtain ⟨stored, kept, rfl⟩ := StreamProgress.write_ok written
  obtain ⟨units, stores⟩ := step.stored
  obtain ⟨header, front, result⟩ := of_storedBytes kept
  obtain ⟨first, rest, bytes, kind⟩ := Obu.Header.kind_of_parse front
  have start : (other.take 1).bytes = [first] := by
    rw [Chunked.bytes_take, same, bytes]
    rfl
  unfold ElementProgress.emit
  rw [start]
  rcases result with ⟨dropped, nothing⟩ | ⟨passes, obu, unit, sent, toBytes⟩
  · rw [kind] at dropped
    refine ⟨by simpa [dropped] using step.pending, units, ?_, ?_, stores.sent⟩
    · simpa [dropped] using stores.spelled
    · rw [Chunked.bytes_append, nothing, List.append_nil, stores.joined]
  · rw [kind] at passes
    refine ⟨by simpa [passes] using step.pending, units ++ [obu], ?_, ?_, ?_⟩
    · simp [passes, stores.spelled, same, unit]
    · rw [Chunked.bytes_append, stores.joined, toBytes]
      simp [Obu.joinBytes]
    · intro later member
      rcases List.mem_append.mp member with earlier | last
      · exact stores.sent later earlier
      · exact List.mem_singleton.mp last ▸ sent

/-- A piece that goes on from the packet before joins what both receivers keep, or both pass it
over.
-/
theorem absorb_continuation (step : InStep stream elements) {piece : Piece}
    (present : piece.bytes ≠ []) (continues : piece.continues = true)
    (absorbed : stream.absorb piece = .ok next)
    : InStep next (elements.absorb piece)
      ∧ (piece.continued = false → next.pending.bytes = []) := by
  obtain ⟨kept, given⟩ := elements
  unfold StreamProgress.absorb at absorbed
  unfold ElementProgress.absorb
  rw [if_pos continues] at absorbed ⊢
  cases step.pending with
  | nothing empty =>
      rw [if_pos ((Chunked.isEmpty_iff _).mpr empty)] at absorbed
      cases absorbed
      exact ⟨step, fun _ => empty⟩
  | @begun part same started =>
      rw [isEmpty_of_bytes_ne_nil started, if_neg Bool.false_ne_true] at absorbed
      cases grows : stream.grow piece.bytes with
      | error failure =>
          rw [grows] at absorbed
          cases absorbed
      | ok grown =>
          rw [grows] at absorbed
          obtain ⟨pending, output, capped⟩ := StreamProgress.grow_ok grows
          have joined : (part.push piece.bytes).bytes = grown.pending.bytes := by
            rw [pending, Chunked.bytes_push, Chunked.bytes_push, same]
          have short : ¬ maxPendingSize < (part.push piece.bytes).size := by
            rw [Chunked.size_eq_length, joined, pending, ← Chunked.size_eq_length]
            exact Nat.not_lt.mpr capped
          dsimp only at absorbed ⊢
          rw [if_neg short]
          cases continued : piece.continued with
          | true =>
              rw [continued, if_pos rfl] at absorbed
              cases absorbed
              have begun : next.pending.bytes ≠ [] := by
                rw [← joined, Chunked.bytes_push]
                simp [present]
              exact ⟨⟨.begun joined begun, output ▸ step.stored⟩, fun last => nomatch last⟩
          | false =>
              rw [continued, if_neg Bool.false_ne_true] at absorbed
              have emptied : InStep { grown with pending := .empty } ⟨none, given⟩ :=
                ⟨.nothing rfl, output ▸ step.stored⟩
              obtain ⟨stored, _, same⟩ := StreamProgress.write_ok absorbed
              refine ⟨emptied.write joined absorbed, fun _ => ?_⟩
              rw [same]
              rfl

/-- A piece keeps the receivers in step, by the cases of where it comes from and goes to. One that
starts an element must find nothing pending; one that is not continued leaves nothing pending.
-/
theorem absorb (step : InStep stream elements) {piece : Piece} (present : piece.bytes ≠ [])
    (fresh : piece.continues = false → stream.pending.bytes = [])
    (absorbed : stream.absorb piece = .ok next)
    : InStep next (elements.absorb piece)
      ∧ (piece.continued = false → next.pending.bytes = []) := by
  cases continues : piece.continues with
  | true => exact step.absorb_continuation present continues absorbed
  | false =>
      have empty := fresh continues
      unfold StreamProgress.absorb at absorbed
      unfold ElementProgress.absorb
      rw [continues, if_neg Bool.false_ne_true] at absorbed ⊢
      cases continued : piece.continued with
      | true =>
          rw [continued, if_pos rfl] at absorbed
          obtain ⟨pending, output, _⟩ := StreamProgress.grow_ok absorbed
          have same : (Chunked.ofBytes piece.bytes).bytes = next.pending.bytes := by
            rw [pending, Chunked.bytes_push, Chunked.bytes_ofBytes, empty, List.nil_append]
          have begun : next.pending.bytes ≠ [] := by
            rwa [← same, Chunked.bytes_ofBytes]
          exact ⟨⟨.begun same begun, output ▸ step.stored⟩, fun last => nomatch last⟩
      | false =>
          rw [continued, if_neg Bool.false_ne_true] at absorbed
          obtain ⟨stored, _, same⟩ := StreamProgress.write_ok absorbed
          refine ⟨step.write rfl absorbed, fun _ => ?_⟩
          rw [same]
          exact empty

/-- The pieces of a packet keep the receivers in step, by induction on the pieces: after a piece
that others follow nothing is pending.
-/
theorem absorbAll {pieces : List Piece} (step : InStep stream elements)
    (present : ∀ piece ∈ pieces, piece.bytes ≠ [])
    (later : ∀ piece ∈ pieces.tail, piece.continues = false)
    (earlier : ∀ piece ∈ pieces.dropLast, piece.continued = false)
    (fresh
      : ∀ piece, pieces.head? = some piece → piece.continues = false → stream.pending.bytes = [])
    (absorbed : stream.absorbAll pieces = .ok next)
    : InStep next (pieces.foldl ElementProgress.absorb elements) := by
  induction pieces generalizing stream elements with
  | nil =>
      cases absorbed
      exact step
  | cons piece pieces ih =>
      rw [StreamProgress.absorbAll] at absorbed
      split at absorbed
      next => cases absorbed
      next middle first =>
        obtain ⟨stepped, emptied⟩ :=
          step.absorb (present piece List.mem_cons_self) (fresh piece rfl) first
        refine ih stepped ?_ ?_ ?_ ?_ absorbed
        · intro next member
          exact present next (List.mem_cons_of_mem _ member)
        · intro next member
          exact later next (List.mem_of_mem_tail member)
        · intro next member
          cases pieces with
          | nil => cases member
          | cons second rest => exact earlier next (List.mem_cons_of_mem _ member)
        · intro second head _
          cases pieces with
          | nil => cases head
          | cons _ _ => exact emptied (earlier piece List.mem_cons_self)

end InStep

-----------------------------------------------------------------------------------------
-- Whole payloads
-----------------------------------------------------------------------------------------

/-- What is kept for a packet is the same in both receivers, also where it is nothing. -/
theorem SamePending.pendingFor {receiver : StreamReceiver} {elements : ElementReceiver}
    (same : SamePending receiver.pending elements.pending) {header : Header}
    (consistent : header.continues = true → header.startsSequence = false)
    : SamePending (receiver.pendingFor header) (elements.pendingFor header) := by
  unfold StreamReceiver.pendingFor ElementReceiver.pendingFor
  cases continues : header.continues with
  | true =>
      rw [consistent continues]
      exact same
  | false =>
      rw [Bool.not_false, Bool.or_true]
      exact .nothing rfl

/-- A payload that the stream receiver accepts is a packet, the element receiver gives the elements
of the units that it stores, and both wait for the rest of the same bytes.
-/
theorem receive_agrees {receiver next : StreamReceiver} {elements : ElementReceiver}
    (same : SamePending receiver.pending elements.pending) {payload : Bytes} {output : Chunked}
    (consistent : Consistent payload) (received : receiver.receive payload = (.ok output, next))
    : ∃ packet units,
        Packet.parse payload = .ok packet
        ∧ Stores output (elements.receive packet).1 units
        ∧ SamePending next.pending (elements.receive packet).2.pending := by
  unfold StreamReceiver.receive at received
  split at received
  next => cases received
  next packet parsed =>
    split at received
    next => cases received
    next progress absorbed =>
      cases received
      obtain ⟨first, body, bytes, header, _⟩ := Packet.parse_ok parsed
      have alone := consistent first body bytes
      rw [← header] at alone
      have start
          : InStep ⟨receiver.pendingFor packet.header, .empty⟩
              ⟨elements.pendingFor packet.header, #[]⟩ :=
        ⟨same.pendingFor alone, [], rfl, rfl, nofun⟩
      have finish := start.absorbAll
        (fun _ member => (Packet.bounds_of_mem_pieces parsed member).1)
        (fun _ member => Packet.continues_of_mem_tail_pieces member)
        (fun _ member => Packet.continued_of_mem_dropLast_pieces member)
        ?_ absorbed
      · obtain ⟨units, stores⟩ := finish.stored
        exact ⟨packet, units, parsed, stores, finish.pending⟩
      · intro piece head starts
        rw [Packet.continues_of_head?_pieces head] at starts
        rw [StreamReceiver.pendingFor_of_not_continues starts]
        rfl

/-- The receivers agree on any run that the stream receiver accepts, by induction on the payloads.
-/
theorem receiveAll_agrees {receiver last : StreamReceiver} {elements : ElementReceiver}
    (same : SamePending receiver.pending elements.pending) {payloads : List Bytes}
    {outputs : List Chunked} (consistent : ∀ payload ∈ payloads, Consistent payload)
    (accepted : receiver.receiveAll payloads = (outputs.map .ok, last))
    : ∃ packets : List Packet,
        payloads.map Packet.parse = packets.map .ok
        ∧ List.Forall₂ (fun output given => ∃ units, Stores output given units) outputs
            (elements.receiveAll packets).1
        ∧ ∀ number,
            SamePending (receiver.receiveAll (payloads.take number)).2.pending
              (elements.receiveAll (packets.take number)).2.pending := by
  induction payloads generalizing receiver elements outputs with
  | nil =>
      cases outputs with
      | nil =>
          refine ⟨[], rfl, .nil, fun number => ?_⟩
          rw [List.take_nil, List.take_nil]
          exact same
      | cons output outputs => cases accepted
  | cons payload payloads ih =>
      cases outputs with
      | nil => cases accepted
      | cons output outputs =>
          obtain ⟨received, later⟩ := StreamReceiver.receiveAll_cons_ok accepted
          obtain ⟨packet, units, parsed, stores, kept⟩ :=
            receive_agrees same (consistent payload List.mem_cons_self) received
          obtain ⟨packets, readable, stored, pending⟩ :=
            ih kept (fun next member => consistent next (List.mem_cons_of_mem _ member)) later
          refine ⟨packet :: packets, ?_, .cons ⟨units, stores⟩ stored, ?_⟩
          · rw [List.map_cons, List.map_cons, parsed, readable]
          · intro number
            cases number with
            | zero => exact same
            | succ number => exact pending number

/-- New receivers agree on payloads that the stream receiver accepts, none of which both goes on
from the packet before and starts a coded video sequence. Every payload is a packet; the elements
given for it spell the units that are stored for it, each with its size; and after every payload
both wait for the rest of the same bytes.
-/
theorem receivers_agree {payloads : List Bytes} {outputs : List Chunked} {last : StreamReceiver}
    (consistent : ∀ payload ∈ payloads, Consistent payload)
    (accepted : StreamReceiver.initial.receiveAll payloads = (outputs.map .ok, last))
    : ∃ packets : List Packet,
        payloads.map Packet.parse = packets.map .ok
        ∧ List.Forall₂ (fun output given => ∃ units, Stores output given units) outputs
            (ElementReceiver.initial.receiveAll packets).1
        ∧ ∀ number,
            SamePending (StreamReceiver.initial.receiveAll (payloads.take number)).2.pending
              (ElementReceiver.initial.receiveAll (packets.take number)).2.pending :=
  receiveAll_agrees (.nothing rfl) consistent accepted

/-- A frame in two parts with a size of its own that leaves a byte over, a delimiter behind it, a
part whose start is lost, and a sequence header: what is stored has sizes and no delimiter.
-/
theorem receivers_agree_lost_start
    : let payloads : List Bytes :=
        [[0x50, 0x32, 1], [0xA0, 2, 7, 9, 0x10, 0], [0x90, 5], [0x18, 0x08, 0x0C]]
      (∀ payload ∈ payloads, Consistent payload)
      ∧ ∃ (outputs : List Chunked) (last : StreamReceiver) (packets : List Packet),
          StreamReceiver.initial.receiveAll payloads = (outputs.map .ok, last)
          ∧ outputs.map Chunked.bytes = [[], [0x32, 1, 7], [], [0x0A, 1, 0x0C]]
          ∧ payloads.map Packet.parse = packets.map .ok
          ∧ List.Forall₂ (fun output given => ∃ units, Stores output given units) outputs
              (ElementReceiver.initial.receiveAll packets).1
          ∧ ∀ number,
              SamePending (StreamReceiver.initial.receiveAll (payloads.take number)).2.pending
                (ElementReceiver.initial.receiveAll (packets.take number)).2.pending := by
  intro payloads
  have consistent : ∀ payload ∈ payloads, Consistent payload := by
    simp only [payloads, List.forall_mem_cons, Consistent, List.cons.injEq]
    refine ⟨?_, ?_, ?_, ?_, by simp⟩ <;>
    · rintro first body ⟨rfl, rfl⟩
      decide
  obtain ⟨outputs, last, accepted, stored⟩
      : ∃ (outputs : List Chunked) (last : StreamReceiver),
          StreamReceiver.initial.receiveAll payloads = (outputs.map .ok, last)
          ∧ outputs.map Chunked.bytes = [[], [0x32, 1, 7], [], [0x0A, 1, 0x0C]] :=
    ⟨[_, _, _, _], _, rfl, by decide +kernel⟩
  obtain ⟨packets, read, agree, pending⟩ := receivers_agree consistent accepted
  exact ⟨consistent, outputs, last, packets, accepted, stored, read, agree, pending⟩

end Av1Transport.Reassembly
