import Av1Transport.Proofs.Aggregation.FramePackets
import Av1Transport.Proofs.Reassembly.StoredElements

/-! Runs of the stream receiver over the packets of a group.
A step lemma says what one piece does to the pending unit and to the output; the runs follow the
units of a bundle and the parts of a cut unit.
-/

namespace Av1Transport.Reassembly

open Av1Transport.Aggregation

-----------------------------------------------------------------------------------------
-- Single elements and pieces
-----------------------------------------------------------------------------------------

/-- A part that may still be pending is short enough to have its length written. -/
theorem lt_size_of_le_maxPendingSize {length : Nat} (capped : length ≤ maxPendingSize)
    : length < UInt64.size :=
  Nat.lt_of_le_of_lt capped (by decide)

theorem isEmpty_of_bytes_ne_nil {pending : Chunked} (started : pending.bytes ≠ [])
    : pending.isEmpty = false := by
  rw [← Bool.not_eq_true, Chunked.isEmpty_iff]
  exact started

/-- A unit as it comes out of a stream, of a kind that is sent. -/
structure Sendable (obu : Obu) : Prop where
  fitted : obu.header.fitted = obu.header
  transmitted : obu.isTransmitted = true

namespace StreamProgress

/-- The element of a unit puts that unit at the end of the output. -/
theorem write_of_bytes {obu : Obu} (sendable : Sendable obu) {element : Chunked}
    (whole : element.bytes = obu.bareBytes) (progress : StreamProgress)
    : ∃ next,
        progress.write element = .ok next
        ∧ next.pending = progress.pending
        ∧ next.output.bytes = progress.output.bytes ++ obu.toBytes := by
  have spelled := elementUnit_bareBytes sendable.fitted
  rw [← whole] at spelled
  obtain ⟨next, written, kept, output⟩ := write_of_elementUnit spelled progress
  have sent : Obu.isTransmitted ⟨obu.header.withSize false, obu.payload⟩ = true :=
    sendable.transmitted
  rw [storedUnits_of_isTransmitted sent] at output
  exact ⟨next, written, kept, output⟩

theorem grow_of_le {progress : StreamProgress} {part : Bytes}
    (capped : progress.pending.bytes.length + part.length ≤ maxPendingSize)
    : progress.grow part = .ok { progress with pending := progress.pending.push part } := by
  rw [grow, Chunked.size_eq_length, if_neg (by omega)]

/-- A part that is kept stands behind the bytes that were pending, and they are not too many. -/
theorem grow_ok {progress grown : StreamProgress} {part : Bytes}
    (grows : progress.grow part = .ok grown)
    : grown.pending = progress.pending.push part
      ∧ grown.output = progress.output
      ∧ (progress.pending.push part).size ≤ maxPendingSize := by
  unfold grow at grows
  split at grows
  next => cases grows
  next short =>
    cases grows
    exact ⟨rfl, rfl, Nat.not_lt.mp short⟩

/-- An element that is written leaves what is pending as it is. -/
theorem write_ok {progress next : StreamProgress} {element : Chunked}
    (written : progress.write element = .ok next)
    : ∃ stored,
        storedBytes element = .ok stored
        ∧ next = { progress with output := progress.output ++ stored } := by
  unfold write at written
  split at written
  next => cases written
  next stored kept =>
    cases written
    exact ⟨stored, kept, rfl⟩

/-- What a piece can do: it is passed over, joins the pending parts, completes them, or is an
element of its own.
-/
theorem absorb_ok {progress next : StreamProgress} {piece : Piece}
    (absorbed : progress.absorb piece = .ok next)
    : (piece.continues = true ∧ progress.pending.isEmpty = true ∧ next = progress)
      ∨ (piece.continued = true ∧ progress.grow piece.bytes = .ok next)
      ∨ (piece.continues = true
        ∧ piece.continued = false
        ∧ ∃ grown, progress.grow piece.bytes = .ok grown ∧ grown.finish = .ok next)
      ∨ (piece.continues = false
        ∧ piece.continued = false
        ∧ progress.write (.ofBytes piece.bytes) = .ok next) := by
  unfold absorb at absorbed
  split at absorbed
  next continues =>
    split at absorbed
    next idle =>
      cases absorbed
      exact Or.inl ⟨continues, idle, rfl⟩
    next =>
      split at absorbed
      next => cases absorbed
      next grown grows =>
        split at absorbed
        next continued =>
          cases absorbed
          exact Or.inr (Or.inl ⟨continued, grows⟩)
        next last =>
          exact Or.inr (Or.inr (Or.inl
            ⟨continues, Bool.eq_false_iff.mpr last, grown, grows, absorbed⟩))
  next starts =>
    split at absorbed
    next continued => exact Or.inr (Or.inl ⟨continued, absorbed⟩)
    next last =>
      exact Or.inr (Or.inr (Or.inr
        ⟨Bool.eq_false_iff.mpr starts, Bool.eq_false_iff.mpr last, absorbed⟩))

/-- What every piece keeps is kept by all of them in order, by induction on the pieces. -/
theorem absorbAll_kept {Kept : StreamProgress → Prop} {pieces : List Piece}
    (step
      : ∀ piece ∈ pieces,
          ∀ {before after : StreamProgress},
            Kept before → before.absorb piece = .ok after → Kept after)
    {progress next : StreamProgress} (kept : Kept progress)
    (absorbed : progress.absorbAll pieces = .ok next)
    : Kept next := by
  induction pieces generalizing progress with
  | nil =>
      cases absorbed
      exact kept
  | cons piece pieces ih =>
      rw [absorbAll] at absorbed
      split at absorbed
      next => cases absorbed
      next middle first =>
        exact ih (fun later member => step later (List.mem_cons_of_mem _ member))
          (step piece List.mem_cons_self kept first) absorbed

/-- Whole units go to the output one after the other, by induction on the units. -/
theorem absorbAll_whole {obus : List Obu} (sendable : ∀ obu ∈ obus, Sendable obu)
    (progress : StreamProgress)
    : ∃ next,
        progress.absorbAll (obus.map fun obu => ⟨obu.bareBytes, false, false⟩) = .ok next
        ∧ next.pending = progress.pending
        ∧ next.output.bytes = progress.output.bytes ++ Obu.joinBytes obus := by
  induction obus generalizing progress with
  | nil => exact ⟨progress, rfl, rfl, by simp [Obu.joinBytes]⟩
  | cons obu obus ih =>
      obtain ⟨middle, written, pending, output⟩ := progress.write_of_bytes
        (sendable obu (by simp)) (Chunked.bytes_ofBytes obu.bareBytes)
      obtain ⟨last, later, same, bytes⟩ :=
        ih (fun next member => sendable next (by simp [member])) middle
      refine ⟨last, ?_, same.trans pending, ?_⟩
      · simp [absorbAll, absorb, written, later]
      · simp [bytes, output, Obu.joinBytes]

end StreamProgress

-----------------------------------------------------------------------------------------
-- Runs that yield bytes
-----------------------------------------------------------------------------------------

namespace StreamReceiver

/-- The receiver accepts all the payloads, gives these bytes for them, and is left as `last`. -/
def Yields (receiver : StreamReceiver) (payloads : List Bytes) (bytes : Bytes)
    (last : StreamReceiver)
    : Prop :=
  ∃ outputs : List Chunked,
    receiver.receiveAll payloads = (outputs.map .ok, last)
    ∧ outputs.flatMap Chunked.bytes = bytes

variable {receiver middle last : StreamReceiver} {payloads later : List Bytes}
  {bytes more : Bytes}

theorem yields_nil (receiver : StreamReceiver) : receiver.Yields [] [] receiver :=
  ⟨[], rfl, rfl⟩

theorem Yields.cons {payload : Bytes} {output : Chunked}
    (received : receiver.receive payload = (.ok output, middle))
    (run : middle.Yields payloads bytes last)
    : receiver.Yields (payload :: payloads) (output.bytes ++ bytes) last := by
  obtain ⟨outputs, results, joined⟩ := run
  exact ⟨output :: outputs, by simp [receiveAll, received, results], by simp [joined]⟩

/-- A run without a rejected payload is its first step and the run after it. -/
theorem receiveAll_cons_ok {payload : Bytes} {output : Chunked} {outputs : List Chunked}
    (accepted : receiver.receiveAll (payload :: payloads) = ((output :: outputs).map .ok, last))
    : receiver.receive payload = (.ok output, (receiver.receive payload).2)
      ∧ (receiver.receive payload).2.receiveAll payloads = (outputs.map .ok, last) := by
  simp only [receiveAll, List.map_cons, Prod.mk.injEq, List.cons.injEq] at accepted
  obtain ⟨⟨first, others⟩, final⟩ := accepted
  exact ⟨Prod.ext first rfl, Prod.ext others final⟩

theorem Yields.single {payload : Bytes} (run : receiver.Yields [payload] bytes last)
    : ∃ output, receiver.receive payload = (.ok output, last) ∧ output.bytes = bytes := by
  obtain ⟨outputs, results, joined⟩ := run
  cases outputs with
  | nil => cases results
  | cons output outputs =>
      obtain ⟨received, nothing⟩ := receiveAll_cons_ok results
      have none : outputs = [] := List.map_eq_nil_iff.mp (congrArg Prod.fst nothing).symm
      have same : (receiver.receive payload).2 = last := congrArg Prod.snd nothing
      rw [none, List.flatMap_singleton] at joined
      exact ⟨output, same ▸ received, joined⟩

/-- The answers to a longer run are those to its parts, by induction on the first part. -/
theorem receiveAll_append (receiver : StreamReceiver) (payloads later : List Bytes)
    : receiver.receiveAll (payloads ++ later)
      = ((receiver.receiveAll payloads).1
          ++ ((receiver.receiveAll payloads).2.receiveAll later).1,
        ((receiver.receiveAll payloads).2.receiveAll later).2) := by
  induction payloads generalizing receiver with
  | nil => rfl
  | cons payload payloads ih => simp [receiveAll, ih]

theorem length_receiveAll (receiver : StreamReceiver) (payloads : List Bytes)
    : (receiver.receiveAll payloads).1.length = payloads.length := by
  induction payloads generalizing receiver with
  | nil => rfl
  | cons payload payloads ih => simp [receiveAll, ih]

theorem Yields.append (run : receiver.Yields payloads bytes middle)
    (next : middle.Yields later more last)
    : receiver.Yields (payloads ++ later) (bytes ++ more) last := by
  obtain ⟨outputs, results, joined⟩ := run
  obtain ⟨outputs', results', joined'⟩ := next
  refine ⟨outputs ++ outputs', ?_, by simp [joined, joined']⟩
  simp [receiveAll_append, results, results']

theorem receive_toBytes {packet : Packet} (writable : packet.Writable)
    {progress : StreamProgress}
    (absorbed
      : StreamProgress.absorbAll ⟨receiver.pendingFor packet.header, .empty⟩ packet.pieces
        = .ok progress)
    : receiver.receive packet.toBytes = (.ok progress.output, ⟨progress.pending⟩) := by
  simp only [receive, Packet.parse_toBytes writable, absorbed]

-----------------------------------------------------------------------------------------
-- Groups
-----------------------------------------------------------------------------------------

theorem pendingFor_of_not_continues {header : Header} (starts : header.continues = false)
    (receiver : StreamReceiver)
    : receiver.pendingFor header = .empty := by
  simp [pendingFor, starts]

/-- A packet of whole units yields them, and leaves nothing pending, whatever was pending
before.
-/
theorem yields_packet {obus : List Obu} (present : obus ≠ [])
    (addressable : ∀ obu ∈ obus, obu.bareLength < UInt64.size)
    (sendable : ∀ obu ∈ obus, Sendable obu) (receiver : StreamReceiver)
    : receiver.Yields [(Bundle.packet obus).toBytes] (Obu.joinBytes obus) initial := by
  have fresh : receiver.pendingFor (Bundle.packet obus).header = .empty :=
    pendingFor_of_not_continues rfl receiver
  obtain ⟨progress, absorbed, pending, output⟩ := StreamProgress.absorbAll_whole sendable
    ⟨receiver.pendingFor (Bundle.packet obus).header, .empty⟩
  rw [← Bundle.pieces_packet] at absorbed
  have received := receive_toBytes (Bundle.writable_packet present addressable) absorbed
  rw [pending, fresh] at received
  have run := Yields.cons received (yields_nil _)
  rw [output] at run
  simpa [initial] using run

section Parts

variable {part : Bytes} (present : part ≠ [])
include present

/-- The first part of a unit is kept, and nothing else of what was pending before. -/
theorem receive_first_part (capped : part.length ≤ maxPendingSize) (startsSequence : Bool)
    (receiver : StreamReceiver)
    : receiver.receive (Group.partPacket false true startsSequence part).toBytes
      = (.ok .empty, ⟨.ofBytes part⟩) := by
  have size := lt_size_of_le_maxPendingSize capped
  have writable := Group.writable_partPacket present size false true startsSequence
  have grown : StreamProgress.grow ⟨.empty, .empty⟩ part = .ok ⟨.ofBytes part, .empty⟩ :=
    StreamProgress.grow_of_le (by simpa using capped)
  have absorbed
      : StreamProgress.absorbAll
            ⟨receiver.pendingFor (Group.partPacket false true startsSequence part).header, .empty⟩
            (Group.partPacket false true startsSequence part).pieces
        = .ok ⟨.ofBytes part, .empty⟩ := by
    rw [Group.pieces_partPacket, pendingFor_of_not_continues rfl]
    simp [StreamProgress.absorbAll, StreamProgress.absorb, grown]
  exact receive_toBytes writable absorbed

variable {pending : Chunked} (started : pending.bytes ≠ [])
include started

/-- A further part of a unit joins the parts before it. -/
theorem receive_middle_part (capped : pending.bytes.length + part.length ≤ maxPendingSize)
    : receive ⟨pending⟩ (Group.partPacket true true false part).toBytes
      = (.ok .empty, ⟨pending.push part⟩) := by
  have size : part.length < UInt64.size := lt_size_of_le_maxPendingSize (by omega)
  have writable := Group.writable_partPacket present size true true false
  have occupied := isEmpty_of_bytes_ne_nil started
  have grown
      : StreamProgress.grow ⟨pending, .empty⟩ part = .ok ⟨pending.push part, .empty⟩ :=
    StreamProgress.grow_of_le capped
  have absorbed
      : StreamProgress.absorbAll
            ⟨pendingFor ⟨pending⟩ (Group.partPacket true true false part).header, .empty⟩
            (Group.partPacket true true false part).pieces
        = .ok ⟨pending.push part, .empty⟩ := by
    rw [Group.pieces_partPacket]
    simp [pendingFor, Group.partPacket, StreamProgress.absorbAll, StreamProgress.absorb,
      occupied, grown]
  exact receive_toBytes writable absorbed

/-- The last part of a unit completes it. -/
theorem receive_last_part {obu : Obu} (sendable : Sendable obu)
    (capped : obu.bareLength ≤ maxPendingSize) (whole : pending.bytes ++ part = obu.bareBytes)
    : ∃ output,
        receive ⟨pending⟩ (Group.partPacket true false false part).toBytes
          = (.ok output, initial)
        ∧ output.bytes = obu.toBytes := by
  have length := congrArg List.length whole
  rw [List.length_append, Obu.length_bareBytes] at length
  have size : part.length < UInt64.size := lt_size_of_le_maxPendingSize (by omega)
  have writable := Group.writable_partPacket present size true false false
  have occupied := isEmpty_of_bytes_ne_nil started
  have grown
      : StreamProgress.grow ⟨pending, .empty⟩ part = .ok ⟨pending.push part, .empty⟩ :=
    StreamProgress.grow_of_le (by dsimp only; omega)
  obtain ⟨progress, written, nothing, output⟩ := StreamProgress.write_of_bytes sendable
    (whole ▸ Chunked.bytes_push pending part) ⟨.empty, .empty⟩
  have absorbed
      : StreamProgress.absorbAll
            ⟨pendingFor ⟨pending⟩ (Group.partPacket true false false part).header, .empty⟩
            (Group.partPacket true false false part).pieces
        = .ok progress := by
    rw [Group.pieces_partPacket]
    simp [pendingFor, Group.partPacket, StreamProgress.absorbAll, StreamProgress.absorb,
      occupied, grown, StreamProgress.finish, written]
  refine ⟨progress.output, ?_, by simpa using output⟩
  have received := receive_toBytes writable absorbed
  rwa [nothing] at received

end Parts

/-- The parts that are left of a unit complete it: the run yields the unit. Witness: induction on
the parts; the pending bytes and the parts to come are the unit's bytes throughout.
-/
theorem yields_continuationPackets {obu : Obu} (sendable : Sendable obu)
    (capped : obu.bareLength ≤ maxPendingSize) {pending : Chunked} {parts : List Bytes}
    (started : pending.bytes ≠ []) (remaining : parts ≠ [])
    (present : ∀ part ∈ parts, part ≠ [])
    (whole : pending.bytes ++ parts.flatten = obu.bareBytes)
    : Yields ⟨pending⟩ ((Group.continuationPackets parts).map Packet.toBytes) obu.toBytes
        initial := by
  induction parts generalizing pending with
  | nil => exact absurd rfl remaining
  | cons part parts ih =>
      have first := present part (by simp)
      cases parts with
      | nil =>
          obtain ⟨output, received, bytes⟩ :=
            receive_last_part first started sendable capped (by simpa using whole)
          have run := Yields.cons received (yields_nil _)
          rwa [bytes, List.append_nil] at run
      | cons next parts =>
          have length := congrArg List.length whole
          simp only [List.length_append, List.flatten_cons, Obu.length_bareBytes] at length
          have received := receive_middle_part first started (by omega)
          have grown : (pending.push part).bytes ≠ [] := by simp [started]
          have later := ih grown (by simp) (fun part member => present part (by simp [member]))
            (by simpa using whole)
          exact Yields.cons received later

/-- The packets of a unit that is cut yield that unit, whatever was pending before. -/
theorem yields_fragmentPackets {obu : Obu} (sendable : Sendable obu) {mtu : Nat}
    (room : 2 ≤ mtu) (long : mtu ≤ obu.bareLength) (capped : obu.bareLength ≤ maxPendingSize)
    (receiver : StreamReceiver)
    : receiver.Yields ((Group.fragmentPackets mtu obu).map Packet.toBytes) obu.toBytes
        initial := by
  obtain ⟨first, parts, cut, remaining, whole, bounded⟩ := Group.exists_blocks_of_long room long
  obtain ⟨started, short⟩ := bounded first List.mem_cons_self
  have kept : (Chunked.ofBytes first).bytes ≠ [] := by simpa using started
  have continued : (!parts.isEmpty) = true := by simpa using remaining
  have later := yields_continuationPackets sendable capped kept remaining
    (fun part member => (bounded part (List.mem_cons_of_mem _ member)).1) (by simpa using whole)
  rw [Group.fragmentPackets_of_blocks cut, continued]
  exact Yields.cons (receive_first_part started (by omega) _ receiver) later

end StreamReceiver

end Av1Transport.Reassembly
