import Av1Transport.Proofs.Aggregation.ReadPackets
import Av1Transport.Proofs.Obu.WrittenUnits
import Av1Transport.Proofs.Reassembly.StreamRuns
import Av1Transport.Reassembly

/-! What receivers give for any payloads at all.
A step lemma says what one piece may leave pending and add to the output; the runs follow by
induction. Main statement: whatever a stream receiver gives is a canonical stream of units that are
sent over RTP, and whatever an element receiver gives is of a kind that is sent.
-/

namespace Av1Transport.Reassembly

open Av1Transport.Aggregation

-----------------------------------------------------------------------------------------
-- Stored streams
-----------------------------------------------------------------------------------------

/-- A unit that can have been stored: the length of its payload can be written. -/
structure Storable (obu : Obu) : Prop extends Sendable obu where
  addressable : obu.payload.length < UInt64.size

/-- Units that can have been stored, back to back with their sizes. -/
def StoredStream (bytes : Bytes) : Prop :=
  ∃ units : List Obu, (∀ unit ∈ units, Storable unit) ∧ bytes = Obu.joinBytes units

theorem storedStream_nil : StoredStream [] :=
  ⟨[], by simp, rfl⟩

theorem StoredStream.append {front back : Bytes} (stored : StoredStream front)
    (more : StoredStream back)
    : StoredStream (front ++ back) := by
  obtain ⟨units, storable, rfl⟩ := stored
  obtain ⟨others, further, rfl⟩ := more
  refine ⟨units ++ others, ?_, by simp [Obu.joinBytes]⟩
  intro unit member
  rcases List.mem_append.mp member with earlier | later
  · exact storable unit earlier
  · exact further unit later

/-- What is stored for an element is a stored stream, of one unit or of none. Witness: the unit that
an element spells has a fitted header and is no longer than the element.
-/
theorem storedStream_of_storedBytes {element stored : Chunked}
    (short : element.bytes.length < UInt64.size) (written : storedBytes element = .ok stored)
    : StoredStream stored.bytes := by
  obtain ⟨header, _, ⟨_, nothing⟩ | ⟨_, obu, spelled, sent, bytes⟩⟩ := of_storedBytes written
  · rw [nothing]
    exact storedStream_nil
  · obtain ⟨count, read⟩ := elementUnit_eq_ok_iff.mp spelled
    have fitted := Obu.Header.fitted_of_parse (Obu.parse_ok read).1
    have bound := Obu.bareLength_le_of_parse read
    rw [Obu.bareLength] at bound
    refine ⟨[obu], ?_, by rw [bytes, Obu.joinBytes, List.flatMap_singleton]⟩
    intro unit member
    rw [List.mem_singleton.mp member]
    exact ⟨⟨fitted, sent⟩, by omega⟩

/-- A stored stream is canonical, and the units in it are sent. -/
theorem StoredStream.canonical {bytes : Bytes} (stored : StoredStream bytes)
    : Obu.CanonicalStream bytes ∧ ∀ obu ∈ (Obu.split bytes).values, obu.isTransmitted = true := by
  obtain ⟨units, storable, rfl⟩ := stored
  have addressable : ∀ unit ∈ units, unit.payload.length < UInt64.size :=
    fun unit member => (storable unit member).addressable
  refine ⟨Obu.canonicalStream_joinBytes addressable, ?_⟩
  intro obu member
  rw [Obu.values_split_joinBytes addressable] at member
  obtain ⟨unit, listed, rfl⟩ := List.mem_map.mp member
  have sendable := (storable unit listed).toSendable
  have kind : unit.stored.header = unit.header.withSize true := by
    rw [Obu.stored_of_fitted sendable.fitted]
  rw [Obu.isTransmitted, kind]
  exact sendable.transmitted

-----------------------------------------------------------------------------------------
-- The stream receiver
-----------------------------------------------------------------------------------------

/-- What may be pending and what may be in the output, wherever a payload is left. -/
structure StreamProgress.Sound (progress : StreamProgress) : Prop where
  capped : progress.pending.size ≤ maxPendingSize
  stored : StoredStream progress.output.bytes

namespace StreamProgress.Sound

variable {progress next : StreamProgress}

theorem grow (sound : progress.Sound) {part : Bytes} (grows : progress.grow part = .ok next)
    : next.Sound := by
  obtain ⟨pending, output, short⟩ := grow_ok grows
  exact ⟨pending ▸ short, output ▸ sound.stored⟩

theorem write (sound : progress.Sound) {element : Chunked}
    (short : element.bytes.length < UInt64.size) (written : progress.write element = .ok next)
    : next.Sound := by
  obtain ⟨stored, kept, rfl⟩ := write_ok written
  refine ⟨sound.capped, ?_⟩
  rw [Chunked.bytes_append]
  exact sound.stored.append (storedStream_of_storedBytes short kept)

/-- The pending parts are few enough for their length to be written. -/
theorem finish (sound : progress.Sound) (finished : progress.finish = .ok next) : next.Sound := by
  have emptied : StreamProgress.Sound { progress with pending := .empty } :=
    ⟨Nat.zero_le _, sound.stored⟩
  refine emptied.write ?_ finished
  rw [← Chunked.size_eq_length]
  exact lt_size_of_le_maxPendingSize sound.capped

/-- A piece of any payload keeps what may be pending and what may be given, by the cases of what it
does.
-/
theorem absorb (sound : progress.Sound) {piece : Piece}
    (short : piece.bytes.length < UInt64.size) (absorbed : progress.absorb piece = .ok next)
    : next.Sound := by
  rcases StreamProgress.absorb_ok absorbed with
    ⟨_, _, rfl⟩ | ⟨_, grows⟩ | ⟨_, _, grown, grows, finished⟩ | ⟨_, _, written⟩
  · exact sound
  · exact sound.grow grows
  · exact (sound.grow grows).finish finished
  · refine sound.write ?_ written
    rwa [Chunked.bytes_ofBytes]

/-- So do the pieces of a payload. -/
theorem absorbAll {pieces : List Piece} (sound : progress.Sound)
    (short : ∀ piece ∈ pieces, piece.bytes.length < UInt64.size)
    (absorbed : progress.absorbAll pieces = .ok next)
    : next.Sound :=
  StreamProgress.absorbAll_kept
    (fun piece member _ _ earlier first => earlier.absorb (short piece member) first) sound absorbed

end StreamProgress.Sound

namespace StreamReceiver

/-- A payload leaves no more pending than may be, and what is given for it is a stored stream. -/
theorem sound_receive {receiver : StreamReceiver}
    (capped : receiver.pending.size ≤ maxPendingSize) {payload : Bytes}
    (addressable : payload.length < UInt64.size)
    : (receiver.receive payload).2.pending.size ≤ maxPendingSize
      ∧ ∀ output, (receiver.receive payload).1 = .ok output → StoredStream output.bytes := by
  unfold receive
  split
  next => exact ⟨Nat.zero_le _, by simp⟩
  next packet parsed =>
    split
    next => exact ⟨Nat.zero_le _, by simp⟩
    next progress absorbed =>
      have start
          : StreamProgress.Sound ⟨receiver.pendingFor packet.header, .empty⟩ := by
        refine ⟨?_, storedStream_nil⟩
        unfold pendingFor
        split
        · exact Nat.zero_le _
        · exact capped
      have finish := start.absorbAll
        (fun piece member =>
          Nat.lt_trans (Packet.bounds_of_mem_pieces parsed member).2 addressable)
        absorbed
      refine ⟨finish.capped, ?_⟩
      intro output given
      cases given
      exact finish.stored

/-- Whatever a receiver gives in a run is a stored stream, by induction on the payloads. -/
theorem storedStream_of_mem_receiveAll {receiver : StreamReceiver}
    (capped : receiver.pending.size ≤ maxPendingSize) {payloads : List Bytes}
    (addressable : ∀ payload ∈ payloads, payload.length < UInt64.size) {output : Chunked}
    (given : .ok output ∈ (receiver.receiveAll payloads).1)
    : StoredStream output.bytes := by
  induction payloads generalizing receiver with
  | nil => cases given
  | cons payload payloads ih =>
      obtain ⟨kept, stored⟩ := sound_receive capped (addressable payload List.mem_cons_self)
      rcases List.mem_cons.mp given with first | later
      · exact stored output first.symm
      · exact ih kept (fun next member => addressable next (List.mem_cons_of_mem _ member)) later

end StreamReceiver

-----------------------------------------------------------------------------------------
-- The element receiver
-----------------------------------------------------------------------------------------

/-- The element is there, and its first byte says a kind that is sent. -/
def OfSentKind (element : Bytes) : Prop :=
  ∃ first rest,
    element = first :: rest ∧ (Obu.Header.kindOfByte first).isTransmitted = true

theorem not_ofSentKind_nil : ¬ OfSentKind [] := by
  rintro ⟨_, _, same, _⟩
  cases same

theorem ofSentKind_cons {first : UInt8} {rest : Bytes}
    : OfSentKind (first :: rest) ↔ (Obu.Header.kindOfByte first).isTransmitted = true := by
  constructor
  · rintro ⟨_, _, same, sent⟩
    cases same
    exact sent
  · intro sent
    exact ⟨first, rest, rfl, sent⟩

instance (element : Bytes) : Decidable (OfSentKind element) :=
  match element with
  | [] => .isFalse not_ofSentKind_nil
  | _ :: _ => decidable_of_iff _ ofSentKind_cons.symm

namespace ElementProgress

variable {progress : ElementProgress}

theorem ofSentKind_emit (sent : ∀ given ∈ progress.elements, OfSentKind given.bytes)
    (element : Chunked)
    : ∀ given ∈ (progress.emit element).elements, OfSentKind given.bytes := by
  unfold emit
  split
  next => exact sent
  next first rest start =>
    split
    next passes =>
      intro given member
      rcases Array.mem_push.mp member with earlier | rfl
      · exact sent given earlier
      · rw [Chunked.bytes_take] at start
        cases bytes : given.bytes with
        | nil =>
            rw [bytes] at start
            cases start
        | cons head tail =>
            rw [bytes] at start
            cases start
            exact ⟨first, tail, rfl, passes⟩
    next => exact sent

/-- No piece gives an element of another kind, by the cases of where it comes from and goes to. -/
theorem ofSentKind_absorb (sent : ∀ given ∈ progress.elements, OfSentKind given.bytes)
    (piece : Piece)
    : ∀ given ∈ (progress.absorb piece).elements, OfSentKind given.bytes := by
  unfold absorb
  split
  next =>
    split
    next => exact sent
    next pending _ =>
      dsimp only
      split
      next => exact sent
      next =>
        split
        next => exact sent
        next =>
          -- what was pending does not matter for what is given
          have emptied
              : ∀ given ∈ ({ progress with pending := none } : ElementProgress).elements,
                  OfSentKind given.bytes :=
            sent
          exact ofSentKind_emit emptied (pending.push piece.bytes)
  next =>
    split
    next => exact sent
    next => exact ofSentKind_emit sent (.ofBytes piece.bytes)

theorem ofSentKind_foldl_absorb (sent : ∀ given ∈ progress.elements, OfSentKind given.bytes)
    (pieces : List Piece)
    : ∀ given ∈ (pieces.foldl absorb progress).elements, OfSentKind given.bytes := by
  induction pieces generalizing progress with
  | nil => exact sent
  | cons piece pieces ih => exact ih (ofSentKind_absorb sent piece)

end ElementProgress

/-- Whatever a receiver gives in a run is of a kind that is sent, by induction on the packets. -/
theorem ElementReceiver.ofSentKind_of_mem_receiveAll {receiver : ElementReceiver}
    {packets : List Packet} {elements : List Chunked}
    (given : elements ∈ (receiver.receiveAll packets).1) {element : Chunked}
    (member : element ∈ elements)
    : OfSentKind element.bytes := by
  induction packets generalizing receiver with
  | nil => cases given
  | cons packet packets ih =>
      rcases List.mem_cons.mp given with rfl | later
      · exact ElementProgress.ofSentKind_foldl_absorb (by simp) packet.pieces element
          (Array.mem_toList_iff.mp member)
      · exact ih later

/-- Whatever payloads come, what new receivers give is what may be stored. A stream that is given is
canonical: all of it is units, each with a size in its shortest form and of a kind that is sent. An
element that is given has a first byte, which says a kind that is sent.
-/
theorem outputs_canonical {payloads : List Bytes}
    (addressable : ∀ payload ∈ payloads, payload.length < UInt64.size)
    : (∀ output, .ok output ∈ (StreamReceiver.initial.receiveAll payloads).1
        → Obu.CanonicalStream output.bytes
          ∧ ∀ obu ∈ (Obu.split output.bytes).values, obu.isTransmitted = true)
      ∧ ∀ packets : List Packet,
          ∀ elements ∈ (ElementReceiver.initial.receiveAll packets).1,
          ∀ element ∈ elements, OfSentKind element.bytes := by
  refine ⟨?_, ?_⟩
  · intro output given
    exact (StreamReceiver.storedStream_of_mem_receiveAll (Nat.zero_le _) addressable
      given).canonical
  · intro packets elements given element member
    exact ElementReceiver.ofSentKind_of_mem_receiveAll given member

/-- A delimiter in two parts, an element with a size of its own in two bytes and bytes behind it, a
size that is too large, and two whole elements.
-/
def hostilePayloads : List Bytes :=
  [[0x50, 0x12], [0x90, 0], [0x10, 0x32, 0x82, 0, 1, 2, 9, 9], [0x10, 0x32, 9, 1],
    [0x20, 2, 0x08, 0xCC, 0x30, 7]]

/-- The delimiter is left out, the size is written anew, the bytes behind it are dropped, and what
cannot be read is rejected.
-/
theorem outputs_canonical_hostile
    : (∀ payload ∈ hostilePayloads, payload.length < UInt64.size)
      ∧ (StreamReceiver.initial.receiveAll hostilePayloads).1.map
            (fun result => (result.map Chunked.bytes).toOption)
          = [some [], some [], some [0x32, 2, 1, 2], none, some [0x0A, 1, 0xCC, 0x32, 1, 7]]
      ∧ ∀ output, .ok output ∈ (StreamReceiver.initial.receiveAll hostilePayloads).1
        → Obu.CanonicalStream output.bytes
          ∧ ∀ obu ∈ (Obu.split output.bytes).values, obu.isTransmitted = true := by
  have addressable : ∀ payload ∈ hostilePayloads, payload.length < UInt64.size := by decide
  exact ⟨addressable, by decide +kernel, (outputs_canonical addressable).1⟩

end Av1Transport.Reassembly
