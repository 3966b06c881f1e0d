import Av1Transport.Proofs.Aggregation.AcceptedPayloads
import Av1Transport.Proofs.Reassembly.CanonicalOutputs
import Av1Transport.Proofs.Reassembly.ElementRuns

/-! What an element receiver puts together from parts, and how much it keeps.
A packet that begins an element is kept whatever its length, and the length is looked at when more
parts come. Main statement: every element that is joined is short enough, and what is pending is so
exactly as long as no packet begins an element with a part that is too long by itself.
-/

namespace Av1Transport.Reassembly

open Av1Transport.Aggregation

-----------------------------------------------------------------------------------------
-- Elements that pieces complete
-----------------------------------------------------------------------------------------

/-- The elements that pieces have whole. -/
def wholeElements (pieces : List Piece) : List Bytes :=
  (pieces.filter fun piece => !piece.continues && !piece.continued).map Piece.bytes

/-- The element that pieces complete from the parts before: the first of them is its last part. -/
def joinedElement? (pending : Option Chunked) : List Piece → Option Bytes
  | ⟨part, true, false⟩ :: _ => pending.map fun earlier => earlier.bytes ++ part
  | _ => none

/-- The last element of a packet is begun in it, with a part that is too long by itself. -/
def BeginsOverlong (packet : Packet) : Prop :=
  ∃ part, packet.pieces.getLast? = some ⟨part, false, true⟩ ∧ maxPendingSize < part.length

/-- No more bytes are pending than may be. -/
def ElementReceiver.Capped (receiver : ElementReceiver) : Prop :=
  ∀ pending, receiver.pending = some pending → pending.bytes.length ≤ maxPendingSize

namespace ElementProgress

/-- The elements so far, as bytes. -/
def given (progress : ElementProgress) : List Bytes :=
  progress.elements.toList.map Chunked.bytes

theorem pending_emit (progress : ElementProgress) (element : Chunked)
    : (progress.emit element).pending = progress.pending := by
  unfold emit
  split
  · rfl
  · split
    · rfl
    · rfl

/-- A complete element is given where its kind is sent, by cases on its first byte. -/
theorem given_emit (progress : ElementProgress) (element : Chunked)
    : (progress.emit element).given = progress.given ++ [element.bytes].filter OfSentKind := by
  unfold emit
  rw [Chunked.bytes_take]
  cases bytes : element.bytes with
  | nil => simp [not_ofSentKind_nil]
  | cons first rest =>
      cases sent : (Obu.Header.kindOfByte first).isTransmitted with
      | false => simp [sent, ofSentKind_cons]
      | true => simp [given, sent, ofSentKind_cons, bytes]

/-- What becomes of a part that joins what is pending. -/
theorem absorb_of_pending (earlier : Chunked) (elements : Array Chunked) (part : Bytes)
    (continued : Bool)
    : absorb ⟨some earlier, elements⟩ ⟨part, true, continued⟩
      = if maxPendingSize < (earlier.push part).size then
          ⟨none, elements⟩
        else if continued then
          ⟨some (earlier.push part), elements⟩
        else
          emit ⟨none, elements⟩ (earlier.push part) :=
  rfl

/-- A part of an element that was begun before joins what is pending. The two are given up if they
are too long, kept if they go on, and given if they are complete and of a kind that is sent.
-/
theorem absorb_continuation (pending : Option Chunked) (piece : Piece) (later : List Piece)
    (continues : piece.continues = true)
    : (absorb ⟨pending, #[]⟩ piece).given
        = ((joinedElement? pending (piece :: later)).toList.filter
            fun element => element.length ≤ maxPendingSize).filter OfSentKind
      ∧ ∀ kept,
          (absorb ⟨pending, #[]⟩ piece).pending = some kept
          → kept.bytes.length ≤ maxPendingSize := by
  obtain ⟨part, _, continued⟩ := piece
  cases continues
  cases pending with
  | none =>
      cases continued with
      | false => exact ⟨rfl, fun _ kept => nomatch kept⟩
      | true => exact ⟨rfl, fun _ kept => nomatch kept⟩
  | some earlier =>
      have size : (earlier.push part).size = (earlier.bytes ++ part).length := by
        rw [Chunked.size_eq_length, Chunked.bytes_push]
      rw [absorb_of_pending, size]
      by_cases long : maxPendingSize < (earlier.bytes ++ part).length
      · rw [if_pos long]
        have dropped
            : [earlier.bytes ++ part].filter (fun element => element.length ≤ maxPendingSize)
              = [] :=
          List.filter_cons_of_neg (mt of_decide_eq_true (Nat.not_le.mpr long))
        refine ⟨?_, fun _ kept => nomatch kept⟩
        cases continued with
        | false => exact (congrArg (List.filter OfSentKind) dropped).symm
        | true => rfl
      · rw [if_neg long]
        have short : (earlier.bytes ++ part).length ≤ maxPendingSize := Nat.not_lt.mp long
        have fits
            : [earlier.bytes ++ part].filter (fun element => element.length ≤ maxPendingSize)
              = [earlier.bytes ++ part] :=
          List.filter_cons_of_pos (decide_eq_true short)
        cases continued with
        | false =>
            have nothing : given ⟨none, #[]⟩ = [] := rfl
            rw [if_neg Bool.false_ne_true, given_emit, pending_emit, Chunked.bytes_push, nothing,
              List.nil_append]
            exact ⟨(congrArg (List.filter OfSentKind) fits).symm, fun _ kept => nomatch kept⟩
        | true =>
            refine ⟨rfl, fun _ kept => ?_⟩
            cases kept
            rwa [Chunked.bytes_push]

/-- Pieces that go on from no other packet give the elements that they have whole, by induction on
the pieces.
-/
theorem given_foldl_absorb {pieces : List Piece}
    (starts : ∀ piece ∈ pieces, piece.continues = false) (progress : ElementProgress)
    : (pieces.foldl absorb progress).given
      = progress.given ++ (wholeElements pieces).filter OfSentKind := by
  induction pieces generalizing progress with
  | nil => exact (List.append_nil _).symm
  | cons piece pieces ih =>
      obtain ⟨part, _, continued⟩ := piece
      cases starts _ List.mem_cons_self
      rw [List.foldl_cons, ih fun next member => starts next (List.mem_cons_of_mem _ member)]
      cases continued with
      | false =>
          have whole
              : wholeElements (⟨part, false, false⟩ :: pieces) = [part] ++ wholeElements pieces :=
            rfl
          have given := progress.given_emit (.ofBytes part)
          rw [Chunked.bytes_ofBytes] at given
          rw [whole, List.filter_append, ← List.append_assoc, ← given]
          rfl
      | true => rfl

/-- Behind a piece that is not continued nothing is pending, if a piece that starts an element found
nothing pending either.
-/
theorem pending_absorb_of_not_continued {progress : ElementProgress} {piece : Piece}
    (last : piece.continued = false)
    (fresh : piece.continues = false → progress.pending = none)
    : (progress.absorb piece).pending = none := by
  obtain ⟨part, continues, _⟩ := piece
  obtain ⟨pending, elements⟩ := progress
  cases last
  cases continues with
  | false => exact (pending_emit _ _).trans (fresh rfl)
  | true =>
      cases pending with
      | none => rfl
      | some earlier =>
          rw [absorb_of_pending, if_neg Bool.false_ne_true]
          split
          · rfl
          · exact pending_emit _ _

/-- So it is behind several such pieces, by induction on them. -/
theorem pending_foldl_absorb {pieces : List Piece} {progress : ElementProgress}
    (last : ∀ piece ∈ pieces, piece.continued = false)
    (fresh
      : ∀ piece, pieces.head? = some piece → piece.continues = false → progress.pending = none)
    (present : pieces ≠ [])
    : (pieces.foldl absorb progress).pending = none := by
  induction pieces generalizing progress with
  | nil => exact absurd rfl present
  | cons piece pieces ih =>
      have emptied := pending_absorb_of_not_continued (last piece List.mem_cons_self)
        (fresh piece rfl)
      cases pieces with
      | nil => exact emptied
      | cons next pieces =>
          exact ih (fun later member => last later (List.mem_cons_of_mem _ member))
            (fun _ _ _ => emptied) (List.cons_ne_nil next pieces)

end ElementProgress

namespace ElementReceiver

variable {packet : Packet}

theorem pendingFor_of_not_continues {header : Header} (starts : header.continues = false)
    (receiver : ElementReceiver)
    : receiver.pendingFor header = none := by
  rw [pendingFor, starts, if_neg Bool.false_ne_true]

/-- What a packet gives are, in order, the element that it joins from the parts before, unless it is
too long, and the elements that it has whole, all where their kind is sent. Witness: only its first
piece can go on from the packet before.
-/
theorem given_receive (receiver : ElementReceiver) (packet : Packet)
    : (receiver.receive packet).1.map Chunked.bytes
      = ((joinedElement? (receiver.pendingFor packet.header) packet.pieces).toList.filter
            (fun element => element.length ≤ maxPendingSize)
          ++ wholeElements packet.pieces).filter OfSentKind := by
  show (packet.pieces.foldl ElementProgress.absorb
      ⟨receiver.pendingFor packet.header, #[]⟩).given = _
  have tail : ∀ piece ∈ packet.pieces.tail, piece.continues = false :=
    fun _ member => Packet.continues_of_mem_tail_pieces member
  generalize packet.pieces = pieces at tail
  cases pieces with
  | nil => rfl
  | cons first later =>
      cases continues : first.continues with
      | false =>
          have starts : ∀ piece ∈ first :: later, piece.continues = false := by
            intro piece member
            rcases List.mem_cons.mp member with rfl | behind
            · exact continues
            · exact tail piece behind
          have joined : ∀ pending, joinedElement? pending (first :: later) = none := by
            obtain ⟨part, _, continued⟩ := first
            cases continues
            exact fun _ => rfl
          rw [ElementProgress.given_foldl_absorb starts, joined]
          rfl
      | true =>
          have whole : wholeElements (first :: later) = wholeElements later := by
            simp [wholeElements, continues]
          rw [List.tail_cons] at tail
          rw [List.foldl_cons, ElementProgress.given_foldl_absorb tail,
            (ElementProgress.absorb_continuation _ first later continues).1, whole,
            List.filter_append]

/-- A part that begins an element is kept, however long it is. -/
theorem pending_receive_of_begins {part : Bytes}
    (begins : packet.pieces.getLast? = some ⟨part, false, true⟩) (receiver : ElementReceiver)
    : (receiver.receive packet).2.pending = some (.ofBytes part) := by
  obtain ⟨front, pieces⟩ := List.getLast?_eq_some_iff.mp begins
  show (packet.pieces.foldl ElementProgress.absorb _).pending = _
  rw [pieces, List.foldl_append]
  rfl

/-- What is pending behind a packet is short enough, or is the part that begins its last element.
Witness: a last piece that goes on from the packet before is the only one, and one that is not
continued leaves nothing pending.
-/
theorem pending_receive (present : packet.pieces ≠ []) {receiver : ElementReceiver}
    {pending : Chunked} (kept : (receiver.receive packet).2.pending = some pending)
    : pending.bytes.length ≤ maxPendingSize
      ∨ packet.pieces.getLast? = some ⟨pending.bytes, false, true⟩ := by
  have last : packet.pieces.getLast? = some (packet.pieces.getLast present) :=
    List.getLast?_eq_some_getLast present
  obtain ⟨front, pieces⟩ := List.getLast?_eq_some_iff.mp last
  generalize packet.pieces.getLast present = piece at last pieces
  obtain ⟨part, continues, continued⟩ := piece
  cases continued with
  | false =>
      have idle : (receiver.receive packet).2.pending = none := by
        refine ElementProgress.pending_foldl_absorb ?_ ?_ present
        · intro piece member
          rw [pieces] at member
          rcases List.mem_append.mp member with earlier | final
          · have inside : piece ∈ packet.pieces.dropLast := by
              rwa [pieces, List.dropLast_concat]
            exact Packet.continued_of_mem_dropLast_pieces inside
          · rw [List.mem_singleton.mp final]
        · intro piece head starts
          rw [Packet.continues_of_head?_pieces head] at starts
          exact pendingFor_of_not_continues starts receiver
      rw [idle] at kept
      cases kept
  | true =>
      cases continues with
      | false =>
          rw [pending_receive_of_begins last] at kept
          cases kept
          rw [Chunked.bytes_ofBytes]
          exact Or.inr last
      | true =>
          -- only the first piece goes on from the packet before, so the last one is the first
          have alone : front = [] := by
            cases front with
            | nil => rfl
            | cons first others =>
                have behind : (⟨part, true, true⟩ : Piece) ∈ packet.pieces.tail := by
                  simp [pieces]
                cases Packet.continues_of_mem_tail_pieces behind
          rw [alone, List.nil_append] at pieces
          have joined := (ElementProgress.absorb_continuation
            (receiver.pendingFor packet.header) ⟨part, true, true⟩ [] rfl).2 pending
          refine Or.inl (joined ?_)
          rw [← kept]
          show _ = (packet.pieces.foldl ElementProgress.absorb _).pending
          rw [pieces]
          rfl

/-- What is pending behind a packet is short enough exactly where the packet does not begin an
element with a part that is too long by itself.
-/
theorem capped_receive_iff (present : packet.pieces ≠ []) (receiver : ElementReceiver)
    : (receiver.receive packet).2.Capped ↔ ¬ BeginsOverlong packet := by
  constructor
  · rintro capped ⟨part, begins, long⟩
    have short := capped _ (pending_receive_of_begins begins receiver)
    rw [Chunked.bytes_ofBytes] at short
    exact Nat.not_le.mpr long short
  · intro fits pending kept
    rcases pending_receive present kept with short | begins
    · exact short
    · exact Nat.not_lt.mp fun long => fits ⟨pending.bytes, begins, long⟩

/-- So it is in a run, by induction on the packets. -/
theorem capped_receiveAll_iff {packets : List Packet}
    (present : ∀ packet ∈ packets, packet.pieces ≠ []) {receiver : ElementReceiver}
    (capped : receiver.Capped)
    : (∀ number, (receiver.receiveAll (packets.take number)).2.Capped)
      ↔ ∀ packet ∈ packets, ¬ BeginsOverlong packet := by
  induction packets generalizing receiver with
  | nil =>
      refine ⟨fun _ _ member => absurd member List.not_mem_nil, fun _ number => ?_⟩
      rw [List.take_nil]
      exact capped
  | cons packet packets ih =>
      have first := capped_receive_iff (present packet List.mem_cons_self) receiver
      have others : ∀ next ∈ packets, next.pieces ≠ [] :=
        fun next member => present next (List.mem_cons_of_mem _ member)
      rw [List.forall_mem_cons]
      constructor
      · intro holds
        have next : (receiver.receive packet).2.Capped := holds 1
        exact ⟨first.mp next, (ih others next).mp fun number => holds (number + 1)⟩
      · rintro ⟨fits, later⟩ number
        have next := first.mpr fits
        cases number with
        | zero => exact capped
        | succ number => exact (ih others next).mpr later number

/-- Too much that is pending is as good as nothing: a packet that goes on from it finds it too long,
and any other packet drops it.
-/
theorem receive_of_not_capped (present : packet.pieces ≠ []) {receiver : ElementReceiver}
    (overlong : ¬ receiver.Capped)
    : receiver.receive packet = initial.receive packet := by
  obtain ⟨pending, overlong⟩ := Classical.not_forall.mp overlong
  obtain ⟨waits, exceeds⟩ := Classical.not_imp.mp overlong
  unfold receive
  cases continues : packet.header.continues with
  | false =>
      rw [pendingFor_of_not_continues continues, pendingFor_of_not_continues continues]
  | true =>
      have kept : receiver.pendingFor packet.header = some pending := by
        rw [pendingFor, continues, if_pos rfl, waits]
      have nothing : initial.pendingFor packet.header = none := by
        rw [pendingFor, continues, if_pos rfl, initial]
      have head
          : ∀ piece,
              packet.pieces.head? = some piece → piece.continues = packet.header.continues :=
        fun _ found => Packet.continues_of_head?_pieces found
      generalize packet.pieces = pieces at present head
      cases pieces with
      | nil => exact absurd rfl present
      | cons first later =>
          have joins := head first rfl
          obtain ⟨part, _, continued⟩ := first
          cases joins.trans continues
          have long : maxPendingSize < (pending.push part).size := by
            rw [Chunked.size_eq_length, Chunked.bytes_push, List.length_append]
            omega
          have dropped
              : ElementProgress.absorb ⟨some pending, #[]⟩ ⟨part, true, continued⟩
                = ElementProgress.absorb ⟨none, #[]⟩ ⟨part, true, continued⟩ :=
            if_pos long
          rw [kept, nothing, List.foldl_cons, List.foldl_cons, dropped]

/-- A run over packets that are read from payloads. What is pending is never too long exactly if no
packet begins an element with a part that is too long by itself, and the payload of such a packet is
longer still.

Whatever is pending, a packet gives the element that it joins from the parts before, unless this is
too long, and the elements that it has whole, all where their kind is sent. Too much that is pending
is never given: the next packet is received as by a new receiver.
-/
theorem assembled_within_cap_iff {packets : List Packet}
    (unmarshalled : ∀ packet ∈ packets, ∃ payload, Packet.parse payload = .ok packet)
    : ((∀ number, (initial.receiveAll (packets.take number)).2.Capped)
        ↔ ∀ packet ∈ packets, ¬ BeginsOverlong packet)
      ∧ ∀ (receiver : ElementReceiver) {payload : Bytes} {packet : Packet},
          Packet.parse payload = .ok packet
          → (BeginsOverlong packet → maxPendingSize + 1 < payload.length)
            ∧ (receiver.receive packet).1.map Chunked.bytes
              = ((joinedElement? (receiver.pendingFor packet.header) packet.pieces).toList.filter
                    (fun element => element.length ≤ maxPendingSize)
                  ++ wholeElements packet.pieces).filter OfSentKind
            ∧ (¬ receiver.Capped → receiver.receive packet = initial.receive packet) := by
  refine ⟨capped_receiveAll_iff ?_ (fun _ kept => nomatch kept), ?_⟩
  · intro packet member
    obtain ⟨payload, parsed⟩ := unmarshalled packet member
    exact pieces_ne_nil_of_parse parsed
  · intro receiver payload packet parsed
    have present := pieces_ne_nil_of_parse parsed
    refine ⟨?_, given_receive receiver packet, receive_of_not_capped present⟩
    rintro ⟨part, begins, long⟩
    have short := (Packet.bounds_of_mem_pieces parsed (List.mem_of_getLast? begins)).2
    dsimp only at short
    omega

/-- A frame in three parts with another frame behind it: what is pending stays short, and both are
given.
-/
theorem assembled_within_cap_iff_three_parts
    : let packets : List Packet :=
        [⟨⟨false, true, 1, false⟩, [[0x30, 1]]⟩, ⟨⟨true, true, 1, false⟩, [[2]]⟩]
      let packet : Packet := ⟨⟨true, false, 2, false⟩, [[3], [0x30, 0xBB]]⟩
      (∀ packet ∈ packets, ∃ payload, Packet.parse payload = .ok packet)
      ∧ Packet.parse [0xA0, 1, 3, 0x30, 0xBB] = .ok packet
      ∧ (∀ number, (initial.receiveAll (packets.take number)).2.Capped)
      ∧ ((initial.receiveAll packets).2.receive packet).1.map Chunked.bytes
        = [[0x30, 1, 2, 3], [0x30, 0xBB]] := by
  intro packets packet
  have first : Packet.parse [0x50, 0x30, 1] = .ok ⟨⟨false, true, 1, false⟩, [[0x30, 1]]⟩ := rfl
  have second : Packet.parse [0xD0, 2] = .ok ⟨⟨true, true, 1, false⟩, [[2]]⟩ := rfl
  have third : Packet.parse [0xA0, 1, 3, 0x30, 0xBB] = .ok packet := rfl
  have unmarshalled : ∀ packet ∈ packets, ∃ payload, Packet.parse payload = .ok packet := by
    simp only [packets, List.forall_mem_cons]
    exact ⟨⟨_, first⟩, ⟨_, second⟩, by simp⟩
  obtain ⟨capped, received⟩ := assembled_within_cap_iff unmarshalled
  have short : ∀ packet ∈ packets, ¬ BeginsOverlong packet := by
    simp only [packets, List.forall_mem_cons]
    refine ⟨?_, ?_, by simp⟩
    · intro overlong
      exact absurd ((received initial first).1 overlong) (by decide)
    · intro overlong
      exact absurd ((received initial second).1 overlong) (by decide)
  refine ⟨unmarshalled, third, capped.mpr short, ?_⟩
  exact ((received (initial.receiveAll packets).2 third).2.1).trans (by decide +kernel)

/-- A part that begins an element and is one byte longer than what may be pending. -/
def overlongPart : Bytes :=
  List.replicate (maxPendingSize + 1) 0x30

/-- A packet may begin an element with this part, and a new receiver keeps all of it. -/
theorem not_capped_overlongPart
    : ∃ packet,
        Packet.parse (0x50 :: overlongPart) = .ok packet
        ∧ (∃ pending,
            (initial.receiveAll [packet]).2.pending = some pending
            ∧ pending.bytes.length = maxPendingSize + 1)
        ∧ ¬ (initial.receiveAll [packet]).2.Capped := by
  have length : overlongPart.length = maxPendingSize + 1 := List.length_replicate
  have present : overlongPart ≠ [] := by
    rw [← List.length_pos_iff, length]
    exact Nat.succ_pos _
  have size : overlongPart.length < UInt64.size := by
    rw [length]
    decide
  have writable := Group.writable_partPacket present size false true false
  have kept
      : (initial.receiveAll [Group.partPacket false true false overlongPart]).2
        = ⟨some (.ofBytes overlongPart)⟩ :=
    congrArg Prod.snd (receive_first_part initial false overlongPart)
  have long : (Chunked.ofBytes overlongPart).bytes.length = maxPendingSize + 1 := by
    rw [Chunked.bytes_ofBytes, length]
  refine ⟨Group.partPacket false true false overlongPart, Packet.parse_toBytes writable, ?_, ?_⟩
  · exact ⟨.ofBytes overlongPart, congrArg ElementReceiver.pending kept, long⟩
  · intro capped
    have short := capped _ (congrArg ElementReceiver.pending kept)
    omega

end ElementReceiver

end Av1Transport.Reassembly
