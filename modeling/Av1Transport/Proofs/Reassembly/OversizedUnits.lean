import Av1Transport.Proofs.Obu.WrittenUnits
import Av1Transport.Proofs.Reassembly.Losses

/-! Units that are too long to be put together.
Main statement: no more bytes are ever pending than may be, and no longer element is joined from
parts; of a frame exactly one packet is rejected for each unit that is cut and too long, and all
other units are stored.
-/

namespace Av1Transport.Reassembly

open Av1Transport.Aggregation

-----------------------------------------------------------------------------------------
-- Joined elements
-----------------------------------------------------------------------------------------

/-- The pieces complete an element that was begun in packets before: the first of them is its last
part, and stands behind the bytes that are pending.
-/
inductive Joins (pending : Bytes) : List Piece → Bytes → Prop where
  | last {part : Bytes} {later : List Piece} (begun : pending ≠ [])
      : Joins pending (⟨part, true, false⟩ :: later) (pending ++ part)

/-- What pieces may make of the pending parts and of the output. -/
structure Extends (progress next : StreamProgress) : Prop where
  capped : progress.pending.size ≤ maxPendingSize → next.pending.size ≤ maxPendingSize
  kept : progress.output.bytes <+: next.output.bytes

namespace Extends

variable {progress middle next : StreamProgress}

theorem refl (progress : StreamProgress) : Extends progress progress :=
  ⟨id, List.prefix_refl _⟩

theorem trans (first : Extends progress middle) (later : Extends middle next)
    : Extends progress next :=
  ⟨later.capped ∘ first.capped, first.kept.trans later.kept⟩

theorem grow {part : Bytes} (grows : progress.grow part = .ok next) : Extends progress next := by
  obtain ⟨pending, output, short⟩ := StreamProgress.grow_ok grows
  exact ⟨fun _ => pending ▸ short, output ▸ List.prefix_refl _⟩

theorem write {element : Chunked} (written : progress.write element = .ok next)
    : Extends progress next := by
  obtain ⟨stored, _, rfl⟩ := StreamProgress.write_ok written
  refine ⟨id, ?_⟩
  rw [Chunked.bytes_append]
  exact List.prefix_append _ _

theorem finish (finished : progress.finish = .ok next) : Extends progress next := by
  have written := write finished
  exact ⟨fun _ => written.capped (Nat.zero_le _), written.kept⟩

/-- A piece leaves what is in the output in front and no more pending than may be, by the cases of
what it does.
-/
theorem absorb {piece : Piece} (absorbed : progress.absorb piece = .ok next)
    : Extends progress next := by
  rcases StreamProgress.absorb_ok absorbed with
    ⟨_, _, rfl⟩ | ⟨_, grows⟩ | ⟨_, _, grown, grows, finished⟩ | ⟨_, _, written⟩
  · exact refl _
  · exact grow grows
  · exact (grow grows).trans (finish finished)
  · exact write written

/-- So do pieces in order. -/
theorem absorbAll {pieces : List Piece} (absorbed : progress.absorbAll pieces = .ok next)
    : Extends progress next :=
  StreamProgress.absorbAll_kept (fun _ _ _ _ earlier first => earlier.trans (absorb first))
    (refl progress) absorbed

end Extends

/-- The last part of an element puts what is stored for the element into the output. -/
theorem StreamProgress.absorb_last_part {progress next : StreamProgress} {part : Bytes}
    (begun : progress.pending.bytes ≠ [])
    (absorbed : progress.absorb ⟨part, true, false⟩ = .ok next)
    : (progress.pending.push part).size ≤ maxPendingSize
      ∧ ∃ stored,
          storedBytes (progress.pending.push part) = .ok stored
          ∧ next.output = progress.output ++ stored := by
  rcases absorb_ok absorbed with
    ⟨_, idle, _⟩ | ⟨continued, _⟩ | ⟨_, _, grown, grows, finished⟩ | ⟨starts, _⟩
  · exact absurd ((Chunked.isEmpty_iff _).mp idle) begun
  · cases continued
  · obtain ⟨pending, output, short⟩ := grow_ok grows
    obtain ⟨stored, kept, rfl⟩ := write_ok finished
    exact ⟨short, stored, pending ▸ kept, output ▸ rfl⟩
  · cases starts

namespace StreamReceiver

variable {receiver middle last : StreamReceiver} {payload : Bytes} {payloads later : List Bytes}

/-- A payload leaves no more pending than may be, by cases on how it is left. -/
theorem capped_receive (capped : receiver.pending.size ≤ maxPendingSize) (payload : Bytes)
    : (receiver.receive payload).2.pending.size ≤ maxPendingSize := by
  unfold receive
  split
  next => exact Nat.zero_le _
  next packet _ =>
    split
    next => exact Nat.zero_le _
    next progress absorbed =>
      refine (Extends.absorbAll absorbed).capped ?_
      unfold pendingFor
      split
      · exact Nat.zero_le _
      · exact capped

/-- No run leaves more pending than may be, by induction on the payloads. -/
theorem capped_receiveAll (capped : receiver.pending.size ≤ maxPendingSize) (payloads : List Bytes)
    : (receiver.receiveAll payloads).2.pending.size ≤ maxPendingSize := by
  induction payloads generalizing receiver with
  | nil => exact capped
  | cons payload payloads ih => exact ih (capped_receive capped payload)

/-- A packet that would join a longer element than may be is rejected. -/
theorem receive_of_joins_long {packet : Packet} {element : Bytes}
    (parsed : Packet.parse payload = .ok packet)
    (joins : Joins (receiver.pendingFor packet.header).bytes packet.pieces element)
    (long : maxPendingSize < element.length)
    : receiver.receive payload = (.error .fragmentTooLarge, initial) := by
  unfold receive
  rw [parsed]
  dsimp only
  generalize packet.pieces = pieces at joins
  cases joins with
  | @last part later begun =>
      have occupied := isEmpty_of_bytes_ne_nil begun
      have exceeds
          : maxPendingSize < (receiver.pendingFor packet.header).size + part.length := by
        rwa [Chunked.size_eq_length, ← List.length_append]
      simp [StreamProgress.absorbAll, StreamProgress.absorb, StreamProgress.grow, occupied,
        exceeds]

/-- A packet that joins an element and is accepted gives what is stored for it at the front of its
output. Witness: the element is written first, and later pieces write behind it.
-/
theorem receive_of_joins {packet : Packet} {element : Bytes}
    (parsed : Packet.parse payload = .ok packet)
    (joins : Joins (receiver.pendingFor packet.header).bytes packet.pieces element)
    {output : Chunked} (received : (receiver.receive payload).1 = .ok output)
    : element.length ≤ maxPendingSize
      ∧ ∃ joined stored : Chunked,
          joined.bytes = element
          ∧ storedBytes joined = .ok stored
          ∧ stored.bytes <+: output.bytes := by
  unfold receive at received
  rw [parsed] at received
  dsimp only at received
  generalize packet.pieces = pieces at joins received
  cases joins with
  | @last part later begun =>
      split at received
      next => cases received
      next progress absorbed =>
        cases received
        rw [StreamProgress.absorbAll] at absorbed
        split at absorbed
        next => cases absorbed
        next middle first =>
          obtain ⟨short, stored, kept, output⟩ := StreamProgress.absorb_last_part begun first
          refine ⟨?_, (receiver.pendingFor packet.header).push part, stored, ?_, kept, ?_⟩
          · rwa [Chunked.size_eq_length, Chunked.bytes_push] at short
          · rw [Chunked.bytes_push]
          · have behind := (Extends.absorbAll absorbed).kept
            rwa [output, Chunked.bytes_append, Chunked.bytes_empty, List.nil_append] at behind

-----------------------------------------------------------------------------------------
-- Answers with failures among them
-----------------------------------------------------------------------------------------

/-- The failure that an answer is, if it is one. -/
def failure? : Except Error Chunked → Option Error
  | .error failure => some failure
  | .ok _ => none

/-- The stored bytes that an answer gives; a rejected payload gives none. -/
def given : Except Error Chunked → Bytes
  | .error _ => []
  | .ok output => output.bytes

/-- The answers to the payloads have these failures among them and give these bytes, and the
receiver is left as `last`.
-/
def Answers (receiver : StreamReceiver) (payloads : List Bytes) (failures : List Error)
    (bytes : Bytes) (last : StreamReceiver)
    : Prop :=
  ∃ results : List (Except Error Chunked),
    receiver.receiveAll payloads = (results, last)
    ∧ results.filterMap failure? = failures
    ∧ results.flatMap given = bytes

variable {failures : List Error} {bytes : Bytes}

theorem answers_nil (receiver : StreamReceiver) : receiver.Answers [] [] [] receiver :=
  ⟨[], rfl, rfl, rfl⟩

/-- A run in which every payload is accepted has no failure among its answers. -/
theorem Yields.answers (run : receiver.Yields payloads bytes last)
    : receiver.Answers payloads [] bytes last := by
  obtain ⟨outputs, results, joined⟩ := run
  refine ⟨outputs.map .ok, results, ?_, ?_⟩
  · rw [List.filterMap_map]
    exact List.filterMap_eq_nil_iff.mpr fun _ _ => rfl
  · rw [List.flatMap_map]
    exact joined

theorem Answers.accepted {output : Chunked}
    (received : receiver.receive payload = (.ok output, middle))
    (run : middle.Answers payloads failures bytes last)
    : receiver.Answers (payload :: payloads) failures (output.bytes ++ bytes) last := by
  obtain ⟨results, answers, rejected, joined⟩ := run
  refine ⟨.ok output :: results, by simp [receiveAll, received, answers], ?_, ?_⟩
  · rw [← rejected]
    rfl
  · rw [← joined]
    rfl

theorem Answers.rejected {failure : Error}
    (received : receiver.receive payload = (.error failure, middle))
    (run : middle.Answers payloads failures bytes last)
    : receiver.Answers (payload :: payloads) (failure :: failures) bytes last := by
  obtain ⟨results, answers, rejected, joined⟩ := run
  refine ⟨.error failure :: results, by simp [receiveAll, received, answers], ?_, joined⟩
  rw [← rejected]
  rfl

theorem receive_toBytes_error {packet : Packet} (writable : packet.Writable) {failure : Error}
    (failed
      : StreamProgress.absorbAll ⟨receiver.pendingFor packet.header, .empty⟩ packet.pieces
        = .error failure)
    : receiver.receive packet.toBytes = (.error failure, initial) := by
  simp only [receive, Packet.parse_toBytes writable, failed]

-----------------------------------------------------------------------------------------
-- Units that are cut and too long
-----------------------------------------------------------------------------------------

/-- Parts of a unit whose start was rejected are passed over, by induction on the parts: nothing is
pending throughout.
-/
theorem answers_orphans {parts : List Bytes}
    (bounded : ∀ part ∈ parts, part ≠ [] ∧ part.length < UInt64.size)
    : initial.Answers ((Group.continuationPackets parts).map Packet.toBytes) [] [] initial := by
  induction parts with
  | nil => exact answers_nil initial
  | cons part parts ih =>
      obtain ⟨present, size⟩ := bounded part List.mem_cons_self
      have passed
          : initial.receive (Group.partPacket true (!parts.isEmpty) false part).toBytes
            = (.ok .empty, initial) :=
        receive_orphan_part present size (!parts.isEmpty) rfl
      have later := ih fun next member => bounded next (List.mem_cons_of_mem _ member)
      exact Answers.accepted passed later

section Parts

variable {part : Bytes} (present : part ≠ []) (size : part.length < UInt64.size)
include present size

/-- A first part that is too long by itself is rejected. -/
theorem receive_long_first_part (long : maxPendingSize < part.length) (startsSequence : Bool)
    (receiver : StreamReceiver)
    : receiver.receive (Group.partPacket false true startsSequence part).toBytes
      = (.error .fragmentTooLarge, initial) := by
  refine receive_toBytes_error (Group.writable_partPacket present size false true startsSequence) ?_
  have exceeds : maxPendingSize < Chunked.empty.size + part.length := by
    simpa [Chunked.size_eq_length] using long
  rw [Group.pieces_partPacket, pendingFor_of_not_continues rfl]
  simp [StreamProgress.absorbAll, StreamProgress.absorb, StreamProgress.grow, exceeds]

/-- A further part that makes the pending bytes too many is rejected. -/
theorem receive_long_part {pending : Chunked} (started : pending.bytes ≠ [])
    (long : maxPendingSize < pending.bytes.length + part.length) (continued : Bool)
    : receive ⟨pending⟩ (Group.partPacket true continued false part).toBytes
      = (.error .fragmentTooLarge, initial) := by
  refine receive_toBytes_error (Group.writable_partPacket present size true continued false) ?_
  have occupied := isEmpty_of_bytes_ne_nil started
  rw [← Chunked.size_eq_length] at long
  rw [Group.pieces_partPacket]
  simp [pendingFor, Group.partPacket, StreamProgress.absorbAll, StreamProgress.absorb,
    StreamProgress.grow, occupied, long]

end Parts

/-- Of the parts that are left of a unit that is too long one is rejected. Witness: induction on the
parts; those that still fit join the pending bytes, the first that does not is rejected, and those
behind it find nothing pending.
-/
theorem answers_long_continuationPackets {pending : Chunked} {parts : List Bytes}
    (started : pending.bytes ≠ []) (kept : pending.bytes.length ≤ maxPendingSize)
    (bounded : ∀ part ∈ parts, part ≠ [] ∧ part.length < UInt64.size)
    (long : maxPendingSize < pending.bytes.length + parts.flatten.length)
    : Answers ⟨pending⟩ ((Group.continuationPackets parts).map Packet.toBytes) [.fragmentTooLarge]
        [] initial := by
  induction parts generalizing pending with
  | nil =>
      rw [List.flatten_nil, List.length_nil] at long
      omega
  | cons part parts ih =>
      obtain ⟨present, size⟩ := bounded part List.mem_cons_self
      have others : ∀ part ∈ parts, part ≠ [] ∧ part.length < UInt64.size :=
        fun later member => bounded later (List.mem_cons_of_mem _ member)
      rw [List.flatten_cons, List.length_append] at long
      by_cases fits : pending.bytes.length + part.length ≤ maxPendingSize
      · -- the bytes that make the unit too long are in later parts
        have remaining : (!parts.isEmpty) = true := by
          cases parts with
          | nil =>
              rw [List.flatten_nil, List.length_nil] at long
              omega
          | cons => rfl
        have joined : (pending.push part).bytes ≠ [] := by simp [started]
        have length : (pending.push part).bytes.length = pending.bytes.length + part.length := by
          rw [Chunked.bytes_push, List.length_append]
        have received := receive_middle_part present started fits
        rw [Group.continuationPackets, remaining]
        exact Answers.accepted received
          (ih joined (by omega) others (by omega))
      · have received := receive_long_part present size started (Nat.lt_of_not_le fits)
          (!parts.isEmpty)
        exact Answers.rejected received (answers_orphans others)

/-- Of the packets of a unit that is cut and too long exactly one is rejected, and nothing is stored
for them, whatever was pending before.
-/
theorem answers_long_fragmentPackets {obu : Obu} {mtu : Nat} (room : 2 ≤ mtu)
    (addressable : mtu < UInt64.size) (cuts : mtu ≤ obu.bareLength)
    (long : maxPendingSize < obu.bareLength) (receiver : StreamReceiver)
    : receiver.Answers ((Group.fragmentPackets mtu obu).map Packet.toBytes) [.fragmentTooLarge] []
        initial := by
  obtain ⟨first, parts, cut, remaining, whole, short⟩ := Group.exists_blocks_of_long room cuts
  have bounded : ∀ part ∈ first :: parts, part ≠ [] ∧ part.length < UInt64.size := by
    intro part member
    obtain ⟨present, length⟩ := short part member
    exact ⟨present, by omega⟩
  obtain ⟨present, size⟩ := bounded first List.mem_cons_self
  have others : ∀ part ∈ parts, part ≠ [] ∧ part.length < UInt64.size :=
    fun part member => bounded part (List.mem_cons_of_mem _ member)
  have continued : (!parts.isEmpty) = true := by simpa using remaining
  have total := congrArg List.length whole
  rw [List.length_append, Obu.length_bareBytes] at total
  rw [Group.fragmentPackets_of_blocks cut, continued]
  by_cases fits : first.length ≤ maxPendingSize
  · have received := receive_first_part present fits (Bundle.startsSequence [obu]) receiver
    have begun : (Chunked.ofBytes first).bytes ≠ [] := by simpa using present
    exact Answers.accepted received
      (answers_long_continuationPackets begun (by simpa using fits) others
        (by rw [Chunked.bytes_ofBytes]; omega))
  · have received := receive_long_first_part present size (Nat.lt_of_not_le fits)
      (Bundle.startsSequence [obu]) receiver
    exact Answers.rejected received (answers_orphans others)

-----------------------------------------------------------------------------------------
-- Groups and frames
-----------------------------------------------------------------------------------------

/-- The unit is cut for packets of this size, and longer than a receiver lets a cut unit become. -/
def oversized (mtu : Nat) (obu : Obu) : Bool :=
  decide (mtu - 1 < obu.bareLength ∧ maxPendingSize < obu.bareLength)

/-- What is rejected of the packets of a unit. -/
def rejections (mtu : Nat) (obu : Obu) : List Error :=
  if oversized mtu obu then [.fragmentTooLarge] else []

theorem flatMap_rejections (mtu : Nat) (obus : List Obu)
    : obus.flatMap (rejections mtu)
      = (obus.filter (oversized mtu)).map fun _ => Error.fragmentTooLarge := by
  induction obus with
  | nil => rfl
  | cons obu obus ih =>
      rw [List.flatMap_cons, List.filter_cons, ih, rejections]
      cases oversized mtu obu with
      | false => rfl
      | true => rfl

/-- Of units that are not too long nothing is rejected. -/
theorem flatMap_rejections_of_short {mtu : Nat} {obus : List Obu}
    (short : ∀ obu ∈ obus, oversized mtu obu = false)
    : obus.flatMap (rejections mtu) = [] := by
  refine List.flatMap_eq_nil_iff.mpr fun obu member => ?_
  rw [rejections, short obu member, if_neg Bool.false_ne_true]

/-- What a receiver answers to packets of these units: one failure for each that is too long, and
the others with their sizes.
-/
structure Isolates (mtu : Nat) (obus : List Obu) (results : List (Except Error Chunked))
    : Prop where
  failures : results.filterMap failure? = obus.flatMap (rejections mtu)
  stored : results.flatMap given = Obu.joinBytes (obus.filter fun obu => !oversized mtu obu)

theorem Isolates.append {mtu : Nat} {obus others : List Obu}
    {results more : List (Except Error Chunked)} (first : Isolates mtu obus results)
    (second : Isolates mtu others more)
    : Isolates mtu (obus ++ others) (results ++ more) where
  failures := by
    rw [List.filterMap_append, List.flatMap_append, first.failures, second.failures]
  stored := by
    rw [List.flatMap_append, List.filter_append, first.stored, second.stored, Obu.joinBytes,
      Obu.joinBytes, Obu.joinBytes, List.flatMap_append]

/-- Units that share a packet are not too long. -/
theorem oversized_of_mem_bundle {mtu : Nat} {obus : List Obu} (fits : (Group.bundle obus).Fits mtu)
    {obu : Obu} (member : obu ∈ obus)
    : oversized mtu obu = false := by
  have short := fits.2.1 obu member
  exact decide_eq_false fun long => by omega

/-- What is rejected of a group is what is rejected of any of its units, by cases on the group. -/
theorem rejections_of_mem_obus {mtu : Nat} {group : Group} (fits : group.Fits mtu) {obu : Obu}
    (member : obu ∈ group.obus)
    : group.obus.flatMap (rejections mtu) = rejections mtu obu := by
  cases group with
  | bundle obus =>
      rw [rejections, oversized_of_mem_bundle fits member, if_neg Bool.false_ne_true]
      exact flatMap_rejections_of_short fun _ listed => oversized_of_mem_bundle fits listed
  | fragments unit =>
      rw [List.mem_singleton.mp member, Group.obus, List.flatMap_singleton]

/-- The packets of a group isolate what is too long in it. Witness: either nothing in it is, and the
group is stored, or it is a unit that is cut.
-/
theorem isolates_group {mtu : Nat} (room : 2 ≤ mtu) (addressable : mtu < UInt64.size)
    {group : Group} (fits : group.Fits mtu) (sendable : ∀ obu ∈ group.obus, Sendable obu)
    (receiver : StreamReceiver)
    : ∃ results,
        receiver.receiveAll ((group.packets mtu).map Packet.toBytes) = (results, initial)
        ∧ Isolates mtu group.obus results := by
  by_cases short : ∀ obu ∈ group.obus, oversized mtu obu = false
  · have capped
        : ∀ obu ∈ group.obus, mtu - 1 < obu.bareLength → obu.bareLength ≤ maxPendingSize := by
      intro obu member cut
      have fitting := of_decide_eq_false (short obu member)
      omega
    obtain ⟨results, answers, failures, stored⟩ :=
      (yields_group room addressable fits sendable capped receiver).answers
    have none := flatMap_rejections_of_short short
    have all : group.obus.filter (fun obu => !oversized mtu obu) = group.obus :=
      List.filter_eq_self.mpr fun obu member => by rw [short obu member, Bool.not_false]
    exact ⟨results, answers, failures.trans none.symm, stored.trans (congrArg _ all.symm)⟩
  · cases group with
    | bundle obus => exact absurd (fun obu member => oversized_of_mem_bundle fits member) short
    | fragments obu =>
        have long : oversized mtu obu = true := by simpa [Group.obus] using short
        obtain ⟨results, answers, failures, stored⟩ := answers_long_fragmentPackets room addressable
          fits (of_decide_eq_true long).2 receiver
        refine ⟨results, answers, failures.trans ?_, stored.trans ?_⟩
        · simp [Group.obus, rejections, long]
        · simp [Group.obus, long, Obu.joinBytes]

/-- The packets of groups in order isolate what is too long in them, and the failures among the
answers to the packets of each unit are those for this unit. Witness: induction on the groups; the
answers to the groups before stand in front.
-/
theorem isolates_groups {mtu : Nat} (room : 2 ≤ mtu) (addressable : mtu < UInt64.size)
    {groups : List Group} (fits : ∀ group ∈ groups, group.Fits mtu)
    (sendable : ∀ obu ∈ groups.flatMap Group.obus, Sendable obu)
    : ∃ results,
        initial.receiveAll ((groups.flatMap (Group.packets mtu)).map Packet.toBytes)
          = (results, initial)
        ∧ Isolates mtu (groups.flatMap Group.obus) results
        ∧ ∀ (before : List (Except Error Chunked)),
            ∀ entry ∈ carriageFrom mtu before.length groups,
              entry.2.filterMap (fun number => (before ++ results)[number]?.bind failure?)
                = rejections mtu entry.1 := by
  induction groups with
  | nil => exact ⟨[], rfl, ⟨rfl, rfl⟩, fun _ _ member => nomatch member⟩
  | cons group groups ih =>
      obtain ⟨more, later, others, behind⟩ := ih
        (fun next member => fits next (List.mem_cons_of_mem _ member))
        (fun obu member => sendable obu (List.mem_append_right _ member))
      have fit := fits group List.mem_cons_self
      obtain ⟨results, first, isolated⟩ := isolates_group room addressable fit
        (fun obu member => sendable obu (List.mem_append_left _ member)) initial
      have count : results.length = (group.packets mtu).length := by
        have length := length_receiveAll initial ((group.packets mtu).map Packet.toBytes)
        rwa [first, List.length_map] at length
      refine ⟨results ++ more, ?_, isolated.append others, ?_⟩
      · rw [List.flatMap_cons, List.map_append, receiveAll_append, first, later]
      · intro before entry member
        rcases List.mem_append.mp member with here | listed
        · obtain ⟨obu, unit, rfl⟩ := List.mem_map.mp here
          have found := congrArg (List.filterMap fun result => result.bind failure?)
            (map_getElem?_range' before results more)
          rw [List.filterMap_map, List.filterMap_map, count] at found
          rw [← rejections_of_mem_obus fit unit, ← isolated.failures]
          exact found
        · rw [← List.append_assoc]
          refine behind (before ++ results) entry ?_
          rwa [List.length_append, count]

/-- Whatever payloads come, a new receiver never has more bytes pending than it may, and joins no
longer element from parts: a packet that would complete one is rejected, and one that completes a
shorter one and is accepted gives what is stored for it.

Of the packets of a frame it rejects one for each unit that is cut and too long, and no other. Each
unit is carried by packets as listed, and among the answers to these is one failure if the unit is
too long, and else none. What is given is, byte for byte, all other units, each with its size and in
stream order; nothing stays pending.
-/
theorem oversized_units_isolated {mtu : Nat} (room : 2 ≤ mtu) (addressable : mtu < UInt64.size)
    (frame : Bytes)
    : (∀ payloads : List Bytes,
        let receiver := (initial.receiveAll payloads).2
        receiver.pending.bytes.length ≤ maxPendingSize
        ∧ ∀ {payload : Bytes} {packet : Packet} {element : Bytes},
            Packet.parse payload = .ok packet
            → Joins (receiver.pendingFor packet.header).bytes packet.pieces element
            → (maxPendingSize < element.length
                → receiver.receive payload = (.error .fragmentTooLarge, initial))
              ∧ ∀ output,
                  (receiver.receive payload).1 = .ok output
                  → element.length ≤ maxPendingSize
                    ∧ ∃ joined stored : Chunked,
                        joined.bytes = element
                        ∧ storedBytes joined = .ok stored
                        ∧ stored.bytes <+: output.bytes)
      ∧ (carriage mtu frame).map Prod.fst = transmitted frame
      ∧ (∀ entry ∈ carriage mtu frame, CarriedBy (packetize mtu frame).packets entry.1 entry.2)
      ∧ ∃ results : List (Except Error Chunked),
          initial.receiveAll (packetize mtu frame).payloads = (results, initial)
          ∧ results.filterMap failure?
            = ((transmitted frame).filter (oversized mtu)).map (fun _ => Error.fragmentTooLarge)
          ∧ (∀ entry ∈ carriage mtu frame,
              entry.2.filterMap (fun number => results[number]?.bind failure?)
                = if oversized mtu entry.1 then [Error.fragmentTooLarge] else [])
          ∧ results.flatMap given
            = Obu.joinBytes ((transmitted frame).filter fun obu => !oversized mtu obu) := by
  have order : (groups mtu (Obu.split frame).values).flatMap Group.obus = transmitted frame :=
    flatMap_obus_groups room (Obu.split frame).values
  obtain ⟨results, answers, isolated, numbered⟩ := isolates_groups room addressable
    (fun _ member => fits_of_mem_groups room member)
    (fun obu member => sendable_of_mem_transmitted (order ▸ member))
  rw [order] at isolated
  refine ⟨?_, map_fst_carriage room frame, fun _ member => carriedBy_of_mem_carriage room member,
    results, ?_, ?_, numbered [], isolated.stored⟩
  · intro payloads receiver
    refine ⟨?_, fun parsed joins => ⟨receive_of_joins_long parsed joins, fun _ received => ?_⟩⟩
    · rw [← Chunked.size_eq_length]
      exact capped_receiveAll (Nat.zero_le _) payloads
    · exact receive_of_joins parsed joins received
  · rw [payloads_packetize room]
    exact answers
  · exact isolated.failures.trans (flatMap_rejections mtu (transmitted frame))

/-- A sequence header, a frame one byte longer than a cut unit may become, and a short frame. -/
def unitsAroundLongFrame : List Obu :=
  [ ⟨⟨.sequenceHeader, none, true, false⟩, [0xAA]⟩,
    sizedFrame (List.replicate maxPendingSize 0),
    sizedFrame [7] ]

/-- The long frame is cut into parts, of which one is rejected; the other two units are stored. -/
theorem oversized_units_isolated_long_frame
    : let frame := Obu.joinBytes unitsAroundLongFrame
      2 ≤ 1200
      ∧ 1200 < UInt64.size
      ∧ (Obu.split frame).failure = none
      ∧ ∃ results : List (Except Error Chunked),
          initial.receiveAll (packetize 1200 frame).payloads = (results, initial)
          ∧ results.filterMap failure? = [.fragmentTooLarge]
          ∧ results.flatMap given = [0x0A, 1, 0xAA, 0x32, 1, 7] := by
  intro frame
  have room : 2 ≤ 1200 := by decide
  have narrow : 1200 < UInt64.size := by decide
  have addressable : ∀ obu ∈ unitsAroundLongFrame, obu.payload.length < UInt64.size := by
    simp only [unitsAroundLongFrame, List.forall_mem_cons, sizedFrame, List.length_replicate]
    exact ⟨by decide, by decide, by decide, by simp⟩
  have units : transmitted frame = unitsAroundLongFrame := by
    rw [transmitted, Obu.values_split_joinBytes addressable]
    rfl
  have fits : oversized 1200 ⟨⟨.sequenceHeader, none, true, false⟩, [0xAA]⟩ = false := by decide
  have long : oversized 1200 (sizedFrame (List.replicate maxPendingSize 0)) = true := by
    rw [oversized, Obu.bareLength, sizedFrame, List.length_replicate]
    decide
  have short : oversized 1200 (sizedFrame [7]) = false := by decide
  obtain ⟨_, _, _, results, answers, failures, _, stored⟩ :=
    oversized_units_isolated room narrow frame
  rw [units] at failures stored
  refine ⟨room, narrow, ?_, results, answers, failures.trans ?_, stored.trans ?_⟩
  · rw [Obu.split_joinBytes addressable]
  · simp [unitsAroundLongFrame, fits, long, short]
  · simp only [unitsAroundLongFrame, List.filter_cons, fits, long, short, Bool.not_false,
      Bool.not_true, if_true, Bool.false_eq_true, if_false, List.filter_nil]
    decide +kernel

end StreamReceiver

end Av1Transport.Reassembly
