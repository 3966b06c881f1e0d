import Av1Transport.Proofs.Rtp.SentPackets
import Av1Transport.Session

/-! The numbering of a sender's packets over whole runs.
A run is a list of calls that send a frame or pass over media time. Sequence numbers move on by
packets and go round at sixteen bits, timestamps move on by samples and go round at thirty-two.
Main statement: what both of them show at every point of a run.
-/

namespace Av1Transport.Session

open Av1Transport.Rtp

/-- What a sender is called for. -/
inductive Call where
  /-- Sends a frame that lasts for a number of samples. -/
  | send (frame : Bytes) (samples : UInt32)
  /-- Passes over a number of samples. -/
  | skip (samples : UInt32)

/-- The packets of a call, and the sender after it. -/
structure Outcome where
  packets : List Packet
  next : Sender

/-- The media time that a call takes. -/
def Call.samples : Call → UInt32
  | send _ samples => samples
  | skip samples => samples

def Call.perform (sender : Sender) : Call → Outcome
  | send frame samples =>
      let (packets, next) := sendFrame sender frame samples
      ⟨packets, next⟩
  | skip samples => ⟨[], sender.skipSamples samples⟩

/-- The outcome of every call of a run. -/
def performAll (sender : Sender) : List Call → List Outcome
  | [] => []
  | call :: calls =>
      let outcome := call.perform sender
      outcome :: performAll outcome.next calls

/-- The packets of all outcomes in order. -/
def allPackets (outcomes : List Outcome) : List Packet :=
  outcomes.flatMap Outcome.packets

/-- The media time of all calls, which does not go round. -/
def elapsed : List Call → Nat
  | [] => 0
  | call :: calls => call.samples.toNat + elapsed calls

-----------------------------------------------------------------------------------------
-- One call
-----------------------------------------------------------------------------------------

/-- What a call puts into its packets, and what it leaves to the next call. -/
structure Advances (sender : Sender) (call : Call) (outcome : Outcome) : Prop where
  numbered
    : outcome.packets.map (fun packet => packet.header.sequenceNumber)
      = (List.range' sender.sequencer.next.value outcome.packets.length).map UInt16.ofNat
  stamped : ∀ packet ∈ outcome.packets, packet.header.timestamp = sender.timestamp
  marked
    : ∀ front last,
        outcome.packets = front ++ [last]
        → last.header.marker = true ∧ ∀ packet ∈ front, packet.header.marker = false
  counter
    : outcome.next.sequencer.next.value
      = sender.sequencer.next.value + outcome.packets.length
  clock : outcome.next.timestamp = sender.timestamp + call.samples

theorem advances_perform (sender : Sender) (call : Call)
    : Advances sender call (call.perform sender) := by
  cases call with
  | send frame samples =>
      let payloads := (Aggregation.packetize sender.payloadBudget frame).payloads
      have count := sender.length_send payloads samples
      refine ⟨?_, ?_, ?_, ?_, rfl⟩
      · exact (sender.sequenceNumbers_send payloads samples).trans (by rw [← count]; rfl)
      · intro packet (member : packet ∈ (sender.send payloads samples).1)
        exact Sender.timestamp_of_mem_send member
      · intro front last (sent : (sender.send payloads samples).1 = front ++ [last])
        exact Sender.marker_of_send_eq_append sent
      · exact (sender.value_send payloads samples).trans (by rw [← count]; rfl)
  | skip samples =>
      refine ⟨rfl, ?_, ?_, rfl, rfl⟩
      · intro packet member
        cases member
      · intro front last none
        simp [Call.perform] at none

-----------------------------------------------------------------------------------------
-- Runs of calls
-----------------------------------------------------------------------------------------

@[simp]
theorem length_performAll (sender : Sender) (calls : List Call)
    : (performAll sender calls).length = calls.length := by
  induction calls generalizing sender with
  | nil => rfl
  | cons call calls ih => simp only [performAll, List.length_cons, ih]

/-- The outcomes of the first calls are the first outcomes. -/
theorem take_performAll (sender : Sender) (calls : List Call) (count : Nat)
    : (performAll sender calls).take count = performAll sender (calls.take count) := by
  induction calls generalizing sender count with
  | nil => simp only [performAll, List.take_nil]
  | cons call calls ih =>
      cases count with
      | zero => rfl
      | succ count => simp only [performAll, List.take_succ_cons, ih]

/-- The packets of a run are numbered one after another, by induction on the calls: a call goes
on where the last one ended.
-/
theorem sequenceNumbers_performAll (sender : Sender) (calls : List Call)
    : (allPackets (performAll sender calls)).map (fun packet => packet.header.sequenceNumber)
      = (List.range' sender.sequencer.next.value
          (allPackets (performAll sender calls)).length).map UInt16.ofNat := by
  induction calls generalizing sender with
  | nil => rfl
  | cons call calls ih =>
      have step := advances_perform sender call
      have later := ih (call.perform sender).next
      rw [step.counter] at later
      simp only [allPackets] at later
      simp only [performAll, allPackets, List.flatMap_cons, List.map_append, List.length_append,
        step.numbered, later, ← List.range'_append_1]

/-- A call of a run finds both counters where the calls in front of it have left them, by
induction on the calls.
-/
theorem exists_sender_of_getElem? {sender : Sender} {calls : List Call} {index : Nat}
    {outcome : Outcome} (reached : (performAll sender calls)[index]? = some outcome)
    : ∃ before call,
        calls[index]? = some call
        ∧ Advances before call outcome
        ∧ before.sequencer.next.value
          = sender.sequencer.next.value
            + (allPackets (performAll sender (calls.take index))).length
        ∧ before.timestamp.toNat
          = (sender.timestamp.toNat + elapsed (calls.take index)) % UInt32.size := by
  induction calls generalizing sender index with
  | nil => cases reached
  | cons call calls ih =>
      have step := advances_perform sender call
      cases index with
      | zero =>
          cases reached
          exact ⟨sender, call, rfl, step, rfl,
            (Nat.mod_eq_of_lt sender.timestamp.toNat_lt).symm⟩
      | succ index =>
          obtain ⟨before, found, listed, advances, counter, clock⟩ := ih reached
          refine ⟨before, found, listed, advances, ?_, ?_⟩
          · rw [counter, step.counter]
            simp only [List.take_succ_cons, performAll, allPackets, List.flatMap_cons,
              List.length_append, Nat.add_assoc]
          · rw [clock, step.clock, UInt32.toNat_add, List.take_succ_cons, elapsed]
            unfold UInt32.size
            omega

/-- The packet at an index has the number that many steps on, cut to its bits. -/
theorem sequenceNumber_of_getElem? {sender : Sender} {calls : List Call} {index : Nat}
    {packet : Packet}
    (found : (allPackets (performAll sender calls))[index]? = some packet)
    : packet.header.sequenceNumber.toNat
      = (sender.sequencer.next.value + index) % UInt16.size := by
  obtain ⟨bound, -⟩ := List.getElem?_eq_some_iff.mp found
  have listed := congrArg (·[index]?) (sequenceNumbers_performAll sender calls)
  simp only [List.getElem?_map, found, List.getElem?_range' bound, Option.map_some,
    Option.some.injEq, Nat.one_mul] at listed
  rw [listed]
  exact UInt16.toNat_ofNat'

theorem allPackets_take_succ {outcomes : List Outcome} {index : Nat} {outcome : Outcome}
    (reached : outcomes[index]? = some outcome)
    : allPackets (outcomes.take (index + 1))
      = allPackets (outcomes.take index) ++ outcome.packets := by
  simp only [allPackets, List.take_add_one, reached, Option.toList_some, List.flatMap_append,
    List.flatMap_singleton]

theorem length_allPackets_take_le (outcomes : List Outcome) (count : Nat)
    : (allPackets (outcomes.take count)).length ≤ (allPackets outcomes).length := by
  have split : allPackets (outcomes.take count) ++ allPackets (outcomes.drop count)
      = allPackets outcomes := by
    rw [allPackets, allPackets, ← List.flatMap_append, List.take_append_drop]
    rfl
  rw [← split, List.length_append]
  exact Nat.le_add_right _ _

theorem elapsed_append (earlier later : List Call)
    : elapsed (earlier ++ later) = elapsed earlier + elapsed later := by
  induction earlier with
  | nil => simp only [List.nil_append, elapsed, Nat.zero_add]
  | cons call earlier ih => simp only [List.cons_append, elapsed, ih, Nat.add_assoc]

/-- After a call the next number is as many steps on as there were packets. -/
theorem counter_of_getElem? {sender : Sender} {calls : List Call} {index : Nat}
    {outcome : Outcome} (reached : (performAll sender calls)[index]? = some outcome)
    : outcome.next.sequencer.next.value
      = sender.sequencer.next.value
        + (allPackets ((performAll sender calls).take (index + 1))).length := by
  obtain ⟨before, call, -, advances, counter, -⟩ := exists_sender_of_getElem? reached
  rw [advances.counter, counter, allPackets_take_succ reached, take_performAll,
    List.length_append, Nat.add_assoc]

/-- After a call the next timestamp is as far on as the calls took, with this one. -/
theorem timestamp_of_getElem? {sender : Sender} {calls : List Call} {index : Nat}
    {outcome : Outcome} (reached : (performAll sender calls)[index]? = some outcome)
    : outcome.next.timestamp.toNat
      = (sender.timestamp.toNat + elapsed (calls.take (index + 1))) % UInt32.size := by
  obtain ⟨before, call, listed, advances, -, clock⟩ := exists_sender_of_getElem? reached
  rw [advances.clock, UInt32.toNat_add, clock, List.take_add_one, listed, elapsed_append,
    Option.toList_some, elapsed, elapsed]
  unfold UInt32.size
  omega

/-- The rollovers count up to the last packet, also where its number is the last one before the
numbers go round. Witness: both are read off the number before the next one.
-/
theorem rollover_of_getElem? {sender : Sender} {calls : List Call} {index : Nat}
    {outcome : Outcome} {last : Packet}
    (reached : (performAll sender calls)[index]? = some outcome)
    (final : (allPackets ((performAll sender calls).take (index + 1))).getLast? = some last)
    : outcome.next.sequencer.rollover * 65536 + last.header.sequenceNumber.toNat + 1
      = sender.sequencer.next.value
        + (allPackets ((performAll sender calls).take (index + 1))).length := by
  have counter := counter_of_getElem? reached
  have present : 0 < (allPackets ((performAll sender calls).take (index + 1))).length := by
    refine List.length_pos_iff.mpr fun none => ?_
    rw [none] at final
    cases final
  have number : last.header.sequenceNumber = outcome.next.sequencer.next.pred.truncated := by
    rw [List.getLast?_eq_getElem?, take_performAll] at final
    rw [← UInt16.toNat_inj, sequenceNumber_of_getElem? final, ← take_performAll,
      ← Nat.add_sub_assoc present, ← counter]
    exact UInt16.toNat_ofNat'.symm
  rw [Sequencer.rollover, number, ExtendedSequenceNumber.rollover_truncated, ← counter]
  exact Nat.sub_add_cancel (by omega)

-----------------------------------------------------------------------------------------
-- The numbering of a run
-----------------------------------------------------------------------------------------

/-- What is seen of a run that starts with a number and a timestamp: in its packets, and in the
sender after each call.
-/
structure Numbered (start : UInt16) (timestamp : UInt32) (calls : List Call)
    (outcomes : List Outcome)
    : Prop where
  complete : outcomes.length = calls.length
  numbers
    : ∀ index packet,
        (allPackets outcomes)[index]? = some packet
        → packet.header.sequenceNumber.toNat = (start.toNat + index) % UInt16.size
  stamps
    : ∀ index outcome,
        outcomes[index]? = some outcome
        → ∀ packet ∈ outcome.packets,
            packet.header.timestamp.toNat
              = (timestamp.toNat + elapsed (calls.take index)) % UInt32.size
  clock
    : ∀ index outcome,
        outcomes[index]? = some outcome
        → outcome.next.timestamp.toNat
          = (timestamp.toNat + elapsed (calls.take (index + 1))) % UInt32.size
  marks
    : ∀ outcome ∈ outcomes,
      ∀ front last,
        outcome.packets = front ++ [last]
        → last.header.marker = true ∧ ∀ packet ∈ front, packet.header.marker = false
  rollovers
    : ∀ index outcome last,
        outcomes[index]? = some outcome
        → (allPackets (outcomes.take (index + 1))).getLast? = some last
        → outcome.next.sequencer.rollover * 65536 + last.header.sequenceNumber.toNat + 1
          = start.toNat + (allPackets (outcomes.take (index + 1))).length
  /-- The count of packets does not go round. -/
  counted : ∀ outcome ∈ outcomes, outcome.next.sequencer.next.value < UInt64.size

/-- In every run of calls packets are numbered one after another and the packets of a call carry
the media time of all calls in front of it, both going round; the last packet of a call is marked,
and the rollovers tell how often the numbers went round.
-/
theorem numbered_performAll {sender : Sender} {start : UInt16} {calls : List Call}
    (fresh : sender.sequencer = .startingAt start)
    (few : (allPackets (performAll sender calls)).length < UInt64.size / 2)
    : Numbered start sender.timestamp calls (performAll sender calls) := by
  have first : sender.sequencer.next.value = start.toNat := by rw [fresh]; rfl
  refine
    ⟨length_performAll sender calls, ?numbers, ?stamps, ?clock, ?marks, ?rollovers, ?counted⟩
  case numbers =>
    intro index packet found
    rw [← first]
    exact sequenceNumber_of_getElem? found
  case stamps =>
    intro index outcome reached packet member
    obtain ⟨before, call, -, advances, -, clock⟩ := exists_sender_of_getElem? reached
    rw [advances.stamped packet member, clock]
  case clock =>
    intro index outcome reached
    exact timestamp_of_getElem? reached
  case marks =>
    intro outcome member
    obtain ⟨index, reached⟩ := List.mem_iff_getElem?.mp member
    obtain ⟨before, call, -, advances, -, -⟩ := exists_sender_of_getElem? reached
    exact advances.marked
  case rollovers =>
    intro index outcome last reached final
    rw [← first]
    exact rollover_of_getElem? reached final
  case counted =>
    intro outcome member
    obtain ⟨index, reached⟩ := List.mem_iff_getElem?.mp member
    have soFar := length_allPackets_take_le (performAll sender calls) (index + 1)
    have small := start.toNat_lt
    rw [counter_of_getElem? reached, first]
    unfold UInt64.size at few ⊢
    omega

/-- A sender with two bytes of payload to a packet, shortly before its numbers and its timestamps
go round.
-/
def aroundZero : Sender where
  mtu := 18
  payloadType := 96
  ssrc := 1
  csrcs := [9]
  timestamp := 4294967290
  sequencer := .startingAt 65534

/-- The timestamps go round in a call that sends nothing, the numbers between two packets of
different calls.
-/
theorem numbered_performAll_aroundZero
    : let calls : List Call :=
        [.send [0x12, 0, 0x32, 1, 5] 4, .skip 5, .send [0x12, 0] 3, .send [0x32, 1, 6] 1]
      let outcomes := performAll aroundZero calls
      (allPackets outcomes).map (fun packet => packet.header.sequenceNumber) = [65534, 65535, 0, 1]
      ∧ outcomes.map (fun outcome => outcome.next.timestamp) = [4294967294, 3, 6, 7]
      ∧ outcomes.map (fun outcome => outcome.next.sequencer.rollover) = [0, 0, 0, 1]
      ∧ (allPackets outcomes).length < UInt64.size / 2
      ∧ Numbered 65534 4294967290 calls outcomes := by
  intro calls outcomes
  have few : (allPackets outcomes).length < UInt64.size / 2 := by decide +kernel
  refine ⟨?_, ?_, ?_, few, numbered_performAll rfl few⟩
  · decide +kernel
  · decide +kernel
  · decide +kernel

end Av1Transport.Session
