import Av1Transport.Proofs.Aggregation.Carriage
import Av1Transport.Proofs.Reassembly.RoundTrip

/-! Frames of which packets are lost.
The receiver is told of every gap before the packet behind it. Main statement: it accepts whatever
arrives, and stores exactly the units all of whose packets arrived.
-/

namespace Av1Transport.Reassembly

open Av1Transport.Aggregation

-----------------------------------------------------------------------------------------
-- Packets that arrive or are lost
-----------------------------------------------------------------------------------------

/-- The packet in front of the one of this number was sent and is lost. -/
def gapBefore (arrives : Nat → Bool) : Nat → Bool
  | 0 => false
  | number + 1 => !arrives number

namespace StreamReceiver

/-- The receiver as it takes the packet of this number: behind a gap it starts anew. -/
def toldOfGap (receiver : StreamReceiver) (arrives : Nat → Bool) (number : Nat) : StreamReceiver :=
  if gapBefore arrives number then initial else receiver

/-- The answers to those of the payloads that arrive, in order, and the receiver after them. The
first payload has the given number.
-/
def receiveArriving (arrives : Nat → Bool) (receiver : StreamReceiver)
    : Nat → List Bytes → List (Except Error Chunked) × StreamReceiver
  | _, [] => ([], receiver)
  | number, payload :: payloads =>
      if arrives number then
        let (result, next) := (receiver.toldOfGap arrives number).receive payload
        let (results, last) := next.receiveArriving arrives (number + 1) payloads
        (result :: results, last)
      else
        receiver.receiveArriving arrives (number + 1) payloads

variable {arrives : Nat → Bool} {receiver middle last : StreamReceiver} {number : Nat}
  {payload : Bytes} {payloads later : List Bytes} {bytes more : Bytes}

/-- The answers to a longer run are those to its parts, by induction on the first part. -/
theorem receiveArriving_append (receiver : StreamReceiver) (number : Nat)
    (payloads later : List Bytes)
    : receiver.receiveArriving arrives number (payloads ++ later)
      = ((receiver.receiveArriving arrives number payloads).1
          ++ ((receiver.receiveArriving arrives number payloads).2.receiveArriving arrives
            (number + payloads.length) later).1,
        ((receiver.receiveArriving arrives number payloads).2.receiveArriving arrives
          (number + payloads.length) later).2) := by
  induction payloads generalizing receiver number with
  | nil => rfl
  | cons payload payloads ih =>
      rw [List.cons_append, List.length_cons, Nat.add_comm payloads.length, ← Nat.add_assoc,
        receiveArriving, receiveArriving]
      split
      next => simp only [ih, List.cons_append]
      next => exact ih receiver (number + 1)

/-- The receiver accepts those of the payloads that arrive, gives these bytes for them, and is left
as `last`.
-/
def Salvages (arrives : Nat → Bool) (receiver : StreamReceiver) (number : Nat)
    (payloads : List Bytes) (bytes : Bytes) (last : StreamReceiver)
    : Prop :=
  ∃ outputs : List Chunked,
    receiver.receiveArriving arrives number payloads = (outputs.map .ok, last)
    ∧ outputs.flatMap Chunked.bytes = bytes

theorem salvages_nil (receiver : StreamReceiver)
    : receiver.Salvages arrives number [] [] receiver :=
  ⟨[], rfl, rfl⟩

theorem Salvages.arrived {output : Chunked} (arrived : arrives number = true)
    (received : (receiver.toldOfGap arrives number).receive payload = (.ok output, middle))
    (run : middle.Salvages arrives (number + 1) payloads bytes last)
    : receiver.Salvages arrives number (payload :: payloads) (output.bytes ++ bytes) last := by
  obtain ⟨outputs, results, joined⟩ := run
  refine ⟨output :: outputs, ?_, by simp [joined]⟩
  rw [receiveArriving, if_pos arrived, received]
  simp only [results, List.map_cons]

theorem Salvages.lost (lost : arrives number = false)
    (run : receiver.Salvages arrives (number + 1) payloads bytes last)
    : receiver.Salvages arrives number (payload :: payloads) bytes last := by
  obtain ⟨outputs, results, joined⟩ := run
  refine ⟨outputs, ?_, joined⟩
  rw [receiveArriving, lost, if_neg Bool.false_ne_true]
  exact results

theorem Salvages.append (run : receiver.Salvages arrives number payloads bytes middle)
    (next : middle.Salvages arrives (number + payloads.length) later more last)
    : receiver.Salvages arrives number (payloads ++ later) (bytes ++ more) last := by
  obtain ⟨outputs, results, joined⟩ := run
  obtain ⟨outputs', results', joined'⟩ := next
  refine ⟨outputs ++ outputs', ?_, by simp [joined, joined']⟩
  simp [receiveArriving_append, results, results']

/-- A packet that yields bytes from every receiver gives them if it arrives. -/
theorem salvages_single (yields : ∀ receiver : StreamReceiver, receiver.Yields [payload] bytes last)
    (receiver : StreamReceiver) (number : Nat)
    : ∃ last,
        receiver.Salvages arrives number [payload] (if arrives number then bytes else []) last := by
  cases arrived : arrives number with
  | false =>
      rw [if_neg Bool.false_ne_true]
      exact ⟨receiver, (salvages_nil receiver).lost arrived⟩
  | true =>
      obtain ⟨output, received, same⟩ := (yields (receiver.toldOfGap arrives number)).single
      rw [if_pos rfl, ← same, ← List.append_nil output.bytes]
      exact ⟨last, (salvages_nil last).arrived arrived received⟩

-----------------------------------------------------------------------------------------
-- Units that are cut
-----------------------------------------------------------------------------------------

/-- A part of a unit whose start is lost is passed over. -/
theorem receive_orphan_part {part : Bytes} (present : part ≠ [])
    (size : part.length < UInt64.size) (continued : Bool)
    (nothing : receiver.pending.bytes = [])
    : receiver.receive (Group.partPacket true continued false part).toBytes
      = (.ok .empty, receiver) := by
  have writable := Group.writable_partPacket present size true continued false
  have idle : receiver.pending.isEmpty = true := (Chunked.isEmpty_iff _).mpr nothing
  have absorbed
      : StreamProgress.absorbAll
            ⟨receiver.pendingFor (Group.partPacket true continued false part).header, .empty⟩
            (Group.partPacket true continued false part).pieces
        = .ok ⟨receiver.pending, .empty⟩ := by
    rw [Group.pieces_partPacket]
    simp [pendingFor, Group.partPacket, StreamProgress.absorbAll, StreamProgress.absorb, idle]
  exact receive_toBytes writable absorbed

/-- Once a part of a unit is lost, those behind it give nothing. Witness: induction on the parts;
either the packet in front is lost, and the receiver will be told, or nothing is pending.
-/
theorem salvages_orphans {parts : List Bytes}
    (bounded : ∀ part ∈ parts, part ≠ [] ∧ part.length ≤ maxPendingSize)
    (broken : gapBefore arrives number = true ∨ receiver.pending.bytes = [])
    : ∃ last,
        receiver.Salvages arrives number ((Group.continuationPackets parts).map Packet.toBytes) []
          last := by
  induction parts generalizing receiver number with
  | nil => exact ⟨receiver, salvages_nil receiver⟩
  | cons part parts ih =>
      obtain ⟨present, short⟩ := bounded part List.mem_cons_self
      have others : ∀ part ∈ parts, part ≠ [] ∧ part.length ≤ maxPendingSize :=
        fun later member => bounded later (List.mem_cons_of_mem _ member)
      cases arrived : arrives number with
      | false =>
          have gap : gapBefore arrives (number + 1) = true := by simp [gapBefore, arrived]
          obtain ⟨last, run⟩ := ih others (Or.inl gap)
          exact ⟨last, run.lost arrived⟩
      | true =>
          have nothing : (receiver.toldOfGap arrives number).pending.bytes = [] := by
            unfold toldOfGap
            rcases broken with gap | nothing
            · rw [if_pos gap]
              rfl
            · split
              · rfl
              · exact nothing
          have passed := receive_orphan_part present (lt_size_of_le_maxPendingSize short)
            (!parts.isEmpty) nothing
          obtain ⟨last, run⟩ := ih others (Or.inr nothing)
          exact ⟨last, Salvages.arrived arrived passed run⟩

/-- The parts that are left of a unit complete it if all of them arrive, and else give nothing.
Witness: induction on the parts; the pending bytes and the parts to come are the unit's bytes until
a part is lost.
-/
theorem salvages_continuationPackets {obu : Obu} (sendable : Sendable obu)
    (capped : obu.bareLength ≤ maxPendingSize) {pending : Chunked} {parts : List Bytes}
    (started : pending.bytes ≠ []) (remaining : parts ≠ [])
    (bounded : ∀ part ∈ parts, part ≠ [] ∧ part.length ≤ maxPendingSize)
    (whole : pending.bytes ++ parts.flatten = obu.bareBytes)
    (gapless : gapBefore arrives number = false)
    : ∃ last,
        Salvages arrives ⟨pending⟩ number ((Group.continuationPackets parts).map Packet.toBytes)
          (if (List.range' number parts.length).all arrives then obu.toBytes else []) last := by
  induction parts generalizing pending number with
  | nil => exact absurd rfl remaining
  | cons part parts ih =>
      obtain ⟨present, short⟩ := bounded part List.mem_cons_self
      have others : ∀ part ∈ parts, part ≠ [] ∧ part.length ≤ maxPendingSize :=
        fun later member => bounded later (List.mem_cons_of_mem _ member)
      have told : toldOfGap ⟨pending⟩ arrives number = ⟨pending⟩ := by
        rw [toldOfGap, gapless, if_neg Bool.false_ne_true]
      rw [List.length_cons, List.range'_succ, List.all_cons]
      cases arrived : arrives number with
      | false =>
          have gap : gapBefore arrives (number + 1) = true := by simp [gapBefore, arrived]
          obtain ⟨last, run⟩ := salvages_orphans others (Or.inl gap)
          rw [Bool.false_and, if_neg Bool.false_ne_true]
          exact ⟨last, run.lost arrived⟩
      | true =>
          rw [Bool.true_and]
          cases parts with
          | nil =>
              obtain ⟨output, received, bytes⟩ :=
                receive_last_part present started sendable capped (by simpa using whole)
              rw [← told] at received
              have run := Salvages.arrived arrived received (salvages_nil initial)
              rw [bytes, List.append_nil] at run
              exact ⟨initial, run⟩
          | cons next parts =>
              have length := congrArg List.length whole
              simp only [List.length_append, List.flatten_cons, Obu.length_bareBytes] at length
              have received := receive_middle_part present started (by omega)
              rw [← told] at received
              have grown : (pending.push part).bytes ≠ [] := by simp [started]
              have later : gapBefore arrives (number + 1) = false := by simp [gapBefore, arrived]
              obtain ⟨last, run⟩ := ih grown (by simp) others (by simpa using whole) later
              exact ⟨last, Salvages.arrived arrived received run⟩

/-- The packets of a unit that is cut give the unit if all of them arrive, and else nothing. -/
theorem salvages_fragmentPackets {obu : Obu} (sendable : Sendable obu) {mtu : Nat}
    (room : 2 ≤ mtu) (long : mtu ≤ obu.bareLength) (capped : obu.bareLength ≤ maxPendingSize)
    (receiver : StreamReceiver) (number : Nat)
    : ∃ last,
        receiver.Salvages arrives number ((Group.fragmentPackets mtu obu).map Packet.toBytes)
          (if (List.range' number (Group.fragmentPackets mtu obu).length).all arrives then
            obu.toBytes
          else
            [])
          last := by
  obtain ⟨first, parts, cut, remaining, whole, bounded⟩ := Group.exists_blocks_of_long room long
  have kept : ∀ part ∈ first :: parts, part ≠ [] ∧ part.length ≤ maxPendingSize := by
    intro part member
    obtain ⟨present, short⟩ := bounded part member
    exact ⟨present, by omega⟩
  obtain ⟨started, short⟩ := kept first List.mem_cons_self
  have others : ∀ part ∈ parts, part ≠ [] ∧ part.length ≤ maxPendingSize :=
    fun part member => kept part (List.mem_cons_of_mem _ member)
  have continued : (!parts.isEmpty) = true := by simpa using remaining
  rw [Group.fragmentPackets_of_blocks cut, continued, List.length_cons,
    Group.length_continuationPackets, List.range'_succ, List.all_cons]
  cases arrived : arrives number with
  | false =>
      have gap : gapBefore arrives (number + 1) = true := by simp [gapBefore, arrived]
      obtain ⟨last, run⟩ := salvages_orphans others (Or.inl gap)
      rw [Bool.false_and, if_neg Bool.false_ne_true]
      exact ⟨last, run.lost arrived⟩
  | true =>
      have gapless : gapBefore arrives (number + 1) = false := by simp [gapBefore, arrived]
      have begun : (Chunked.ofBytes first).bytes ≠ [] := by simpa using started
      have received := receive_first_part started short (Bundle.startsSequence [obu])
        (receiver.toldOfGap arrives number)
      obtain ⟨last, run⟩ := salvages_continuationPackets sendable capped begun remaining others
        (by simpa using whole) gapless
      rw [Bool.true_and]
      exact ⟨last, Salvages.arrived arrived received run⟩

-----------------------------------------------------------------------------------------
-- Groups and frames
-----------------------------------------------------------------------------------------

/-- Units that share their packets arrive together or not at all. -/
theorem filter_arriving (arrives : Nat → Bool) (numbers : List Nat) (obus : List Obu)
    : ((obus.map fun obu => (obu, numbers)).filter fun entry => entry.2.all arrives).map Prod.fst
      = if numbers.all arrives then obus else [] := by
  rw [List.filter_map, List.map_map]
  cases arrived : numbers.all arrives with
  | true => simp [Function.comp_def, arrived]
  | false => simp [Function.comp_def, arrived]

/-- The packets of a group give its units if all of them arrive, and else nothing. -/
theorem salvages_group {mtu : Nat} (room : 2 ≤ mtu) (addressable : mtu < UInt64.size)
    {group : Group} (fits : group.Fits mtu) (sendable : ∀ obu ∈ group.obus, Sendable obu)
    (capped : ∀ obu ∈ group.obus, mtu - 1 < obu.bareLength → obu.bareLength ≤ maxPendingSize)
    (receiver : StreamReceiver) (number : Nat)
    : ∃ last,
        receiver.Salvages arrives number ((group.packets mtu).map Packet.toBytes)
          (if (List.range' number (group.packets mtu).length).all arrives then
            Obu.joinBytes group.obus
          else
            [])
          last := by
  cases group with
  | bundle obus =>
      obtain ⟨present, short, _⟩ := fits
      have yields := yields_packet present
        (fun obu member => Nat.lt_trans (short obu member) addressable) sendable
      simpa [Group.packets, Group.obus] using salvages_single yields receiver number
  | fragments obu =>
      have long : mtu ≤ obu.bareLength := fits
      have single : obu ∈ (Group.fragments obu).obus := List.mem_singleton.mpr rfl
      have joined : Obu.joinBytes (Group.fragments obu).obus = obu.toBytes := by
        simp [Group.obus, Obu.joinBytes]
      rw [joined]
      exact salvages_fragmentPackets (sendable obu single) room long (capped obu single (by omega))
        receiver number

/-- The packets of groups in order give the units all of whose packets arrive, by induction on the
groups: the first packet of a group is received alike in any state.
-/
theorem salvages_groups {mtu : Nat} (room : 2 ≤ mtu) (addressable : mtu < UInt64.size)
    {groups : List Group} (fits : ∀ group ∈ groups, group.Fits mtu)
    (sendable : ∀ obu ∈ groups.flatMap Group.obus, Sendable obu)
    (capped
      : ∀ obu ∈ groups.flatMap Group.obus,
          mtu - 1 < obu.bareLength → obu.bareLength ≤ maxPendingSize)
    (receiver : StreamReceiver) (number : Nat)
    : ∃ last,
        receiver.Salvages arrives number
          ((groups.flatMap (Group.packets mtu)).map Packet.toBytes)
          (Obu.joinBytes
            (((carriageFrom mtu number groups).filter fun entry => entry.2.all arrives).map
              Prod.fst))
          last := by
  induction groups generalizing receiver number with
  | nil => exact ⟨receiver, salvages_nil receiver⟩
  | cons group groups ih =>
      obtain ⟨middle, first⟩ := salvages_group room addressable (fits group List.mem_cons_self)
        (fun obu member => sendable obu (by simp [member]))
        (fun obu member => capped obu (by simp [member])) receiver number
      obtain ⟨last, later⟩ := ih (fun next member => fits next (List.mem_cons_of_mem _ member))
        (fun obu member => sendable obu (List.mem_append_right _ member))
        (fun obu member => capped obu (List.mem_append_right _ member)) middle
        (number + ((group.packets mtu).map Packet.toBytes).length)
      refine ⟨last, ?_⟩
      rw [List.flatMap_cons, List.map_append, carriageFrom, List.filter_append, List.map_append,
        filter_arriving]
      have run := first.append later
      rw [List.length_map] at run
      split
      next arrived => simpa [arrived, Obu.joinBytes] using run
      next lost => simpa [lost, Obu.joinBytes] using run

/-- A frame of which packets are lost. Its units are carried by packets as listed; whatever packets
arrive, in order and with the receiver told of every gap, are all accepted; and what is given for
them is, byte for byte, the units all of whose packets arrived, each with its size and in stream
order.
-/
theorem receiveArriving_packetize {mtu : Nat} (room : 2 ≤ mtu) (addressable : mtu < UInt64.size)
    {frame : Bytes} (capped : FragmentsFit mtu frame) (arrives : Nat → Bool)
    (receiver : StreamReceiver)
    : (carriage mtu frame).map Prod.fst = (Obu.split frame).values.filter Obu.isTransmitted
      ∧ (∀ entry ∈ carriage mtu frame, CarriedBy (packetize mtu frame).packets entry.1 entry.2)
      ∧ ∃ (outputs : List Chunked) (last : StreamReceiver),
          receiver.receiveArriving arrives 0 (packetize mtu frame).payloads
            = (outputs.map .ok, last)
          ∧ outputs.flatMap Chunked.bytes
            = Obu.joinBytes
                (((carriage mtu frame).filter fun entry => entry.2.all arrives).map Prod.fst) := by
  have order : (groups mtu (Obu.split frame).values).flatMap Group.obus = transmitted frame :=
    flatMap_obus_groups room (Obu.split frame).values
  refine ⟨map_fst_carriage room frame, fun _ member => carriedBy_of_mem_carriage room member, ?_⟩
  obtain ⟨last, outputs, results, stored⟩ := salvages_groups room addressable
    (fun _ member => fits_of_mem_groups room member)
    (fun obu member => sendable_of_mem_transmitted (order ▸ member))
    (fun obu member => capped obu (order ▸ member)) receiver 0
  rw [← payloads_packetize room] at results
  exact ⟨outputs, last, results, stored⟩

/-- Of a sequence header, a layered frame in three parts and a frame behind it, the middle part is
lost: the other two units are stored, and nothing of the layered frame.
-/
theorem receiveArriving_packetize_middle_lost
    : let frame : Bytes := [0x0A, 1, 0xAA, 0x36, 8, 3, 1, 2, 3, 0x32, 1, 5]
      FragmentsFit 3 frame
      ∧ (carriage 3 frame).map Prod.snd = [[0], [1, 2, 3], [4]]
      ∧ ∃ (outputs : List Chunked) (last : StreamReceiver),
          initial.receiveArriving (fun number => number != 2) 0 (packetize 3 frame).payloads
            = (outputs.map .ok, last)
          ∧ outputs.flatMap Chunked.bytes = [0x0A, 1, 0xAA, 0x32, 1, 5] := by
  intro frame
  have capped : FragmentsFit 3 frame := fragmentsFit_of_length_le (by decide) 3
  obtain ⟨_, _, outputs, last, results, stored⟩ :=
    receiveArriving_packetize (by decide) (by decide) capped (fun number => number != 2) initial
  refine ⟨capped, by decide +kernel, outputs, last, results, stored.trans ?_⟩
  decide +kernel

end StreamReceiver

end Av1Transport.Reassembly
