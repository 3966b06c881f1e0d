import Av1Transport.Aggregation.Packetization
import Av1Transport.Proofs.Aggregation.Fragments
import Av1Transport.Proofs.Aggregation.PackerRuns

/-! What holds of every packet of a frame.
Main statements: no payload is longer than asked for, none is shorter than two bytes, the lengths
that packets are foretold are those they have, and the first payload starts with an element.
-/

namespace Av1Transport.Aggregation

-----------------------------------------------------------------------------------------
-- The packets of one group
-----------------------------------------------------------------------------------------

/-- A packet with a body says by its first byte whether it starts with an element. -/
theorem startsElement_toBytes {packet : Packet} (countable : packet.header.count.toNat ≤ maxCount)
    (long : 2 ≤ packet.toBytes.length)
    : startsElement packet.toBytes = !packet.header.continues := by
  rw [Packet.toBytes_eq] at long ⊢
  match found : packet.body with
  | [] => simp [found] at long
  | byte :: body => simp [startsElement, packet.header.ofByte_toByte countable]

namespace Bundle

/-- A packet of whole units has a body. Witness: its last unit is not empty. -/
theorem two_le_length_toBytes_packet {obus : List Obu} (present : obus ≠ [])
    : 2 ≤ (packet obus).toBytes.length := by
  have unit := (obus.getLast present).bareLength_pos
  have length := length_toBytes_packet obus.dropLast (obus.getLast present)
  rw [List.dropLast_concat_getLast] at length
  rw [length]
  unfold packetLength elementLength
  split <;> omega

theorem pieces_packet (obus : List Obu)
    : (packet obus).pieces = obus.map fun obu => ⟨obu.bareBytes, false, false⟩ := by
  have pieces := map_zipIdx_fst (fun element => (⟨element, false, false⟩ : Piece))
    (obus.map Obu.bareBytes)
  simp only [Packet.pieces, packet, packetWith, Bool.and_false]
  rw [pieces, List.map_map]
  rfl

end Bundle

namespace Group

theorem exists_part_of_mem_fragmentPackets {mtu : Nat} {obu : Obu} {packet : Packet}
    (member : packet ∈ fragmentPackets mtu obu)
    : ∃ continues continued startsSequence,
      ∃ part ∈ blocks (mtu - 1) obu.bareBytes,
        packet = partPacket continues continued startsSequence part := by
  obtain ⟨⟨part, i⟩, listed, rfl⟩ := List.mem_map.mp member
  exact ⟨_, _, _, part, List.fst_mem_of_mem_zipIdx listed, rfl⟩

/-- Every packet of a group fits, and holds something. -/
theorem length_toBytes_of_mem_packets {mtu : Nat} (room : 2 ≤ mtu) {group : Group}
    (fits : group.Fits mtu) {packet : Packet} (member : packet ∈ group.packets mtu)
    : 2 ≤ packet.toBytes.length ∧ packet.toBytes.length ≤ mtu := by
  cases group with
  | bundle obus =>
      obtain ⟨present, _, length⟩ := fits
      rw [List.mem_singleton.mp member]
      exact ⟨Bundle.two_le_length_toBytes_packet present, length⟩
  | fragments obu =>
      obtain ⟨_, _, _, part, listed, rfl⟩ := exists_part_of_mem_fragmentPackets member
      have positive : 0 < mtu - 1 := by omega
      have present := List.length_pos_iff.mpr (ne_nil_of_mem_blocks positive listed)
      have short := length_le_of_mem_blocks positive listed
      rw [length_toBytes_partPacket]
      omega

/-- The packets of a group start with an element. -/
theorem packets_eq_cons {mtu : Nat} (room : 2 ≤ mtu) {group : Group} (fits : group.Fits mtu)
    : ∃ first later,
        group.packets mtu = first :: later ∧ startsElement first.toBytes = true := by
  have long {first : Packet} {later : List Packet} (cut : group.packets mtu = first :: later)
      : 2 ≤ first.toBytes.length :=
    (length_toBytes_of_mem_packets room fits (cut ▸ List.mem_cons_self)).1
  cases group with
  | bundle obus =>
      refine ⟨Bundle.packet obus, [], rfl, ?_⟩
      rw [startsElement_toBytes (Bundle.count_packet_le obus) (long rfl)]
      rfl
  | fragments obu =>
      match cut : blocks (mtu - 1) obu.bareBytes with
      | [] =>
          have none := flatten_blocks (show 0 < mtu - 1 by omega) obu.bareBytes
          have unit := obu.bareLength_pos
          rw [← Obu.length_bareBytes, ← none, cut] at unit
          cases unit
      | first :: later =>
          have packets := fragmentPackets_of_blocks cut
          refine ⟨_, _, packets, ?_⟩
          rw [startsElement_toBytes (show (1 : UInt8).toNat ≤ maxCount by decide) (long packets)]
          rfl

end Group

-----------------------------------------------------------------------------------------
-- The packets of a frame
-----------------------------------------------------------------------------------------

theorem packets_packetize {mtu : Nat} (room : 2 ≤ mtu) (frame : Bytes)
    : (packetize mtu frame).packets
      = (groups mtu (Obu.split frame).values).flatMap (Group.packets mtu) := by
  unfold packetize
  rw [if_neg (by omega)]
  exact Packer.pack_eq mtu _

theorem failure_packetize {mtu : Nat} (room : 2 ≤ mtu) (frame : Bytes)
    : (packetize mtu frame).failure = (Obu.split frame).failure := by
  unfold packetize
  rw [if_neg (by omega)]

theorem payloads_packetize {mtu : Nat} (room : 2 ≤ mtu) (frame : Bytes)
    : (packetize mtu frame).payloads
      = ((groups mtu (Obu.split frame).values).flatMap (Group.packets mtu)).map
          Packet.toBytes := by
  rw [Packetization.payloads, packets_packetize room]

/-- What holds of no packets, of the packets of every group with the group's units, and of packets
behind others, holds of the packets of a frame with the units that are sent. Witness: induction on
the groups, whose units are those that are sent, in stream order.
-/
theorem packetize_induction {mtu : Nat} (room : 2 ≤ mtu) (frame : Bytes)
    {motive : List Packet → List Obu → Prop}
    (nil : motive [] [])
    (append
      : ∀ {packets more : List Packet} {obus others : List Obu},
          motive packets obus → motive more others → motive (packets ++ more) (obus ++ others))
    (group
      : ∀ {group : Group},
          group.Fits mtu
          → (∀ obu ∈ group.obus, obu ∈ (Obu.split frame).values ∧ obu.isTransmitted = true)
          → motive (group.packets mtu) group.obus)
    : motive (packetize mtu frame).packets ((Obu.split frame).values.filter Obu.isTransmitted) := by
  have order := flatMap_obus_groups room (Obu.split frame).values
  have holds : ∀ next ∈ groups mtu (Obu.split frame).values,
      motive (next.packets mtu) next.obus := by
    intro next listed
    refine group (fits_of_mem_groups room listed) (fun obu member => List.mem_filter.mp ?_)
    exact order ▸ List.mem_flatMap.mpr ⟨next, listed, member⟩
  rw [packets_packetize room, ← order]
  generalize groups mtu (Obu.split frame).values = groups at holds
  induction groups with
  | nil => exact nil
  | cons first later ih =>
      rw [List.flatMap_cons, List.flatMap_cons]
      exact append (holds first List.mem_cons_self)
        (ih fun next listed => holds next (List.mem_cons_of_mem _ listed))

theorem writable_of_mem_packets {mtu : Nat} (room : 2 ≤ mtu) (addressable : mtu < UInt64.size)
    {frame : Bytes} {packet : Packet} (member : packet ∈ (packetize mtu frame).packets)
    : packet.Writable := by
  rw [packets_packetize room] at member
  obtain ⟨group, listed, inside⟩ := List.mem_flatMap.mp member
  have fits := fits_of_mem_groups room listed
  cases group with
  | bundle obus =>
      rw [List.mem_singleton.mp inside]
      exact Bundle.writable_packet fits.1
        (fun obu unit => Nat.lt_trans (fits.2.1 obu unit) addressable)
  | fragments obu =>
      obtain ⟨_, _, _, part, cut, rfl⟩ := Group.exists_part_of_mem_fragmentPackets inside
      have positive : 0 < mtu - 1 := by omega
      have short := Group.length_le_of_mem_blocks positive cut
      exact Group.writable_partPacket (Group.ne_nil_of_mem_blocks positive cut) (by omega) _ _ _

/-- Every packet of a frame is read back from its payload. -/
theorem parse_payloads {mtu : Nat} (room : 2 ≤ mtu) (addressable : mtu < UInt64.size)
    (frame : Bytes)
    : (packetize mtu frame).payloads.map Packet.parse
      = (packetize mtu frame).packets.map .ok := by
  rw [Packetization.payloads, List.map_map]
  exact List.map_congr_left
    fun _ member => Packet.parse_toBytes (writable_of_mem_packets room addressable member)

/-- Every payload of a frame has at least two bytes and at most as many as it may have. -/
theorem length_of_mem_payloads {mtu : Nat} (room : 2 ≤ mtu) {frame payload : Bytes}
    (member : payload ∈ (packetize mtu frame).payloads)
    : 2 ≤ payload.length ∧ payload.length ≤ mtu := by
  rw [payloads_packetize room] at member
  obtain ⟨packet, sent, rfl⟩ := List.mem_map.mp member
  obtain ⟨group, listed, inside⟩ := List.mem_flatMap.mp sent
  exact Group.length_toBytes_of_mem_packets room (fits_of_mem_groups room listed) inside

theorem startsElement_of_payloads_eq_cons {mtu : Nat} (room : 2 ≤ mtu) {frame first : Bytes}
    {later : List Bytes} (payloads : (packetize mtu frame).payloads = first :: later)
    : startsElement first = true := by
  rw [payloads_packetize room] at payloads
  match listed : groups mtu (Obu.split frame).values with
  | [] => simp [listed] at payloads
  | group :: _ =>
      have member : group ∈ groups mtu (Obu.split frame).values :=
        listed ▸ List.mem_cons_self
      obtain ⟨head, tail, packets, starts⟩ :=
        Group.packets_eq_cons room (fits_of_mem_groups room member)
      rw [listed, List.flatMap_cons, packets, List.cons_append, List.map_cons] at payloads
      exact List.head_eq_of_cons_eq payloads ▸ starts

/-- A packer knows the length of the packet that its units make before it makes the packet. -/
theorem length_of_flush {packer : Packer} {last : Obu}
    (waits : packer.bundle.obus.back? = some last)
    : Leb128.size last.bareLength ≤ 1 + packer.bundle.prefixedLength
      ∧ ∃ packet,
          packer.flush.packets = packer.packets.push packet
          ∧ packer.bundle.length? = some packet.toBytes.length := by
  rw [← Array.getLast?_toList] at waits
  have member := List.mem_of_getLast? waits
  have present := List.ne_nil_of_mem member
  have part := Bundle.size_le_prefixedLength member
  exact ⟨by omega, _, Packer.packets_flush present, Bundle.length?_eq present _⟩

/-- A packer knows the length of the packet that its units would make with one more, before that
unit joins them.
-/
theorem length_of_flush_push (packer : Packer) (obu : Obu)
    : Leb128.size obu.bareLength ≤ 1 + (packer.bundle.prefixedLength + elementLength obu)
      ∧ ∃ packet,
          (packer.push obu).flush.packets = packer.packets.push packet
          ∧ packer.bundle.lengthWith obu = packet.toBytes.length := by
  have present : (packer.push obu).bundle.obus.toList ≠ [] := by
    simp [Packer.push]
  refine ⟨?_, _, Packer.packets_flush present, packer.bundle.lengthWith_eq obu _⟩
  unfold elementLength
  omega

/-- Every payload of a frame has at least two bytes and at most as many as it may have, whatever the
frame and whatever that number. The lengths that a packer compares with it are those of the packets
it goes on to make, both of the units that wait and of these with one more, and what is subtracted
in them is never more than what it is subtracted from.
-/
theorem payloads_within_mtu (mtu : Nat) (frame : Bytes)
    : (∀ payload ∈ (packetize mtu frame).payloads, 2 ≤ payload.length ∧ payload.length ≤ mtu)
      ∧ (∀ (packer : Packer) (last : Obu),
          packer.bundle.obus.back? = some last
          → Leb128.size last.bareLength ≤ 1 + packer.bundle.prefixedLength
            ∧ ∃ packet,
                packer.flush.packets = packer.packets.push packet
                ∧ packer.bundle.length? = some packet.toBytes.length)
      ∧ ∀ (packer : Packer) (obu : Obu),
          Leb128.size obu.bareLength ≤ 1 + (packer.bundle.prefixedLength + elementLength obu)
          ∧ ∃ packet,
              (packer.push obu).flush.packets = packer.packets.push packet
              ∧ packer.bundle.lengthWith obu = packet.toBytes.length := by
  refine ⟨?_, fun _ _ => length_of_flush, length_of_flush_push⟩
  intro payload member
  by_cases room : 2 ≤ mtu
  · exact length_of_mem_payloads room member
  · have none : (packetize mtu frame).payloads = [] := by
      rw [Packetization.payloads, packetize, if_pos (by omega)]
      rfl
    rw [none] at member
    cases member

/-- A frame with the payload and its size. -/
def sizedFrame (payload : Bytes) : Obu :=
  ⟨⟨.frame, none, true, false⟩, payload⟩

/-- Four frames that take two bytes each without their size. -/
def shortFrames : Bytes :=
  [0x32, 1, 1, 0x32, 1, 2, 0x32, 1, 3, 0x32, 1, 4]

/-- A packer for which the first three of them wait. -/
def waitingPacker : Packer :=
  ((Packer.start.push (sizedFrame [1])).push (sizedFrame [2])).push (sizedFrame [3])

/-- Three of the frames make a packet of nine bytes. The fourth would make it one of thirteen, as all
four would have their length in front, and so is alone in the next packet.
-/
theorem payloads_within_mtu_fourth
    : waitingPacker.bundle.length? = some 9
      ∧ (∃ packet,
          (waitingPacker.push (sizedFrame [4])).flush.packets = #[packet]
          ∧ packet.toBytes.length = 13)
      ∧ [0x10, 0x30, 4] ∈ (packetize 12 shortFrames).payloads
      ∧ ([0x10, 0x30, 4] : Bytes).length ≤ 12 := by
  obtain ⟨bounded, _, foretold⟩ := payloads_within_mtu 12 shortFrames
  have sent : [0x10, 0x30, 4] ∈ (packetize 12 shortFrames).payloads := by
    decide +kernel
  obtain ⟨_, packet, made, length⟩ := foretold waitingPacker (sizedFrame [4])
  have thirteen : waitingPacker.bundle.lengthWith (sizedFrame [4]) = 13 := by
    decide +kernel
  exact ⟨by decide +kernel, ⟨packet, made, length.symm.trans thirteen⟩, sent,
    (bounded _ sent).2⟩

end Av1Transport.Aggregation
