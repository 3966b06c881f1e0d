import Av1Transport.Proofs.Aggregation.FramePackets

/-! Which packets of a frame carry which unit.
Main statements: every unit that is sent is in the list, in stream order, and the packets listed for
it carry it, as one of their elements or cut into parts; and the packets themselves tell where each
unit stands.
-/

namespace Av1Transport.Aggregation

/-- The units of groups, each with the numbers of the packets of its group, where the first packet
has the number `start`.
-/
def carriageFrom (mtu : Nat) : Nat → List Group → List (Obu × List Nat)
  | _, [] => []
  | start, group :: groups =>
      let count := (group.packets mtu).length
      group.obus.map (fun obu => (obu, List.range' start count))
        ++ carriageFrom mtu (start + count) groups

/-- The units of a frame that are sent, each with the numbers of the packets that carry it. -/
def carriage (mtu : Nat) (frame : Bytes) : List (Obu × List Nat) :=
  carriageFrom mtu 0 (groups mtu (Obu.split frame).values)

/-- The packets of these numbers carry the unit: one packet has it as an element, or several have
nothing but its parts.
-/
inductive CarriedBy (packets : List Packet) (obu : Obu) : List Nat → Prop where
  | whole {number : Nat} (packet : Packet) (sent : packets[number]? = some packet)
      (listed : obu.bareBytes ∈ packet.elements)
      : CarriedBy packets obu [number]
  | cut {numbers : List Nat} (parts : List Bytes)
      (sent
        : numbers.map (fun number => packets[number]?.map Packet.elements)
          = parts.map fun part => some [part])
      (joined : parts.flatten = obu.bareBytes)
      : CarriedBy packets obu numbers

theorem map_fst_carriageFrom (mtu start : Nat) (groups : List Group)
    : (carriageFrom mtu start groups).map Prod.fst = groups.flatMap Group.obus := by
  induction groups generalizing start with
  | nil => rfl
  | cons group groups ih => simp [carriageFrom, ih, Function.comp_def]

/-- The unit of an entry is one of a group whose packets the entry counts, by induction on the
groups.
-/
theorem exists_group_of_mem_carriageFrom {mtu start : Nat} {groups : List Group}
    {entry : Obu × List Nat} (member : entry ∈ carriageFrom mtu start groups)
    : ∃ group ∈ groups,
        entry.1 ∈ group.obus ∧ entry.2.length = (group.packets mtu).length := by
  induction groups generalizing start with
  | nil => cases member
  | cons group groups ih =>
      rcases List.mem_append.mp member with here | later
      · obtain ⟨obu, unit, rfl⟩ := List.mem_map.mp here
        exact ⟨group, List.mem_cons_self, unit, List.length_range'⟩
      · obtain ⟨next, listed, unit, count⟩ := ih later
        exact ⟨next, List.mem_cons_of_mem _ listed, unit, count⟩

/-- The units in the list are those that are sent, in stream order. -/
theorem map_fst_carriage {mtu : Nat} (room : 2 ≤ mtu) (frame : Bytes)
    : (carriage mtu frame).map Prod.fst = (Obu.split frame).values.filter Obu.isTransmitted := by
  rw [carriage, map_fst_carriageFrom, flatMap_obus_groups room]

/-- Items in the middle of a list are found under consecutive numbers. -/
theorem map_getElem?_range' {α : Type} (before items after : List α)
    : (List.range' before.length items.length).map (fun i => (before ++ (items ++ after))[i]?)
      = items.map some := by
  apply List.ext_getElem
  · simp
  · intro index _ inside
    rw [List.length_map] at inside
    rw [List.getElem_map, List.getElem_map, List.getElem_range', Nat.one_mul,
      List.getElem?_append_right (Nat.le_add_right _ _), Nat.add_sub_cancel_left,
      List.getElem?_append_left inside, List.getElem?_eq_getElem inside]

/-- The parts of a unit that is cut are the only elements of its packets. -/
theorem map_elements_fragmentPackets (mtu : Nat) (obu : Obu)
    : (Group.fragmentPackets mtu obu).map Packet.elements
      = (Group.blocks (mtu - 1) obu.bareBytes).map fun part => [part] := by
  rw [Group.fragmentPackets, Group.cutPackets, List.map_map]
  exact map_zipIdx_fst (fun part => [part]) _

/-- The units of a group are carried by the packets of the group, wherever these stand. -/
theorem carriedBy_of_mem_obus {mtu : Nat} (room : 2 ≤ mtu) (before after : List Packet)
    {group : Group} {obu : Obu} (member : obu ∈ group.obus)
    : CarriedBy (before ++ (group.packets mtu ++ after)) obu
        (List.range' before.length (group.packets mtu).length) := by
  have found := map_getElem?_range' before (group.packets mtu) after
  cases group with
  | bundle obus =>
      refine .whole (Bundle.packet obus) ?_ (List.mem_map_of_mem member)
      exact List.head_eq_of_cons_eq found
  | fragments unit =>
      rw [List.mem_singleton.mp member]
      refine .cut (Group.blocks (mtu - 1) unit.bareBytes) ?_ ?_
      · have elements := congrArg (List.map (Option.map Packet.elements)) found
        have parts := congrArg (List.map some) (map_elements_fragmentPackets mtu unit)
        rw [List.map_map, List.map_map] at elements parts
        exact elements.trans parts
      · exact Group.flatten_blocks (by omega) unit.bareBytes

/-- Every unit in the list is carried by the packets with its numbers, by induction on the groups:
the packets of the groups before stand in front.
-/
theorem carriedBy_of_mem_carriageFrom {mtu : Nat} (room : 2 ≤ mtu) {groups : List Group}
    (before : List Packet) {entry : Obu × List Nat}
    (member : entry ∈ carriageFrom mtu before.length groups)
    : CarriedBy (before ++ groups.flatMap (Group.packets mtu)) entry.1 entry.2 := by
  induction groups generalizing before with
  | nil => cases member
  | cons group groups ih =>
      rw [List.flatMap_cons]
      rcases List.mem_append.mp member with here | later
      · obtain ⟨obu, listed, rfl⟩ := List.mem_map.mp here
        exact carriedBy_of_mem_obus room before _ listed
      · rw [← List.append_assoc]
        refine ih (before ++ group.packets mtu) ?_
        rwa [List.length_append]

theorem carriedBy_of_mem_carriage {mtu : Nat} (room : 2 ≤ mtu) {frame : Bytes}
    {entry : Obu × List Nat} (member : entry ∈ carriage mtu frame)
    : CarriedBy (packetize mtu frame).packets entry.1 entry.2 := by
  rw [packets_packetize room]
  exact carriedBy_of_mem_carriageFrom room [] member

-----------------------------------------------------------------------------------------
-- What the packets tell
-----------------------------------------------------------------------------------------

/-- The pieces of packets, each with the number of its packet, where the first packet has the number
`start`.
-/
def numberedPieces (start : Nat) : List Packet → List (Nat × Piece)
  | [] => []
  | packet :: packets =>
      packet.pieces.map (fun piece => (start, piece)) ++ numberedPieces (start + 1) packets

/-- Pieces put together by their flags: the bytes of every element that comes to its end, with the
numbers of the packets it was in. `waiting` is what the first piece may go on from.
-/
def joinPieces (waiting : Bytes × List Nat) : List (Nat × Piece) → List (Bytes × List Nat)
  | [] => []
  | (number, piece) :: later =>
      let before := if piece.continues then waiting else ([], [])
      let joined := (before.1 ++ piece.bytes, before.2 ++ [number])
      if piece.continued then
        joinPieces joined later
      else
        joined :: joinPieces ([], []) later

/-- The elements that packets carry, each with the numbers of the packets it spans. -/
def elementSpans (packets : List Packet) : List (Bytes × List Nat) :=
  joinPieces ([], []) (numberedPieces 0 packets)

theorem numberedPieces_append (start : Nat) (packets more : List Packet)
    : numberedPieces start (packets ++ more)
      = numberedPieces start packets ++ numberedPieces (start + packets.length) more := by
  induction packets generalizing start with
  | nil => rfl
  | cons packet packets ih =>
      simp only [List.cons_append, numberedPieces, ih, List.length_cons, List.append_assoc]
      rw [Nat.add_assoc, Nat.add_comm 1]

/-- Whole elements are found one by one, by induction on the elements. -/
theorem joinPieces_whole (number : Nat) (elements : List Bytes) (later : List (Nat × Piece))
    : joinPieces ([], [])
          (elements.map (fun element => (number, ⟨element, false, false⟩)) ++ later)
        = elements.map (fun element => (element, [number])) ++ joinPieces ([], []) later := by
  induction elements with
  | nil => rfl
  | cons element elements ih =>
      simp only [List.map_cons, List.cons_append, joinPieces, ih]
      rfl

/-- The parts after the first complete what waits, by induction on the parts. -/
theorem joinPieces_continuationPackets (waiting : Bytes × List Nat) (number : Nat) (part : Bytes)
    (parts : List Bytes) (later : List (Nat × Piece))
    : joinPieces waiting
          (numberedPieces number (Group.continuationPackets (part :: parts)) ++ later)
        = (waiting.1 ++ (part :: parts).flatten,
            waiting.2 ++ List.range' number (part :: parts).length)
          :: joinPieces ([], []) later := by
  induction parts generalizing waiting number part with
  | nil =>
      simp [Group.continuationPackets, numberedPieces, Group.pieces_partPacket, joinPieces]
  | cons next parts ih =>
      rw [Group.continuationPackets, numberedPieces, Group.pieces_partPacket, List.append_assoc]
      simp only [List.map_cons, List.map_nil, List.cons_append, List.nil_append, joinPieces]
      simp only [List.isEmpty_cons, Bool.not_false, if_true, ih, List.flatten_cons,
        List.append_assoc, List.length_cons, List.range'_succ, List.singleton_append]

/-- The packets of a group tell its units, by cases on the group. -/
theorem joinPieces_packets {mtu : Nat} (room : 2 ≤ mtu) {group : Group} (fits : group.Fits mtu)
    (number : Nat) (later : List (Nat × Piece))
    : joinPieces ([], []) (numberedPieces number (group.packets mtu) ++ later)
      = group.obus.map
          (fun obu => (obu.bareBytes, List.range' number (group.packets mtu).length))
        ++ joinPieces ([], []) later := by
  cases group with
  | bundle obus =>
      have found := joinPieces_whole number (obus.map Obu.bareBytes) later
      rw [List.map_map, List.map_map] at found
      simp only [Group.packets, Group.obus, numberedPieces, Bundle.pieces_packet, List.map_map,
        List.append_nil]
      exact found
  | fragments obu =>
      obtain ⟨first, rest, cut, several, joined, _⟩ := Group.exists_blocks_of_long room fits
      obtain ⟨next, parts, rfl⟩ := List.exists_cons_of_ne_nil several
      have found := joinPieces_continuationPackets ([] ++ first, [] ++ [number]) (number + 1) next
        parts later
      simp only [Group.packets, Group.obus, Group.fragmentPackets_of_blocks cut, numberedPieces,
        Group.pieces_partPacket, List.map_cons, List.map_nil, List.cons_append, List.nil_append,
        joinPieces, List.isEmpty_cons, Bool.not_false, if_true, Bool.false_eq_true, if_false,
        List.length_cons, Group.length_continuationPackets, List.range'_succ]
      simp only [List.nil_append, joined, List.length_cons, List.range'_succ] at found
      exact found

/-- The packets of groups tell the units of all of them, by induction on the groups. -/
theorem joinPieces_flatMap_packets {mtu : Nat} (room : 2 ≤ mtu) {groups : List Group}
    (fits : ∀ group ∈ groups, group.Fits mtu) (start : Nat)
    : joinPieces ([], []) (numberedPieces start (groups.flatMap (Group.packets mtu)))
      = (carriageFrom mtu start groups).map fun entry => (entry.1.bareBytes, entry.2) := by
  induction groups generalizing start with
  | nil => rfl
  | cons group groups ih =>
      have later := ih (fun next member => fits next (List.mem_cons_of_mem _ member))
        (start + (group.packets mtu).length)
      rw [List.flatMap_cons, numberedPieces_append,
        joinPieces_packets room (fits group List.mem_cons_self), later, carriageFrom,
        List.map_append, List.map_map]
      rfl

/-- The packets of a frame tell the units that are sent, in the packets listed for them. -/
theorem elementSpans_packetize {mtu : Nat} (room : 2 ≤ mtu) (frame : Bytes)
    : elementSpans (packetize mtu frame).packets
      = (carriage mtu frame).map fun entry => (entry.1.bareBytes, entry.2) := by
  rw [packets_packetize room]
  exact joinPieces_flatMap_packets room (fun _ member => fits_of_mem_groups room member) 0

end Av1Transport.Aggregation
