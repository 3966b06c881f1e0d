import Av1Transport.Proofs.Aggregation.Carriage
import Av1Transport.Proofs.Aggregation.GroupBoundaries

/-! Which units share a packet.
Main statement: a unit goes into the packet of the unit sent before it exactly when no temporal
delimiter stands between them, it opens no coded video sequence, it is of the same layer, neither of
the two is cut, and the packet has room for it.
-/

namespace Av1Transport.Aggregation

open Grouping

-----------------------------------------------------------------------------------------
-- What is meant
-----------------------------------------------------------------------------------------

/-- One packet carries something of both units. -/
def Together (one other : Obu × List Nat) : Prop :=
  ∃ number ∈ one.2, number ∈ other.2

instance (one other : Obu × List Nat) : Decidable (Together one other) :=
  inferInstanceAs (Decidable (∃ number ∈ one.2, number ∈ other.2))

/-- The units among `entries` that are in the packet of `entry`. -/
def unitsWith (entries : List (Obu × List Nat)) (entry : Obu × List Nat) : List Obu :=
  (entries.filter fun other => Together other entry).map Prod.fst

/-- The unit `next` may go into the packet of `last`, which holds the units `held` in front of
`last`; the units `between` the two are not sent. The packet would be one that holds these units,
`last` and `next`.
-/
structure MayJoin (mtu : Nat) (held : List Obu) (last next : Obu) (between : List Obu) : Prop where
  undelimited : ∀ obu ∈ between, obu.header.kind ≠ .temporalDelimiter
  ordinary : next.header.kind ≠ .sequenceHeader
  layer : last.header.layer = next.header.layer
  whole : last.bareLength ≤ mtu - 1 ∧ next.bareLength ≤ mtu - 1
  fits : (Bundle.packet (held ++ [last, next])).toBytes.length ≤ mtu

-----------------------------------------------------------------------------------------
-- Numbers of packets
-----------------------------------------------------------------------------------------

/-- The number of packets that carry the groups. -/
def packetCount (mtu : Nat) (groups : List Group) : Nat :=
  (groups.flatMap (Group.packets mtu)).length

theorem packetCount_cons (mtu : Nat) (group : Group) (groups : List Group)
    : packetCount mtu (group :: groups) = (group.packets mtu).length + packetCount mtu groups := by
  rw [packetCount, List.flatMap_cons, List.length_append, packetCount]

variable {mtu start : Nat}

theorem carriageFrom_append (mtu start : Nat) (groups more : List Group)
    : carriageFrom mtu start (groups ++ more)
      = carriageFrom mtu start groups
        ++ carriageFrom mtu (start + packetCount mtu groups) more := by
  induction groups generalizing start with
  | nil => rfl
  | cons group groups ih =>
      simp only [List.cons_append, carriageFrom, ih, packetCount_cons, List.append_assoc,
        Nat.add_assoc]

/-- The numbers of groups lie between those of the groups around them, by induction on the
groups.
-/
theorem bounds_of_mem_carriageFrom {groups : List Group} {entry : Obu × List Nat}
    (member : entry ∈ carriageFrom mtu start groups) {number : Nat} (carries : number ∈ entry.2)
    : start ≤ number ∧ number < start + packetCount mtu groups := by
  induction groups generalizing start with
  | nil => cases member
  | cons group groups ih =>
      rw [packetCount_cons]
      rcases List.mem_append.mp member with here | later
      · obtain ⟨obu, _, rfl⟩ := List.mem_map.mp here
        have range := List.mem_range'_1.mp carries
        omega
      · have range := ih later
        omega

/-- Units of groups that follow each other are not together. -/
theorem not_together_of_append {groups more : List Group} {one other : Obu × List Nat}
    (first : one ∈ carriageFrom mtu start groups)
    (second : other ∈ carriageFrom mtu (start + packetCount mtu groups) more)
    : ¬ Together one other := by
  rintro ⟨number, carried, also⟩
  have before := bounds_of_mem_carriageFrom first carried
  have behind := bounds_of_mem_carriageFrom second also
  omega

/-- Units that are together are of one group, by induction on the groups. -/
theorem exists_group_of_together {groups : List Group} {one other : Obu × List Nat}
    (first : one ∈ carriageFrom mtu start groups)
    (second : other ∈ carriageFrom mtu start groups) (together : Together one other)
    : ∃ group ∈ groups, one.1 ∈ group.obus ∧ other.1 ∈ group.obus := by
  induction groups generalizing start with
  | nil => cases first
  | cons group groups ih =>
      obtain ⟨number, carried, also⟩ := together
      rcases List.mem_append.mp first with here | later
      · obtain ⟨obu, unit, rfl⟩ := List.mem_map.mp here
        have range := List.mem_range'_1.mp carried
        rcases List.mem_append.mp second with alsoHere | alsoLater
        · obtain ⟨mate, mateUnit, rfl⟩ := List.mem_map.mp alsoHere
          exact ⟨group, List.mem_cons_self, unit, mateUnit⟩
        · have behind := bounds_of_mem_carriageFrom alsoLater also
          omega
      · have behind := bounds_of_mem_carriageFrom later carried
        rcases List.mem_append.mp second with alsoHere | alsoLater
        · obtain ⟨mate, _, rfl⟩ := List.mem_map.mp alsoHere
          have range := List.mem_range'_1.mp also
          omega
        · obtain ⟨next, listed, units⟩ := ih later alsoLater
          exact ⟨next, List.mem_cons_of_mem _ listed, units⟩

-----------------------------------------------------------------------------------------
-- Units of one packet
-----------------------------------------------------------------------------------------

theorem Group.Uniform.layer_eq {group : Group} (uniform : group.Uniform) {one other : Obu}
    (first : one ∈ group.obus) (second : other ∈ group.obus)
    : one.header.layer = other.header.layer := by
  cases group with
  | bundle obus =>
      obtain ⟨head, later, rfl⟩ := List.exists_cons_of_ne_nil (List.ne_nil_of_mem first)
      have leads {obu : Obu} (member : obu ∈ head :: later)
          : obu.header.layer = head.header.layer := by
        rcases List.mem_cons.mp member with same | member
        · rw [same]
        · exact (uniform head later rfl obu member).2
      rw [leads first, leads second]
  | fragments obu =>
      rw [List.mem_singleton.mp first, List.mem_singleton.mp second]

theorem layer_eq_of_together (room : 2 ≤ mtu) {frame : Bytes} {one other : Obu × List Nat}
    (first : one ∈ carriage mtu frame) (second : other ∈ carriage mtu frame)
    (together : Together one other)
    : one.1.header.layer = other.1.header.layer := by
  obtain ⟨group, listed, unit, mate⟩ := exists_group_of_together first second together
  exact ((Group.kept_uniform mtu).of_mem_groups room listed).layer_eq unit mate

/-- Where the groups part, the list parts, and no unit in front is together with one behind. -/
theorem parted_of_groups_append (room : 2 ≤ mtu) {frame : Bytes} {front back : List Obu}
    (stream : (Obu.split frame).values = front ++ back)
    (parts : groups mtu (front ++ back) = groups mtu front ++ groups mtu back)
    : ∃ earlier later,
        carriage mtu frame = earlier ++ later
        ∧ earlier.map Prod.fst = front.filter Obu.isTransmitted
        ∧ later.map Prod.fst = back.filter Obu.isTransmitted
        ∧ ∀ one ∈ earlier, ∀ other ∈ later, ¬ Together one other := by
  refine ⟨carriageFrom mtu 0 (groups mtu front), carriageFrom mtu _ (groups mtu back), ?_, ?_, ?_,
    fun _ first _ second => not_together_of_append first second⟩
  · rw [carriage, stream, parts, carriageFrom_append]
  · rw [map_fst_carriageFrom, flatMap_obus_groups room]
  · rw [map_fst_carriageFrom, flatMap_obus_groups room]

/-- A temporal delimiter parts the units in front of it from those behind it. -/
theorem parted_of_delimiter (room : 2 ≤ mtu) {frame : Bytes} {before after : List Obu}
    {delimiter : Obu} (stream : (Obu.split frame).values = before ++ delimiter :: after)
    (kind : delimiter.header.kind = .temporalDelimiter)
    : ∃ earlier later,
        carriage mtu frame = earlier ++ later
        ∧ earlier.map Prod.fst = before.filter Obu.isTransmitted
        ∧ ∀ one ∈ earlier, ∀ other ∈ later, ¬ Together one other := by
  obtain ⟨earlier, later, listed, units, _, apart⟩ :=
    parted_of_groups_append room stream (groups_append_of_add_close (add_close_of_delimiter kind))
  exact ⟨earlier, later, listed, units, apart⟩

-----------------------------------------------------------------------------------------
-- Neighbours
-----------------------------------------------------------------------------------------

section Neighbours

variable {frame : Bytes} {before between after : List Obu} {last next : Obu}

/-- Neighbours whose groups part are not together. -/
theorem neighbours_of_parted (room : 2 ≤ mtu) {front : List Obu}
    (stream : (Obu.split frame).values = front ++ next :: after)
    (parts : groups mtu (front ++ next :: after) = groups mtu front ++ groups mtu (next :: after))
    (ends : front.filter Obu.isTransmitted = before ++ [last])
    (sent : next.isTransmitted = true)
    : ∃ earlier numbers others later,
        carriage mtu frame = earlier ++ (last, numbers) :: (next, others) :: later
        ∧ earlier.map Prod.fst = before
        ∧ ¬ Together (last, numbers) (next, others) := by
  obtain ⟨firsts, seconds, listed, units, behind, apart⟩ :=
    parted_of_groups_append room stream parts
  rw [ends] at units
  rw [List.filter_cons_of_pos sent] at behind
  obtain ⟨earlier, tail, rfl, front, single⟩ := List.map_eq_append_iff.mp units
  obtain ⟨⟨_, numbers⟩, none, rfl, rfl, empty⟩ := List.map_eq_cons_iff.mp single
  obtain ⟨⟨_, others⟩, later, rfl, rfl, _⟩ := List.map_eq_cons_iff.mp behind
  obtain rfl := List.map_eq_nil_iff.mp empty
  refine ⟨earlier, numbers, others, later, ?_, front, ?_⟩
  · rw [listed, List.append_assoc]
    rfl
  · exact apart _ (by simp) _ List.mem_cons_self

/-- Of the units in front of one that is not cut, those in its packet are those of its bundle. -/
theorem unitsWith_bundle (closed : List Group) (held : List Obu) (last : Obu)
    : unitsWith
          (carriageFrom mtu 0 closed ++ held.map fun obu => (obu, [packetCount mtu closed]))
          (last, [packetCount mtu closed])
        = held := by
  have others
      : (carriageFrom mtu 0 closed).filter
            (fun other => Together other (last, [packetCount mtu closed]))
          = [] := by
    rw [List.filter_eq_nil_iff]
    intro entry member together
    obtain ⟨number, carried, also⟩ := of_decide_eq_true together
    have bounds := bounds_of_mem_carriageFrom member carried
    rw [List.mem_singleton.mp also] at bounds
    omega
  have mates
      : (held.map fun obu => (obu, [packetCount mtu closed])).filter
            (fun other => Together other (last, [packetCount mtu closed]))
          = held.map fun obu => (obu, [packetCount mtu closed]) := by
    rw [List.filter_eq_self]
    intro entry member
    obtain ⟨obu, _, rfl⟩ := List.mem_map.mp member
    exact decide_eq_true ⟨_, List.mem_singleton_self _, List.mem_singleton_self _⟩
  rw [unitsWith, List.filter_append, others, mates, List.nil_append, List.map_map]
  exact List.map_id held

/-- The units of a bundle are listed with the one number of its packet, behind those of the groups
closed before.
-/
theorem neighbours_of_bundle {closed rest : List Group} {held more : List Obu} {others : List Nat}
    {later : List (Obu × List Nat)}
    (packed
      : groups mtu (Obu.split frame).values = closed ++ .bundle (held ++ last :: more) :: rest)
    (follows
      : (more.map fun obu => (obu, [packetCount mtu closed]))
          ++ carriageFrom mtu (packetCount mtu closed + 1) rest
        = (next, others) :: later)
    : ∃ earlier,
        carriage mtu frame
          = earlier ++ (last, [packetCount mtu closed]) :: (next, others) :: later
        ∧ earlier.map Prod.fst = closed.flatMap Group.obus ++ held
        ∧ unitsWith earlier (last, [packetCount mtu closed]) = held := by
  refine ⟨_, ?_, ?_, unitsWith_bundle closed held last⟩
  · have bundle
        : carriageFrom mtu (packetCount mtu closed) (.bundle (held ++ last :: more) :: rest)
          = (held.map fun obu => (obu, [packetCount mtu closed]))
            ++ (last, [packetCount mtu closed]) :: (next, others) :: later := by
      rw [← follows, carriageFrom, Group.obus, List.map_append, List.append_assoc]
      rfl
    rw [carriage, packed, carriageFrom_append, Nat.zero_add, bundle, List.append_assoc]
  · rw [List.map_append, map_fst_carriageFrom, List.map_map]
    exact congrArg _ (List.map_id held)

/-- What the bundle admits is what may join its last unit. -/
theorem mayJoin_iff_admits {bundle : Bundle} {held : List Obu} (next : Obu)
    (uniform : (Group.bundle bundle.obus.toList).Uniform)
    (waits : bundle.obus.toList = held ++ [last]) (short : ¬ mtu - 1 < last.bareLength)
    (undelimited : ∀ obu ∈ between, obu.header.kind ≠ .temporalDelimiter)
    : MayJoin mtu held last next between
      ↔ ¬ mtu - 1 < next.bareLength ∧ bundle.admits mtu next = true := by
  have layer : bundle.layer? = some last.header.layer := by
    obtain ⟨head, rest, leads⟩ :=
      List.exists_cons_of_ne_nil (show bundle.obus.toList ≠ [] by simp [waits])
    have same := uniform.layer_eq (show head ∈ bundle.obus.toList by simp [leads])
      (show last ∈ bundle.obus.toList by simp [waits])
    rw [Bundle.layer?_eq, leads, List.head?_cons, Option.map_some, same]
  have length
      : bundle.lengthWith next = (Bundle.packet (held ++ [last, next])).toBytes.length := by
    rw [bundle.lengthWith_eq next (Bundle.startsSequence (held ++ [last, next])),
      Bundle.toList_push, waits, List.append_assoc]
    rfl
  rw [Bundle.admits_iff, layer, length]
  constructor
  · intro mayJoin
    exact ⟨Nat.not_lt.mpr mayJoin.whole.2, mayJoin.ordinary, congrArg some mayJoin.layer,
      mayJoin.fits⟩
  · rintro ⟨alsoShort, ordinary, same, fits⟩
    exact ⟨undelimited, ordinary, Option.some.inj same,
      ⟨Nat.not_lt.mp short, Nat.not_lt.mp alsoShort⟩, fits⟩

/-- Behind a unit that is sent and others that are not, either that unit is the last one of a bundle
that waits, or no bundle waits and nothing may join the unit.
-/
theorem waits_or_closed (mtu : Nat) (grouping : Grouping) (next : Obu)
    (sent : last.isTransmitted = true)
    (dropped : ∀ obu ∈ between, obu.isTransmitted = false)
    : (((last :: between).foldl (add mtu) grouping).current.obus.toList = []
        ∧ ∀ held, ¬ MayJoin mtu held last next between)
      ∨ ((∀ obu ∈ between, obu.header.kind ≠ .temporalDelimiter)
        ∧ ¬ mtu - 1 < last.bareLength
        ∧ ∃ held,
            ((last :: between).foldl (add mtu) grouping).current.obus.toList
              = held ++ [last]) := by
  rw [List.foldl_cons]
  rcases foldl_add_of_not_isTransmitted dropped (add mtu grouping last) with
    ⟨undelimited, run⟩ | ⟨⟨delimiter, member, kind⟩, run⟩
  · rw [run]
    rcases current_add_of_isTransmitted mtu grouping sent with
      ⟨long, empty⟩ | ⟨short, held, waits⟩
    · refine .inl ⟨empty, ?_⟩
      intro held mayJoin
      exact absurd mayJoin.whole.1 (Nat.not_le.mpr long)
    · exact .inr ⟨undelimited, short, held, waits⟩
  · rw [run]
    refine .inl ⟨current_close _, ?_⟩
    intro held mayJoin
    exact mayJoin.undelimited delimiter member kind

/-- A unit that the bundle admits is in the packet of the last unit of the bundle. Witness: the
bundle with both becomes a group.
-/
theorem neighbours_of_admitted {front held : List Obu} {grouping : Grouping}
    (run : front.foldl (add mtu) .start = grouping)
    (stream : (Obu.split frame).values = front ++ next :: after) (sent : next.isTransmitted = true)
    (waits : grouping.current.obus.toList = held ++ [last]) (short : ¬ mtu - 1 < next.bareLength)
    (admitted : grouping.current.admits mtu next = true)
    : ∃ earlier numbers others later,
        carriage mtu frame = earlier ++ (last, numbers) :: (next, others) :: later
        ∧ earlier.map Prod.fst = grouping.closed.toList.flatMap Group.obus ++ held
        ∧ unitsWith earlier (last, numbers) = held
        ∧ Together (last, numbers) (next, others) := by
  obtain ⟨more, rest, behind⟩ := exists_bundle_of_groupsFrom
    (show (grouping.current.push next).obus.toList ≠ [] by simp) after
  have packed
      : groups mtu (Obu.split frame).values
        = grouping.closed.toList ++ .bundle (held ++ last :: next :: more) :: rest := by
    rw [Bundle.toList_push, waits, List.append_assoc, List.append_assoc] at behind
    rw [stream, groups, List.foldl_append, run, List.foldl_cons, add_of_isTransmitted sent,
      if_neg short, if_pos admitted, groups_foldl_add, join]
    exact congrArg _ behind
  obtain ⟨earlier, listed, units, mates⟩ := neighbours_of_bundle packed rfl
  exact ⟨earlier, _, _, _, listed, units, mates,
    _, List.mem_singleton_self _, List.mem_singleton_self _⟩

/-- A unit before which the bundle may as well be closed is not in the packet of the last unit of the
bundle. Witness: the bundle becomes a group without it.
-/
theorem neighbours_of_closed (room : 2 ≤ mtu) {front held : List Obu} {grouping : Grouping}
    (run : front.foldl (add mtu) .start = grouping)
    (stream : (Obu.split frame).values = front ++ next :: after) (sent : next.isTransmitted = true)
    (waits : grouping.current.obus.toList = held ++ [last])
    (parts : add mtu grouping next = add mtu grouping.close next)
    : ∃ earlier numbers others later,
        carriage mtu frame = earlier ++ (last, numbers) :: (next, others) :: later
        ∧ earlier.map Prod.fst = grouping.closed.toList.flatMap Group.obus ++ held
        ∧ unitsWith earlier (last, numbers) = held
        ∧ ¬ Together (last, numbers) (next, others) := by
  have packed
      : groups mtu (Obu.split frame).values
        = grouping.closed.toList ++ .bundle (held ++ [last]) :: groups mtu (next :: after) := by
    rw [stream, groups_append_of_add_close (run ▸ parts), groups, run, Grouping.groups,
      close_of_present (by simp [waits]), Array.toList_push, waits, List.append_assoc]
    rfl
  have behind
      : (groups mtu (next :: after)).flatMap Group.obus
        = next :: after.filter Obu.isTransmitted := by
    rw [flatMap_obus_groups room, List.filter_cons_of_pos sent]
  rw [← map_fst_carriageFrom mtu (packetCount mtu grouping.closed.toList + 1)] at behind
  obtain ⟨⟨_, others⟩, later, follows, rfl, _⟩ := List.map_eq_cons_iff.mp behind
  obtain ⟨earlier, listed, units, mates⟩ := neighbours_of_bundle packed follows
  refine ⟨earlier, _, _, _, listed, units, mates, ?_⟩
  rintro ⟨number, carried, also⟩
  have bounds := bounds_of_mem_carriageFrom (follows ▸ List.mem_cons_self) also
  rw [List.mem_singleton.mp carried] at bounds
  omega

/-- Of two units that are sent one after the other, the list tells the packets, and that they share
one exactly when the second may join the first. Witness: the bundle that waits in front of the
second unit, by cases on what becomes of it.
-/
theorem exists_neighbours (room : 2 ≤ mtu)
    (stream : (Obu.split frame).values = before ++ last :: (between ++ next :: after))
    (sentLast : last.isTransmitted = true) (sentNext : next.isTransmitted = true)
    (dropped : ∀ obu ∈ between, obu.isTransmitted = false)
    : ∃ earlier numbers others later,
        carriage mtu frame = earlier ++ (last, numbers) :: (next, others) :: later
        ∧ earlier.map Prod.fst = before.filter Obu.isTransmitted
        ∧ (Together (last, numbers) (next, others)
          ↔ MayJoin mtu (unitsWith earlier (last, numbers)) last next between) := by
  have whole
      : (Obu.split frame).values = (before ++ last :: between) ++ next :: after := by
    rw [stream, List.append_assoc]
    rfl
  have ends
      : (before ++ last :: between).filter Obu.isTransmitted
        = before.filter Obu.isTransmitted ++ [last] := by
    have none : between.filter Obu.isTransmitted = [] :=
      List.filter_eq_nil_iff.mpr (fun obu member => by simp [dropped obu member])
    rw [List.filter_append, List.filter_cons_of_pos sentLast, none]
  have sound := (sound_start Group.Uniform).foldl_add (Group.kept_uniform mtu) room
    (before ++ last :: between)
  have position := waits_or_closed mtu (before.foldl (add mtu) .start) next sentLast dropped
  rw [← List.foldl_append] at position
  generalize run : (before ++ last :: between).foldl (add mtu) .start = grouping
    at sound position
  rcases position with ⟨empty, never⟩ | ⟨undelimited, short, held, waits⟩
  · have parts : add mtu grouping next = add mtu grouping.close next := by
      rw [close_of_empty empty]
    obtain ⟨earlier, numbers, others, later, listed, units, alone⟩ :=
      neighbours_of_parted room whole (groups_append_of_add_close (run ▸ parts)) ends sentNext
    exact ⟨earlier, numbers, others, later, listed, units, iff_of_false alone (never _)⟩
  · have order
        : grouping.closed.toList.flatMap Group.obus ++ held
          = before.filter Obu.isTransmitted := by
      have order := sound.order
      rw [waits, ends, List.nil_append, ← List.append_assoc] at order
      exact List.append_cancel_right order
    have uniform := sound.current.resolve_left (by simp [waits])
    have exactly := mayJoin_iff_admits next uniform waits short undelimited
    by_cases joins : ¬ mtu - 1 < next.bareLength ∧ grouping.current.admits mtu next = true
    · obtain ⟨earlier, numbers, others, later, listed, units, mates, together⟩ :=
        neighbours_of_admitted run whole sentNext waits joins.1 joins.2
      refine ⟨earlier, numbers, others, later, listed, units.trans order, ?_⟩
      rw [mates, exactly]
      exact iff_of_true together joins
    · have parts : add mtu grouping next = add mtu grouping.close next := by
        by_cases long : mtu - 1 < next.bareLength
        · exact add_close_of_long sentNext long
        · exact add_close_of_isTransmitted sentNext
            (Bool.eq_false_iff.mpr fun admitted => joins ⟨long, admitted⟩)
      obtain ⟨earlier, numbers, others, later, listed, units, mates, apart⟩ :=
        neighbours_of_closed room run whole sentNext waits parts
      refine ⟨earlier, numbers, others, later, listed, units.trans order, ?_⟩
      rw [mates, exactly]
      exact iff_of_false apart joins

end Neighbours

-----------------------------------------------------------------------------------------
-- The packets of a frame
-----------------------------------------------------------------------------------------

/-- Which units of a frame share a packet. The packets tell the units that are sent, in stream order,
and the numbers of the packets that each of them is in. By these numbers, of two units sent one after
the other the second is in a packet of the first exactly when it may join it; units that share a
packet are of one layer; and no packet has units from both sides of a temporal delimiter. The packet
that a unit would be the last of has one byte for its header and, for each element, its length and
its bytes, but for the length of the last one where the header can count the elements.
-/
theorem sharing_packetize (room : 2 ≤ mtu) (frame : Bytes)
    : elementSpans (packetize mtu frame).packets
        = (carriage mtu frame).map (fun entry => (entry.1.bareBytes, entry.2))
      ∧ (carriage mtu frame).map Prod.fst = (Obu.split frame).values.filter Obu.isTransmitted
      ∧ (∀ before last between next after,
          (Obu.split frame).values = before ++ last :: (between ++ next :: after)
          → last.isTransmitted = true
          → next.isTransmitted = true
          → (∀ obu ∈ between, obu.isTransmitted = false)
          → ∃ earlier numbers others later,
              carriage mtu frame = earlier ++ (last, numbers) :: (next, others) :: later
              ∧ earlier.map Prod.fst = before.filter Obu.isTransmitted
              ∧ (Together (last, numbers) (next, others)
                ↔ MayJoin mtu (unitsWith earlier (last, numbers)) last next between))
      ∧ (∀ obus last,
          (Bundle.packet (obus ++ [last])).toBytes.length
          = 1 + elementsLength obus
            + (if obus.length + 1 ≤ 3 then 0 else Leb128.size last.bareLength)
            + last.bareLength)
      ∧ (∀ one ∈ carriage mtu frame,
          ∀ other ∈ carriage mtu frame,
            Together one other → one.1.header.layer = other.1.header.layer)
      ∧ ∀ before delimiter after,
          (Obu.split frame).values = before ++ delimiter :: after
          → delimiter.header.kind = .temporalDelimiter
          → ∃ earlier later,
              carriage mtu frame = earlier ++ later
              ∧ earlier.map Prod.fst = before.filter Obu.isTransmitted
              ∧ ∀ one ∈ earlier, ∀ other ∈ later, ¬ Together one other := by
  refine ⟨elementSpans_packetize room frame, map_fst_carriage room frame, ?_, ?_, ?_, ?_⟩
  · intro before last between next after stream sentLast sentNext dropped
    exact exists_neighbours room stream sentLast sentNext dropped
  · intro obus last
    rw [Bundle.length_toBytes_packet, Bundle.packetLength, maxCount, elementLength]
    split <;> omega
  · intro one first other second
    exact layer_eq_of_together room first second
  · intro before delimiter after stream kind
    exact parted_of_delimiter room stream kind

/-- A temporal delimiter with its size. -/
def sizedDelimiter : Obu :=
  ⟨⟨.temporalDelimiter, none, true, false⟩, []⟩

/-- Two frames, a temporal delimiter and an empty frame. -/
def delimitedFrames : Bytes :=
  [0x32, 2, 1, 2, 0x32, 2, 3, 4, 0x12, 0, 0x32, 0]

/-- The two frames share a packet of eight bytes. The empty one would make it one of ten, but the
temporal delimiter stands in front of it.
-/
theorem sharing_packetize_delimited
    : elementSpans (packetize 10 delimitedFrames).packets
        = [([0x30, 1, 2], [0]), ([0x30, 3, 4], [0]), ([0x30], [1])]
      ∧ MayJoin 10 [] (sizedFrame [1, 2]) (sizedFrame [3, 4]) []
      ∧ ∃ earlier later,
          carriage 10 delimitedFrames = earlier ++ later
          ∧ earlier.map Prod.fst = [sizedFrame [1, 2], sizedFrame [3, 4]]
          ∧ ∀ one ∈ earlier, ∀ other ∈ later, ¬ Together one other := by
  obtain ⟨_, _, share, _, _, part⟩ := sharing_packetize (show 2 ≤ 10 by decide) delimitedFrames
  refine ⟨by decide +kernel, ?_, ?_⟩
  · have listed
        : carriage 10 delimitedFrames
          = [(sizedFrame [1, 2], [0]), (sizedFrame [3, 4], [0]), (sizedFrame [], [1])] := by
      decide +kernel
    obtain ⟨earlier, numbers, others, later, found, front, shared⟩ :=
      share [] (sizedFrame [1, 2]) [] (sizedFrame [3, 4]) [sizedDelimiter, sizedFrame []]
        (by decide +kernel) rfl rfl (by simp)
    obtain rfl := List.map_eq_nil_iff.mp front
    rw [listed] at found
    obtain ⟨⟨_, rfl⟩, ⟨_, rfl⟩, _⟩ := by simpa using found
    exact shared.mp (by decide)
  · exact part [sizedFrame [1, 2], sizedFrame [3, 4]] sizedDelimiter [sizedFrame []]
      (by decide +kernel) rfl

end Av1Transport.Aggregation
