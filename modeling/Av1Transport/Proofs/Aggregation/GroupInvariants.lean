import Av1Transport.Aggregation.Group
import Av1Transport.Proofs.Aggregation.WrittenPackets

/-! What holds of the groups of any run of units.
Main statements: a packet of whole units is as long as its bundle foretold, what grouping keeps
holds of every group, and the groups hold the units that are sent, in order.
-/

namespace Av1Transport.Aggregation

-----------------------------------------------------------------------------------------
-- Packets of whole units
-----------------------------------------------------------------------------------------

namespace Bundle

@[simp]
theorem toList_push (bundle : Bundle) (obu : Obu)
    : (bundle.push obu).obus.toList = bundle.obus.toList ++ [obu] := by
  rw [push, Array.toList_push]

/-- A bundle without units is the empty one, as its length is that of its units. -/
theorem eq_empty {bundle : Bundle} (none : bundle.obus.toList = []) : bundle = empty := by
  obtain ⟨obus, prefixedLength, prefixedLength_eq⟩ := bundle
  obtain rfl : obus = #[] := Array.toList_eq_nil_iff.mp none
  obtain rfl : prefixedLength = 0 := prefixedLength_eq
  rfl

theorem layer?_eq (bundle : Bundle)
    : bundle.layer? = bundle.obus.toList.head?.map fun obu => obu.header.layer := by
  rw [layer?, ← Array.getElem?_toList, List.head?_eq_getElem?]

theorem count_packetWith (startsSequence : Bool) (obus : List Obu)
    : (packetWith startsSequence obus).header.count.toNat
      = if obus.length ≤ maxCount then obus.length else 0 := by
  unfold packetWith
  split
  next countable =>
    simp only [maxCount] at countable
    simp only [UInt8.toNat_ofNat']
    omega
  · rfl

theorem count_packet_le (obus : List Obu) : (packet obus).header.count.toNat ≤ maxCount := by
  rw [packet, count_packetWith]
  split
  next countable => exact countable
  next => exact Nat.zero_le _

/-- A packet of one unit more than some is as long as foretold. Witness: all elements but a last
one that the header can count have their length in front.
-/
theorem length_toBytes_packetWith (startsSequence : Bool) (obus : List Obu) (last : Obu)
    : (packetWith startsSequence (obus ++ [last])).toBytes.length
      = packetLength (elementsLength obus + elementLength last)
          (obus.length + 1) last.bareLength := by
  have lengths
      : ((obus.map Obu.bareBytes).flatMap withLength).length
        = elementsLength obus := by
    rw [List.flatMap_map, List.length_flatMap, elementsLength]
    exact congrArg List.sum (List.map_congr_left (fun obu _ => by simp [elementLength]))
  have count := count_packetWith startsSequence (obus ++ [last])
  simp only [List.length_append, List.length_singleton] at count
  rw [Packet.toBytes_eq, Packet.body, packetLength, List.length_cons]
  by_cases countable : obus.length + 1 ≤ maxCount
  · rw [if_pos countable] at count
    rw [if_pos countable,
      if_neg (by simp only [← UInt8.toNat_inj, count, UInt8.toNat_zero]; omega)]
    simp only [packetWith, List.map_append, List.map_cons, List.map_nil, List.dropLast_concat,
      List.getLast?_concat, Option.getD_some, List.length_append, lengths,
      Obu.length_bareBytes, elementLength]
    omega
  · rw [if_neg countable] at count
    rw [if_neg countable, if_pos (UInt8.toNat_inj.mp count)]
    simp only [packetWith, List.map_append, List.map_cons, List.map_nil, List.flatMap_append,
      List.flatMap_cons, List.flatMap_nil, List.append_nil, List.length_append, lengths,
      length_withLength, Obu.length_bareBytes, elementLength]
    omega

theorem length_toBytes_packet (obus : List Obu) (last : Obu)
    : (packet (obus ++ [last])).toBytes.length
      = packetLength (elementsLength obus + elementLength last)
          (obus.length + 1) last.bareLength :=
  length_toBytes_packetWith _ obus last

/-- The length that a bundle foretells with one more unit is that of the packet it then makes. -/
theorem lengthWith_eq (bundle : Bundle) (obu : Obu) (startsSequence : Bool)
    : bundle.lengthWith obu
      = (packetWith startsSequence (bundle.push obu).obus.toList).toBytes.length := by
  rw [toList_push, length_toBytes_packetWith, ← bundle.prefixedLength_eq, Array.length_toList]
  rfl

/-- The length that a bundle foretells is that of the packet it makes. Witness: its last unit is
the one more that the units before it were to be packed with.
-/
theorem length?_eq {bundle : Bundle} (present : bundle.obus.toList ≠ []) (startsSequence : Bool)
    : bundle.length?
      = some (packetWith startsSequence bundle.obus.toList).toBytes.length := by
  obtain ⟨front, last, waiting⟩ : ∃ front last, bundle.obus.toList = front ++ [last] :=
    ⟨_, _, (List.dropLast_concat_getLast present).symm⟩
  have prefixed := bundle.prefixedLength_eq
  have size := congrArg List.length waiting
  rw [waiting, elementsLength_append, elementsLength_singleton] at prefixed
  rw [Array.length_toList, List.length_append, List.length_singleton] at size
  rw [length?, ← Array.getLast?_toList, waiting, List.getLast?_concat, Option.map_some,
    length_toBytes_packetWith, prefixed, size]

theorem admits_iff {mtu : Nat} {bundle : Bundle} {obu : Obu}
    : bundle.admits mtu obu = true
      ↔ obu.header.kind ≠ .sequenceHeader
        ∧ bundle.layer? = some obu.header.layer
        ∧ bundle.lengthWith obu ≤ mtu := by
  simp [admits, and_assoc]

theorem admits_of_sequenceHeader {mtu : Nat} {bundle : Bundle} {obu : Obu}
    (opening : obu.header.kind = .sequenceHeader)
    : bundle.admits mtu obu = false := by
  simp [admits, opening]

/-- A bundle without units admits none, as it has no layer. -/
theorem ne_nil_of_admits {mtu : Nat} {bundle : Bundle} {obu : Obu}
    (admitted : bundle.admits mtu obu = true)
    : bundle.obus.toList ≠ [] := by
  rintro empty
  have layer := (admits_iff.mp admitted).2.1
  rw [layer?_eq, empty] at layer
  cases layer

/-- What a bundle subtracts is part of its length. -/
theorem size_le_prefixedLength {bundle : Bundle} {obu : Obu}
    (member : obu ∈ bundle.obus.toList)
    : Leb128.size obu.bareLength ≤ bundle.prefixedLength := by
  obtain ⟨front, back, split⟩ := List.append_of_mem member
  rw [bundle.prefixedLength_eq, split, List.append_cons, elementsLength_append,
    elementsLength_append, elementsLength_singleton, elementLength]
  omega

theorem writable_packet {obus : List Obu} (present : obus ≠ [])
    (addressable : ∀ obu ∈ obus, obu.bareLength < UInt64.size)
    : (packet obus).Writable where
  nonempty := by simpa [packet, packetWith] using present
  present := by
    intro element member
    obtain ⟨obu, _, rfl⟩ := List.mem_map.mp member
    exact List.ne_nil_of_length_pos (by simpa using obu.bareLength_pos)
  addressable := by
    intro element member
    obtain ⟨obu, unit, rfl⟩ := List.mem_map.mp member
    simpa using addressable obu unit
  countable := count_packet_le obus
  counted := by
    have count := count_packetWith (startsSequence obus) obus
    split at count
    · exact Or.inr (by simpa [packet, packetWith] using count)
    · exact Or.inl (UInt8.toNat_inj.mp count)

end Bundle

-----------------------------------------------------------------------------------------
-- Groups that fit their packets
-----------------------------------------------------------------------------------------

/-- The group is sent as it should be: whole units, at least one, in a packet that they do not
overfill, or a unit cut that would overfill its packet.
-/
def Group.Fits (mtu : Nat) : Group → Prop
  | .bundle obus =>
      obus ≠ []
      ∧ (∀ obu ∈ obus, obu.bareLength < mtu)
      ∧ (Bundle.packet obus).toBytes.length ≤ mtu
  | .fragments obu => mtu ≤ obu.bareLength

/-- A unit that leaves room for the header fits a packet of its own. -/
theorem Group.fits_single {mtu : Nat} {obu : Obu} (short : obu.bareLength < mtu)
    : (Group.bundle [obu]).Fits mtu := by
  have length := Bundle.length_toBytes_packet [] obu
  rw [elementsLength_nil, Bundle.packetLength, elementLength] at length
  refine ⟨by simp, by simpa using short, ?_⟩
  rw [List.nil_append] at length
  rw [length, if_pos (by decide)]
  omega

/-- A bundle may grow by what it admits: that unit is short, as the packet it makes is foretold
not to overfill.
-/
theorem Group.fits_push {mtu : Nat} {bundle : Bundle} {obu : Obu}
    (fits : (Group.bundle bundle.obus.toList).Fits mtu) (short : obu.bareLength < mtu)
    (admitted : bundle.admits mtu obu = true)
    : (Group.bundle (bundle.push obu).obus.toList).Fits mtu := by
  obtain ⟨_, _, room⟩ := Bundle.admits_iff.mp admitted
  rw [bundle.lengthWith_eq obu] at room
  refine ⟨by simp, ?_, room⟩
  intro next member
  rw [Bundle.toList_push] at member
  rcases List.mem_append.mp member with earlier | same
  · exact fits.2.1 next earlier
  · exact List.mem_singleton.mp same ▸ short

/-- The units of a bundle are of one layer, and only the first may open a coded video sequence. -/
def Group.Uniform : Group → Prop
  | .bundle obus =>
      ∀ first later,
        obus = first :: later
        → ∀ obu ∈ later,
            obu.header.kind ≠ .sequenceHeader ∧ obu.header.layer = first.header.layer
  | .fragments _ => True

theorem Group.uniform_push {mtu : Nat} {bundle : Bundle} {obu : Obu}
    (uniform : (Group.bundle bundle.obus.toList).Uniform) (admitted : bundle.admits mtu obu = true)
    : (Group.bundle (bundle.push obu).obus.toList).Uniform := by
  obtain ⟨ordinary, layer, _⟩ := Bundle.admits_iff.mp admitted
  obtain ⟨head, rest, waiting⟩ := List.exists_cons_of_ne_nil (Bundle.ne_nil_of_admits admitted)
  rw [Bundle.layer?_eq, waiting] at layer
  intro first later split next member
  rw [Bundle.toList_push, waiting, List.cons_append] at split
  obtain ⟨rfl, rfl⟩ := List.cons.inj split
  rcases List.mem_append.mp member with earlier | same
  · exact uniform head rest waiting next earlier
  · rw [List.mem_singleton.mp same]
    exact ⟨ordinary, (Option.some.inj layer).symm⟩

/-- What grouping keeps of a property of groups: it holds of every unit alone, and of a bundle with
one more unit that the bundle admits.
-/
structure Group.Kept (mtu : Nat) (holds : Group → Prop) : Prop where
  single : ∀ {obu : Obu}, obu.bareLength < mtu → holds (.bundle [obu])
  push
    : ∀ {bundle : Bundle} {obu : Obu},
        holds (.bundle bundle.obus.toList)
        → obu.bareLength < mtu
        → bundle.admits mtu obu = true
        → holds (.bundle (bundle.push obu).obus.toList)
  cut : ∀ {obu : Obu}, mtu ≤ obu.bareLength → holds (.fragments obu)

theorem Group.kept_fits (mtu : Nat) : Group.Kept mtu (Group.Fits mtu) where
  single := Group.fits_single
  push := Group.fits_push
  cut := id

theorem Group.kept_uniform (mtu : Nat) : Group.Kept mtu Group.Uniform where
  single := by
    intro obu _ first later split next member
    obtain ⟨_, rfl⟩ := List.cons.inj split
    cases member
  push := fun uniform _ admitted => Group.uniform_push uniform admitted
  cut := fun _ => trivial

namespace Grouping

/-- The property holds of the groups so far, which hold the units that were seen and are sent. -/
structure Sound (holds : Group → Prop) (grouping : Grouping) (seen : List Obu) : Prop where
  closed : ∀ group ∈ grouping.closed.toList, holds group
  current : grouping.current.obus.toList = [] ∨ holds (.bundle grouping.current.obus.toList)
  order
    : grouping.closed.toList.flatMap Group.obus ++ grouping.current.obus.toList = seen

variable {mtu : Nat} {holds : Group → Prop} {grouping : Grouping} {seen : List Obu} {obu : Obu}

theorem sound_start (holds : Group → Prop) : Sound holds start [] where
  closed := by simp [start]
  current := Or.inl rfl
  order := rfl

@[simp]
theorem current_close (grouping : Grouping) : grouping.close.current.obus.toList = [] := by
  unfold close
  split
  next empty => simpa using empty
  · rfl

/-- Closing keeps the groups sound: the bundle becomes one of them, unless it is empty. -/
theorem Sound.close (sound : Sound holds grouping seen) : Sound holds grouping.close seen := by
  unfold Grouping.close
  split
  · exact sound
  next present =>
    have nonempty : grouping.current.obus.toList ≠ [] := by simpa using present
    refine ⟨?_, Or.inl rfl, ?_⟩
    · intro group member
      simp only [Array.toList_push, List.mem_append, List.mem_singleton] at member
      rcases member with earlier | same
      · exact sound.closed group earlier
      · exact same ▸ sound.current.resolve_left nonempty
    · simpa [Bundle.empty, Group.obus] using sound.order

theorem Sound.join_empty (sound : Sound holds grouping seen) (kept : Group.Kept mtu holds)
    (empty : grouping.current.obus.toList = []) (short : obu.bareLength < mtu)
    : Sound holds (grouping.join obu) (seen ++ [obu]) where
  closed := sound.closed
  current := by
    rw [join, Bundle.toList_push, empty]
    exact Or.inr (kept.single short)
  order := by
    have order := sound.order
    rw [empty, List.append_nil] at order
    rw [join, Bundle.toList_push, empty, order, List.nil_append]

theorem Sound.join (sound : Sound holds grouping seen) (kept : Group.Kept mtu holds)
    (short : obu.bareLength < mtu) (admitted : grouping.current.admits mtu obu = true)
    : Sound holds (grouping.join obu) (seen ++ [obu]) where
  closed := sound.closed
  current :=
    Or.inr (kept.push (sound.current.resolve_left (Bundle.ne_nil_of_admits admitted)) short
      admitted)
  order := by
    rw [Grouping.join, Bundle.toList_push, ← List.append_assoc, sound.order]

theorem Sound.fragment (sound : Sound holds grouping seen) (kept : Group.Kept mtu holds)
    (empty : grouping.current.obus.toList = []) (long : mtu ≤ obu.bareLength)
    : Sound holds (grouping.fragment obu) (seen ++ [obu]) where
  closed := by
    intro group member
    simp only [Grouping.fragment, Array.toList_push, List.mem_append, List.mem_singleton]
      at member
    rcases member with earlier | same
    · exact sound.closed group earlier
    · exact same ▸ kept.cut long
  current := sound.current
  order := by
    have order := sound.order
    simp only [empty, List.append_nil] at order
    simp [Grouping.fragment, empty, order, Group.obus]

/-- What becomes of a unit that is sent: it is cut, or joins the bundle, or starts one. -/
theorem add_of_isTransmitted (transmitted : obu.isTransmitted = true)
    : add mtu grouping obu
      = if mtu - 1 < obu.bareLength then
          grouping.close.fragment obu
        else if grouping.current.admits mtu obu then
          grouping.join obu
        else
          grouping.close.join obu := by
  unfold add
  unfold Obu.isTransmitted Obu.Kind.isTransmitted at transmitted
  split at transmitted <;> simp_all

/-- What becomes of a unit that is not sent: it may close the bundle, or it is passed over. -/
theorem add_of_not_isTransmitted (dropped : obu.isTransmitted = false)
    : add mtu grouping obu = grouping.close ∨ add mtu grouping obu = grouping := by
  rcases Obu.kind_of_not_isTransmitted dropped with delimiter | tiles
  · left
    rw [add, delimiter]
  · right
    rw [add, tiles]

/-- Taking a unit keeps the groups sound, by the cases of where it goes. -/
theorem Sound.add (sound : Sound holds grouping seen) (kept : Group.Kept mtu holds)
    (room : 2 ≤ mtu) (obu : Obu)
    : Sound holds (grouping.add mtu obu) (seen ++ [obu].filter Obu.isTransmitted) := by
  cases transmitted : obu.isTransmitted with
  | false =>
      simp only [transmitted, Bool.false_eq_true, not_false_eq_true, List.filter_cons_of_neg,
        List.filter_nil, List.append_nil]
      rcases add_of_not_isTransmitted transmitted with closes | passes
      · exact closes.symm ▸ sound.close
      · exact passes.symm ▸ sound
  | true =>
      simp only [transmitted, List.filter_cons_of_pos, List.filter_nil]
      rw [add_of_isTransmitted transmitted]
      split
      next long =>
        exact sound.close.fragment kept (current_close grouping) (by omega)
      next short =>
        split
        next admitted => exact sound.join kept (by omega) admitted
        · exact sound.close.join_empty kept (current_close grouping) (by omega)

/-- A run of units keeps the groups sound, by induction on the run. -/
theorem Sound.foldl_add (sound : Sound holds grouping seen) (kept : Group.Kept mtu holds)
    (room : 2 ≤ mtu) (obus : List Obu)
    : Sound holds (obus.foldl (Grouping.add mtu) grouping)
        (seen ++ obus.filter Obu.isTransmitted) := by
  induction obus generalizing grouping seen with
  | nil => simpa using sound
  | cons obu obus ih =>
      have next := ih (sound.add kept room obu)
      rwa [List.append_assoc, ← List.filter_append] at next

end Grouping

/-- What grouping keeps holds of every group of a run of units. -/
theorem Group.Kept.of_mem_groups {mtu : Nat} {holds : Group → Prop}
    (kept : Group.Kept mtu holds) (room : 2 ≤ mtu) {obus : List Obu} {group : Group}
    (member : group ∈ groups mtu obus)
    : holds group :=
  ((Grouping.sound_start holds).foldl_add kept room obus).close.closed group member

theorem fits_of_mem_groups {mtu : Nat} (room : 2 ≤ mtu) {obus : List Obu} {group : Group}
    (member : group ∈ groups mtu obus)
    : group.Fits mtu :=
  (Group.kept_fits mtu).of_mem_groups room member

/-- The groups of a run of units hold those that are sent, in order. -/
theorem flatMap_obus_groups {mtu : Nat} (room : 2 ≤ mtu) (obus : List Obu)
    : (groups mtu obus).flatMap Group.obus = obus.filter Obu.isTransmitted := by
  have order :=
    ((Grouping.sound_start (Group.Fits mtu)).foldl_add (Group.kept_fits mtu) room obus).close.order
  rwa [Grouping.current_close, List.append_nil, List.nil_append] at order

end Av1Transport.Aggregation
