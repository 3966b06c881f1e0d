import Av1Transport.Proofs.Aggregation.Carriage
import Av1Transport.Proofs.Obu.StreamUnits
import Mathlib.Data.List.Chain

/-! What the headers of a frame's packets say.
Main statement: every packet of a frame is read back, the packets are linked, the header of each
describes its elements, a coded video sequence is told where its sequence header starts and nowhere
else, and a unit spans several packets when it does not fit one.
-/

namespace Av1Transport.Aggregation

-----------------------------------------------------------------------------------------
-- What is meant
-----------------------------------------------------------------------------------------

/-- Packets that carry whole elements between them: the first starts with an element, the last ends
with one, and of two neighbours the second goes on where the first is to be continued.
-/
structure Linked (packets : List Packet) : Prop where
  first : ∀ packet, packets.head? = some packet → packet.header.continues = false
  last : ∀ packet, packets.getLast? = some packet → packet.header.continued = false
  neighbours
    : packets.IsChain fun packet next => packet.header.continued = next.header.continues

/-- The element starts with the header of a sequence header, as its first byte says. -/
def opensSequence : Bytes → Bool
  | [] => false
  | first :: _ => Obu.Header.kindOfByte first == .sequenceHeader

/-- The header describes the packet: a part of an element is alone and counted, whole elements are
counted where the count can tell them, a packet to be continued is full, and a coded video sequence
is told where the first element opens it. No other element does.
-/
structure Packet.Described (mtu : Nat) (packet : Packet) : Prop where
  alone
    : packet.header.continues = true ∨ packet.header.continued = true
      → packet.header.count = 1 ∧ packet.elements.length = 1
  counted
    : packet.header.continues = false
      → packet.header.continued = false
      → packet.header.count.toNat
        = if packet.elements.length ≤ maxCount then packet.elements.length else 0
  full : packet.header.continued = true → packet.toBytes.length = mtu
  announced
    : packet.header.startsSequence = true
      ↔ packet.header.continues = false
        ∧ ∃ element, packet.elements.head? = some element ∧ opensSequence element = true
  leading : ∀ element ∈ packet.elements.tail, opensSequence element = false

-----------------------------------------------------------------------------------------
-- Linked packets
-----------------------------------------------------------------------------------------

theorem Linked.append {packets more : List Packet} (linked : Linked packets)
    (further : Linked more)
    : Linked (packets ++ more) where
  first := by
    intro packet head
    cases packets with
    | nil => exact further.first packet head
    | cons => exact linked.first packet head
  last := by
    intro packet final
    rw [List.getLast?_append] at final
    rcases Option.or_eq_some_iff.mp final with final | ⟨_, final⟩
    · exact further.last packet final
    · exact linked.last packet final
  neighbours := by
    refine linked.neighbours.append further.neighbours ?_
    intro packet final next head
    rw [linked.last packet final, further.first next head]

/-- Continuations are linked behind a packet that waits for them, by induction on the parts. -/
theorem linked_continuationPackets {packet : Packet} {parts : List Bytes}
    (starts : packet.header.continues = false)
    (waits : packet.header.continued = !parts.isEmpty)
    : Linked (packet :: Group.continuationPackets parts) := by
  have behind (parts : List Bytes) (packet : Packet)
      (waits : packet.header.continued = !parts.isEmpty)
      : (packet :: Group.continuationPackets parts).IsChain
            (fun packet next => packet.header.continued = next.header.continues)
          ∧ ∀ final,
              (packet :: Group.continuationPackets parts).getLast? = some final
              → final.header.continued = false := by
    induction parts generalizing packet with
    | nil =>
        refine ⟨.singleton packet, ?_⟩
        intro final same
        cases same
        exact waits
    | cons part parts ih =>
        obtain ⟨chain, ends⟩ := ih (Group.partPacket true (!parts.isEmpty) false part) rfl
        exact ⟨.cons_cons waits chain, ends⟩
  obtain ⟨chain, ends⟩ := behind parts packet waits
  refine ⟨?_, ends, chain⟩
  intro first same
  cases same
  exact starts

theorem linked_packets {mtu : Nat} (room : 2 ≤ mtu) {group : Group} (fits : group.Fits mtu)
    : Linked (group.packets mtu) := by
  cases group with
  | bundle obus =>
      refine ⟨?_, ?_, .singleton _⟩
      · intro packet same
        cases same
        rfl
      · intro packet same
        cases same
        rfl
  | fragments obu =>
      obtain ⟨first, later, cut, _⟩ := Group.exists_blocks_of_long room fits
      rw [Group.packets, Group.fragmentPackets_of_blocks cut]
      exact linked_continuationPackets rfl rfl

/-- The packets of a frame are linked, as those of every group are. -/
theorem linked_packetize {mtu : Nat} (room : 2 ≤ mtu) (frame : Bytes)
    : Linked (packetize mtu frame).packets :=
  packetize_induction room frame (motive := fun packets _ => Linked packets)
    ⟨by simp, by simp, .nil⟩ Linked.append (fun fits _ => linked_packets room fits)

-----------------------------------------------------------------------------------------
-- Described packets
-----------------------------------------------------------------------------------------

/-- A unit with a fitted header opens a sequence as its kind says. -/
theorem opensSequence_bareBytes {obu : Obu} (fitted : obu.header.fitted = obu.header)
    : opensSequence obu.bareBytes = (obu.header.kind == .sequenceHeader) := by
  obtain ⟨first, rest, bytes, kind⟩ := Obu.kind_of_bareBytes fitted
  rw [bytes, opensSequence, ← kind]

theorem opensSequence_append {part : Bytes} (present : part ≠ []) (later : Bytes)
    : opensSequence (part ++ later) = opensSequence part := by
  obtain ⟨first, rest, rfl⟩ := List.exists_cons_of_ne_nil present
  rfl

theorem described_packet {mtu : Nat} {obus : List Obu} (present : obus ≠ [])
    (uniform : (Group.bundle obus).Uniform)
    (fitted : ∀ obu ∈ obus, obu.header.fitted = obu.header)
    : (Bundle.packet obus).Described mtu := by
  obtain ⟨head, later, rfl⟩ := List.exists_cons_of_ne_nil present
  refine ⟨?_, ?_, ?_, ?_, ?_⟩
  · rintro (continues | continued)
    · cases continues
    · cases continued
  · intro _ _
    rw [Bundle.packet, Bundle.count_packetWith]
    simp [Bundle.packetWith]
  · intro continued
    cases continued
  · have first := opensSequence_bareBytes (fitted head List.mem_cons_self)
    simp [Bundle.packet, Bundle.packetWith, Bundle.startsSequence, first]
  · intro element member
    obtain ⟨obu, listed, rfl⟩ := List.mem_map.mp member
    rw [opensSequence_bareBytes (fitted obu (List.mem_cons_of_mem _ listed))]
    simpa using (uniform head later rfl obu listed).1

theorem described_partPacket {mtu : Nat} (room : 2 ≤ mtu) {continues continued starts : Bool}
    {part : Bytes} (full : continued = true → part.length = mtu - 1)
    (announced : starts = true ↔ continues = false ∧ opensSequence part = true)
    : (Group.partPacket continues continued starts part).Described mtu where
  alone := fun _ => ⟨rfl, rfl⟩
  counted := fun _ _ => rfl
  full := by
    intro goes
    rw [Group.length_toBytes_partPacket, full goes]
    omega
  announced := by simpa [Group.partPacket] using announced
  leading := by simp [Group.partPacket]

/-- Continuations are described by their headers where all parts but the last are as long as can
be, by induction on the parts.
-/
theorem described_of_mem_continuationPackets {mtu : Nat} (room : 2 ≤ mtu) {parts : List Bytes}
    (full : ∀ part ∈ parts.dropLast, part.length = mtu - 1) {packet : Packet}
    (member : packet ∈ Group.continuationPackets parts)
    : packet.Described mtu := by
  induction parts with
  | nil => cases member
  | cons part parts ih =>
      rcases List.mem_cons.mp member with same | member
      · rw [same]
        refine described_partPacket room ?_ (by simp)
        intro several
        obtain ⟨next, rest, rfl⟩ :=
          List.exists_cons_of_ne_nil (show parts ≠ [] by simpa using several)
        exact full part (by simp)
      · refine ih ?_ member
        intro later listed
        obtain ⟨next, rest, rfl⟩ :=
          List.exists_cons_of_ne_nil (show parts ≠ [] by rintro rfl; cases listed)
        exact full later (List.mem_cons_of_mem _ listed)

theorem described_of_mem_fragmentPackets {mtu : Nat} (room : 2 ≤ mtu) {obu : Obu}
    (long : mtu ≤ obu.bareLength) (fitted : obu.header.fitted = obu.header) {packet : Packet}
    (member : packet ∈ Group.fragmentPackets mtu obu)
    : packet.Described mtu := by
  obtain ⟨first, later, cut, several, joined, bounded⟩ := Group.exists_blocks_of_long room long
  have full {part : Bytes} (listed : part ∈ (first :: later).dropLast)
      : part.length = mtu - 1 := by
    rw [← cut] at listed
    exact Group.length_of_mem_dropLast_blocks (by omega) listed
  rw [List.dropLast_cons_of_ne_nil several] at full
  rw [Group.fragmentPackets_of_blocks cut] at member
  rcases List.mem_cons.mp member with same | member
  · have opens : opensSequence first = (obu.header.kind == .sequenceHeader) := by
      rw [← opensSequence_bareBytes fitted, ← joined,
        opensSequence_append (bounded first List.mem_cons_self).1]
    rw [same]
    refine described_partPacket room (fun _ => full List.mem_cons_self) ?_
    simp [Bundle.startsSequence, opens]
  · exact described_of_mem_continuationPackets room
      (fun _ listed => full (List.mem_cons_of_mem _ listed)) member

-----------------------------------------------------------------------------------------
-- All packets of a frame
-----------------------------------------------------------------------------------------

variable {mtu : Nat} {frame : Bytes} {group : Group}

theorem fitted_of_mem_groups (room : 2 ≤ mtu)
    (listed : group ∈ groups mtu (Obu.split frame).values) {obu : Obu} (member : obu ∈ group.obus)
    : obu.header.fitted = obu.header := by
  have sent := List.mem_flatMap.mpr ⟨group, listed, member⟩
  rw [flatMap_obus_groups room] at sent
  exact Obu.fitted_of_mem_split (List.mem_filter.mp sent).1

theorem described_of_mem_packets (room : 2 ≤ mtu) {packet : Packet}
    (member : packet ∈ (packetize mtu frame).packets)
    : packet.Described mtu := by
  rw [packets_packetize room] at member
  obtain ⟨group, listed, inside⟩ := List.mem_flatMap.mp member
  have fits := fits_of_mem_groups room listed
  have uniform := (Group.kept_uniform mtu).of_mem_groups room listed
  have fitted {obu : Obu} (unit : obu ∈ group.obus) : obu.header.fitted = obu.header :=
    fitted_of_mem_groups room listed unit
  cases group with
  | bundle obus =>
      rw [List.mem_singleton.mp inside]
      exact described_packet fits.1 uniform (fun _ => fitted)
  | fragments obu =>
      exact described_of_mem_fragmentPackets room fits (fitted List.mem_cons_self) inside

/-- A unit spans several packets just when it fills more than one. -/
theorem several_iff_of_mem_carriage (room : 2 ≤ mtu) {entry : Obu × List Nat}
    (member : entry ∈ carriage mtu frame)
    : 1 < entry.2.length ↔ mtu - 1 < entry.1.bareLength := by
  obtain ⟨group, listed, unit, count⟩ := exists_group_of_mem_carriageFrom member
  have fits := fits_of_mem_groups room listed
  rw [count]
  cases group with
  | bundle obus =>
      have short := fits.2.1 entry.1 unit
      simp only [Group.packets, List.length_singleton]
      omega
  | fragments obu =>
      have long : mtu ≤ obu.bareLength := fits
      obtain ⟨first, later, cut, several, _⟩ := Group.exists_blocks_of_long room long
      have behind := List.length_pos_iff.mpr several
      rw [List.mem_singleton.mp unit, Group.packets, Group.fragmentPackets_of_blocks cut,
        List.length_cons, Group.length_continuationPackets]
      omega

/-- The headers of a frame's packets. Every packet is read back from its payload, the packets are
linked, and each is described by its header. The packets tell the units of the frame that are sent,
in stream order, and a unit spans several of them just when it fills more than one.
-/
theorem headers_packetize (room : 2 ≤ mtu) (addressable : mtu < UInt64.size) (frame : Bytes)
    : (packetize mtu frame).payloads.map Packet.parse = (packetize mtu frame).packets.map .ok
      ∧ Linked (packetize mtu frame).packets
      ∧ (∀ packet ∈ (packetize mtu frame).packets, packet.Described mtu)
      ∧ elementSpans (packetize mtu frame).packets
        = (carriage mtu frame).map (fun entry => (entry.1.bareBytes, entry.2))
      ∧ (carriage mtu frame).map Prod.fst = (Obu.split frame).values.filter Obu.isTransmitted
      ∧ ∀ entry ∈ carriage mtu frame, 1 < entry.2.length ↔ mtu - 1 < entry.1.bareLength := by
  refine ⟨parse_payloads room addressable frame, linked_packetize room frame, ?_,
    elementSpans_packetize room frame, map_fst_carriage room frame, ?_⟩
  · exact fun _ member => described_of_mem_packets room member
  · exact fun _ member => several_iff_of_mem_carriage room member

/-- A temporal delimiter, a sequence header, a frame, and a longer frame of a higher layer. -/
def layeredFrames : Bytes :=
  [0x12, 0, 0x0A, 1, 0xAA, 0x32, 1, 5, 0x36, 0x28, 4, 1, 2, 3, 4]

/-- The sequence header and the frame share a packet that announces the sequence, and the longer
frame is cut in two.
-/
theorem headers_packetize_layered
    : (packetize 6 layeredFrames).payloads
        = [[0x28, 2, 0x08, 0xAA, 0x30, 5], [0x50, 0x34, 0x28, 1, 2, 3], [0x90, 4]]
      ∧ (carriage 6 layeredFrames).map Prod.snd = [[0], [0], [1, 2]]
      ∧ Linked (packetize 6 layeredFrames).packets
      ∧ ∀ packet ∈ (packetize 6 layeredFrames).packets, packet.Described 6 := by
  obtain ⟨_, linked, described, _⟩ :=
    headers_packetize (show 2 ≤ 6 by decide) (by decide) layeredFrames
  exact ⟨by decide +kernel, by decide +kernel, linked, described⟩

end Av1Transport.Aggregation
