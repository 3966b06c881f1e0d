import Av1Transport.Aggregation.Packet
import Av1Transport.Obu.Stream

/-! Which units of a stream share a packet, and which are cut into fragments.
The length of a packet is known before it is written, so that a further unit is only taken where it
fits.
-/

namespace Av1Transport.Aggregation

-----------------------------------------------------------------------------------------
-- Units collected for one packet
-----------------------------------------------------------------------------------------

/-- The length of a unit as an element behind its length. -/
def elementLength (obu : Obu) : Nat :=
  Leb128.size obu.bareLength + obu.bareLength

/-- The length of units as elements that all have their length in front. -/
def elementsLength (obus : List Obu) : Nat :=
  (obus.map elementLength).sum

@[simp]
theorem elementsLength_nil : elementsLength [] = 0 :=
  rfl

@[simp]
theorem elementsLength_append (obus more : List Obu)
    : elementsLength (obus ++ more) = elementsLength obus + elementsLength more := by
  simp only [elementsLength, List.map_append, List.sum_append]

@[simp]
theorem elementsLength_singleton (obu : Obu) : elementsLength [obu] = elementLength obu :=
  Nat.add_zero _

/-- Units that will share a packet, with the length of their elements when all of them have
their length in front. -/
structure Bundle where
  obus : Array Obu
  prefixedLength : Nat
  prefixedLength_eq : prefixedLength = elementsLength obus.toList

namespace Bundle

/-- No units. -/
def empty : Bundle :=
  ⟨#[], 0, elementsLength_nil.symm⟩

/-- A further unit at the end. -/
def push (bundle : Bundle) (obu : Obu) : Bundle :=
  ⟨bundle.obus.push obu, bundle.prefixedLength + elementLength obu, by
    simp [bundle.prefixedLength_eq]⟩

/-- The length of a packet of `count` elements, whose last one is `lastLength` bytes long: that
element needs no length of its own where the header can count the elements. -/
def packetLength (prefixedLength count lastLength : Nat) : Nat :=
  if count ≤ maxCount then
    1 + prefixedLength - Leb128.size lastLength
  else
    1 + prefixedLength

/-- The length of the packet that the bundle makes with one more unit. -/
def lengthWith (bundle : Bundle) (obu : Obu) : Nat :=
  packetLength (bundle.prefixedLength + elementLength obu) (bundle.obus.size + 1) obu.bareLength

/-- The length of the packet that the bundle makes, if it has a unit. -/
def length? (bundle : Bundle) : Option Nat :=
  bundle.obus.back?.map fun last =>
    packetLength bundle.prefixedLength bundle.obus.size last.bareLength

/-- The layer of the units in the bundle, if there are any. -/
def layer? (bundle : Bundle) : Option (UInt8 × UInt8) :=
  bundle.obus[0]?.map fun obu => obu.header.layer

/-- The unit may share a packet with the units of the bundle: it opens no coded video sequence,
is of their layer and fits. -/
def admits (mtu : Nat) (bundle : Bundle) (obu : Obu) : Bool :=
  obu.header.kind != .sequenceHeader
    && bundle.layer? == some obu.header.layer
    && decide (bundle.lengthWith obu ≤ mtu)

/-- A coded video sequence starts with the first of the units. -/
def startsSequence (obus : List Obu) : Bool :=
  match obus with
  | [] => false
  | obu :: _ => obu.header.kind == .sequenceHeader

/-- The packet of whole units, counted where the header can count them. The flag says that a coded
video sequence starts here. -/
def packetWith (startsSequence : Bool) (obus : List Obu) : Packet where
  header := {
    continues := false
    continued := false
    count := if obus.length ≤ maxCount then UInt8.ofNat obus.length else 0
    startsSequence }
  elements := obus.map Obu.bareBytes

/-- The packet of whole units, flagged by the first of them. -/
def packet (obus : List Obu) : Packet :=
  packetWith (startsSequence obus) obus

end Bundle

-----------------------------------------------------------------------------------------
-- Groups of units
-----------------------------------------------------------------------------------------

/-- Units that are packed together: whole ones in one packet, or one unit over several. -/
inductive Group where
  | bundle (obus : List Obu)
  | fragments (obu : Obu)
  deriving Repr, DecidableEq

namespace Group

/-- The units of a group, in stream order. -/
def obus : Group → List Obu
  | bundle obus => obus
  | fragments obu => [obu]

/-- Pieces of `size` bytes, the last one of what is left. -/
def blocks (size : Nat) (bytes : Bytes) : List Bytes :=
  (readAll (ε := Empty) (fun rest => .ok (rest.take size, size)) bytes).values

/-- The packets that carry one unit in pieces: all but the first continue, all but the last are
continued. The flag says that a coded video sequence starts with the unit. -/
def cutPackets (mtu : Nat) (startsSequence : Bool) (obu : Obu) : List Packet :=
  let pieces := blocks (mtu - 1) obu.bareBytes
  let count := pieces.length
  pieces.zipIdx.map fun (piece, i) =>
    { header := {
        continues := i != 0
        continued := i + 1 != count
        count := 1
        startsSequence := i == 0 && startsSequence }
      elements := [piece] }

/-- The packets that carry one unit in pieces, flagged by the unit. -/
def fragmentPackets (mtu : Nat) (obu : Obu) : List Packet :=
  cutPackets mtu (Bundle.startsSequence [obu]) obu

/-- The packets that carry a group. -/
def packets (mtu : Nat) : Group → List Packet
  | bundle obus => [Bundle.packet obus]
  | fragments obu => fragmentPackets mtu obu

end Group

/-- The groups of the units seen so far: those that are complete, and the bundle that may still
take a unit. -/
structure Grouping where
  closed : Array Group
  current : Bundle

namespace Grouping

/-- Nothing grouped yet. -/
def start : Grouping :=
  ⟨#[], .empty⟩

/-- The current bundle takes no further unit. -/
def close (grouping : Grouping) : Grouping :=
  if grouping.current.obus.isEmpty then
    grouping
  else
    ⟨grouping.closed.push (.bundle grouping.current.obus.toList), .empty⟩

/-- The unit joins the current bundle. -/
def join (grouping : Grouping) (obu : Obu) : Grouping :=
  { grouping with current := grouping.current.push obu }

/-- The unit becomes a group of its own, in fragments. -/
def fragment (grouping : Grouping) (obu : Obu) : Grouping :=
  { grouping with closed := grouping.closed.push (.fragments obu) }

/-- Takes the next unit of the stream. A temporal delimiter closes the bundle and a tile list is
passed over; neither is sent. A unit that fills more than a packet is cut. -/
def add (mtu : Nat) (grouping : Grouping) (obu : Obu) : Grouping :=
  match obu.header.kind with
  | .temporalDelimiter => grouping.close
  | .tileList => grouping
  | _ =>
      if mtu - 1 < obu.bareLength then
        grouping.close.fragment obu
      else if grouping.current.admits mtu obu then
        grouping.join obu
      else
        grouping.close.join obu

/-- All groups, the current bundle being the last. -/
def groups (grouping : Grouping) : List Group :=
  grouping.close.closed.toList

end Grouping

/-- The groups of a run of units, for packets of at most `mtu` bytes. -/
def groups (mtu : Nat) (obus : List Obu) : List Group :=
  (obus.foldl (Grouping.add mtu) .start).groups

end Av1Transport.Aggregation
