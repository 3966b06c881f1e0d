import Av1Transport.Aggregation.Packetization
import Av1Transport.Proofs.Aggregation.GroupInvariants

/-! Packing unit by unit makes the packets of the groups.
A packer remembers of the units that wait their layer and that a coded video sequence starts, where
a grouping looks at the units themselves. Main statement: the two never differ, so that the packets
of a run of units are those of its groups.
-/

namespace Av1Transport.Aggregation.Packer

/-- The packets are those of the closed groups, the units of the current bundle wait, and the layer
is theirs. The flag is told apart, as it is set before its sequence header waits.
-/
structure InStep (mtu : Nat) (packer : Packer) (grouping : Grouping) (opens : Bool) : Prop where
  packets : packer.packets.toList = grouping.closed.toList.flatMap (Group.packets mtu)
  bundle : packer.bundle = grouping.current
  layer : ∀ layer, grouping.current.layer? = some layer → packer.layer = layer
  opens : packer.opensSequence = opens

/-- Between two units the flag says that a sequence header is the first of those that wait. -/
abbrev AtRest (mtu : Nat) (packer : Packer) (grouping : Grouping) : Prop :=
  InStep mtu packer grouping (Bundle.startsSequence grouping.current.obus.toList)

variable {mtu : Nat} {packer : Packer} {grouping : Grouping} {obu : Obu}

theorem atRest_start (mtu : Nat) : AtRest mtu start .start where
  packets := by simp [start, Grouping.start]
  bundle := rfl
  layer := by simp [Grouping.start, Bundle.layer?, Bundle.empty]
  opens := rfl

-----------------------------------------------------------------------------------------
-- What a packer does with the units that wait
-----------------------------------------------------------------------------------------

theorem flush_of_empty (empty : packer.bundle.obus.toList = []) : packer.flush = packer := by
  rw [flush, if_pos (by simpa using empty)]

theorem packets_flush (present : packer.bundle.obus.toList ≠ [])
    : packer.flush.packets
      = packer.packets.push
          (Bundle.packetWith packer.opensSequence packer.bundle.obus.toList) := by
  rw [flush, if_neg (by simpa using present)]

@[simp]
theorem obus_flush (packer : Packer) : packer.flush.bundle.obus.toList = [] := by
  unfold flush
  split
  next empty => simpa using empty
  next => rfl

/-- Flushing closes the bundle: the flag goes into the packet that is made, and is gone then. -/
theorem InStep.flush (inStep : AtRest mtu packer grouping)
    : InStep mtu packer.flush grouping.close false := by
  unfold Packer.flush Grouping.close
  rw [inStep.bundle]
  split
  next empty =>
    refine ⟨inStep.packets, inStep.bundle, inStep.layer, ?_⟩
    rw [inStep.opens, Array.isEmpty_iff.mp empty]
    rfl
  next present =>
    refine ⟨?_, rfl, ?_, rfl⟩
    · simp [inStep.packets, inStep.opens, Group.packets, Bundle.packet]
    · intro layer waits
      simp [Bundle.layer?, Bundle.empty] at waits

/-- A unit in pieces takes the flag along if it is the sequence header the flag was set for. -/
theorem InStep.fragment (inStep : InStep mtu packer grouping (Bundle.startsSequence [obu]))
    : InStep mtu (packer.fragment mtu obu) (grouping.fragment obu) false where
  packets := by
    simp [Packer.fragment, Grouping.fragment, inStep.packets, inStep.opens, Group.packets,
      Group.fragmentPackets]
  bundle := inStep.bundle
  layer := inStep.layer
  opens := rfl

/-- The first unit that waits says the layer, and the flag was set for it or not at all. -/
theorem InStep.push_first (inStep : InStep mtu packer grouping (Bundle.startsSequence [obu]))
    (empty : grouping.current.obus.toList = [])
    : AtRest mtu (packer.push obu) (grouping.join obu) where
  packets := inStep.packets
  bundle := by rw [push, Grouping.join, inStep.bundle]
  layer := by
    intro layer waits
    rw [Grouping.join, Bundle.layer?_eq, Bundle.toList_push, empty] at waits
    rw [push, inStep.bundle, if_pos (by simpa using empty)]
    exact Option.some.inj waits
  opens := by
    rw [push, inStep.opens, Grouping.join, Bundle.toList_push, empty, List.nil_append]

/-- A further unit changes neither the layer nor the flag. -/
theorem InStep.push_later (inStep : AtRest mtu packer grouping)
    (present : grouping.current.obus.toList ≠ [])
    : AtRest mtu (packer.push obu) (grouping.join obu) := by
  obtain ⟨first, later, waiting⟩ := List.exists_cons_of_ne_nil present
  refine ⟨inStep.packets, ?_, ?_, ?_⟩
  · rw [push, Grouping.join, inStep.bundle]
  · intro layer waits
    rw [Grouping.join, Bundle.layer?_eq, Bundle.toList_push, waiting] at waits
    rw [push, inStep.bundle, if_neg (by simpa using present)]
    refine inStep.layer layer ?_
    rw [Bundle.layer?_eq, waiting]
    exact waits
  · rw [push, inStep.opens, Grouping.join, Bundle.toList_push, waiting]
    rfl

-----------------------------------------------------------------------------------------
-- One unit
-----------------------------------------------------------------------------------------

theorem add_of_ordinary (ordinary : obu.header.kind ≠ .sequenceHeader)
    (transmitted : obu.isTransmitted = true)
    : packer.add mtu obu = packer.place mtu obu := by
  unfold add
  unfold Obu.isTransmitted Obu.Kind.isTransmitted at transmitted
  split at transmitted <;> simp_all

theorem matchLayer_of_empty (empty : packer.bundle.obus.toList = [])
    : packer.matchLayer obu = packer := by
  rw [matchLayer, flush_of_empty empty, ite_self]

/-- A unit that no other waits for is cut or waits itself, with the flag set for it or not. -/
theorem InStep.place_first (inStep : InStep mtu packer grouping (Bundle.startsSequence [obu]))
    (empty : grouping.current.obus.toList = [])
    : AtRest mtu (packer.place mtu obu)
        (if mtu - 1 < obu.bareLength then grouping.fragment obu else grouping.join obu) := by
  have waiting : packer.bundle.obus.toList = [] := by rw [inStep.bundle, empty]
  simp only [place, matchLayer_of_empty waiting, flush_of_empty waiting, ite_self]
  split
  next =>
    have none : Bundle.startsSequence (grouping.fragment obu).current.obus.toList = false := by
      rw [Grouping.fragment, empty]
      rfl
    rw [AtRest, none]
    exact inStep.fragment
  next => exact inStep.push_first empty

theorem InStep.matchLayer_of_ne (inStep : AtRest mtu packer grouping)
    (other : grouping.current.layer? ≠ some obu.header.layer)
    : packer.matchLayer obu = packer.flush := by
  match waiting : grouping.current.obus.toList with
  | [] =>
      have empty : packer.bundle.obus.toList = [] := by rw [inStep.bundle, waiting]
      rw [matchLayer_of_empty empty, flush_of_empty empty]
  | first :: later =>
      have present : packer.bundle.obus.isEmpty = false := by
        rw [inStep.bundle, Bool.eq_false_iff]
        intro empty
        simp [Array.isEmpty_iff.mp empty] at waiting
      have layer : grouping.current.layer? = some packer.layer := by
        rw [Bundle.layer?_eq, waiting]
        refine congrArg some (inStep.layer _ ?_).symm
        rw [Bundle.layer?_eq, waiting]
        rfl
      have differs : packer.layer ≠ obu.header.layer := by
        rintro same
        exact other (same ▸ layer)
      simp [matchLayer, present, differs]

theorem InStep.matchLayer_of_eq (inStep : AtRest mtu packer grouping)
    (same : grouping.current.layer? = some obu.header.layer)
    : packer.matchLayer obu = packer := by
  simp [matchLayer, inStep.layer _ same]

/-- A unit that opens no coded video sequence finds its place where the grouping puts it, by cases
on whether the units that wait are of its layer.
-/
theorem InStep.place (inStep : AtRest mtu packer grouping)
    (ordinary : obu.header.kind ≠ .sequenceHeader)
    : AtRest mtu (packer.place mtu obu)
        (if mtu - 1 < obu.bareLength then
          grouping.close.fragment obu
        else if grouping.current.admits mtu obu then
          grouping.join obu
        else
          grouping.close.join obu) := by
  have flag : Bundle.startsSequence [obu] = false := by
    simpa [Bundle.startsSequence] using ordinary
  have flushed : InStep mtu packer.flush grouping.close (Bundle.startsSequence [obu]) :=
    flag.symm ▸ inStep.flush
  have closed := Grouping.current_close grouping
  by_cases same : grouping.current.layer? = some obu.header.layer
  · have admitted
        : grouping.current.admits mtu obu = decide (packer.bundle.lengthWith obu ≤ mtu) := by
      simp [Bundle.admits, same, ordinary, inStep.bundle]
    simp only [Packer.place, inStep.matchLayer_of_eq same, admitted, decide_eq_true_eq]
    split
    next long =>
      have placed := flushed.place_first closed
      simpa only [Packer.place, matchLayer_of_empty (obus_flush packer),
        flush_of_empty (obus_flush packer), if_pos long] using placed
    next =>
      split
      next =>
        refine inStep.push_later ?_
        rintro empty
        rw [Bundle.layer?_eq, empty] at same
        cases same
      next => exact flushed.push_first closed
  · have refused : grouping.current.admits mtu obu = false := by
      simp [Bundle.admits, same]
    have placed := flushed.place_first closed
    rw [Packer.place, matchLayer_of_empty (obus_flush packer)] at placed
    simpa only [Packer.place, inStep.matchLayer_of_ne same, refused, Bool.false_eq_true, if_false]
      using placed

/-- One unit more, by its kind: a sequence header is placed like the first unit of all, with the
flag set for it.
-/
theorem InStep.add (inStep : AtRest mtu packer grouping) (obu : Obu)
    : AtRest mtu (packer.add mtu obu) (grouping.add mtu obu) := by
  have closed := Grouping.current_close grouping
  by_cases opening : obu.header.kind = .sequenceHeader
  · have noted
        : InStep mtu { packer.flush with opensSequence := true } grouping.close
            (Bundle.startsSequence [obu]) := by
      obtain ⟨packets, bundle, layer, _⟩ := inStep.flush
      exact ⟨packets, bundle, layer, by simp [Bundle.startsSequence, opening]⟩
    have placed := noted.place_first closed
    rw [Grouping.add_of_isTransmitted (Obu.isTransmitted_of_sequenceHeader opening)]
    simpa only [Packer.add, opening, Bundle.admits_of_sequenceHeader opening, Bool.false_eq_true,
      if_false] using placed
  · cases transmitted : obu.isTransmitted with
    | true =>
        rw [Grouping.add_of_isTransmitted transmitted, add_of_ordinary opening transmitted]
        exact inStep.place opening
    | false =>
        rcases Obu.kind_of_not_isTransmitted transmitted with delimiter | tiles
        · simp only [Packer.add, Grouping.add, delimiter]
          have flushed := inStep.flush
          rwa [← show Bundle.startsSequence grouping.close.current.obus.toList = false by
            rw [closed]; rfl] at flushed
        · simpa only [Packer.add, Grouping.add, tiles] using inStep

/-- A run of units keeps the packer in step, by induction on the run. -/
theorem InStep.foldl_add (inStep : AtRest mtu packer grouping) (obus : List Obu)
    : AtRest mtu (obus.foldl (Packer.add mtu) packer) (obus.foldl (Grouping.add mtu) grouping) := by
  induction obus generalizing packer grouping with
  | nil => exact inStep
  | cons obu obus ih => exact ih (inStep.add obu)

/-- The packets of a run of units are those of its groups. -/
theorem pack_eq (mtu : Nat) (obus : List Obu)
    : pack mtu obus = (groups mtu obus).flatMap (Group.packets mtu) :=
  ((atRest_start mtu).foldl_add obus).flush.packets

end Av1Transport.Aggregation.Packer
