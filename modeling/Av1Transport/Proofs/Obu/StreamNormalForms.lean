import Mathlib.Data.List.Forall2
import Av1Transport.Proofs.Obu.WrittenUnits

/-! A stream and its normal form, in which the units that are read from it are written back.
Main statements: the units of a stream stand one behind another from its first byte on, and up to
its last byte if nothing fails; the normal form gives the same units and is its own; for units with
sizes it is no longer than they were, and as long only if all their sizes were in their shortest
form.
-/

namespace Av1Transport.Obu

/-- The stream of the units that are read from a stream. -/
def normalized (bytes : Bytes) : Bytes :=
  joinBytes (split bytes).values

/-- The unit is read from the chunk, which it takes as a whole. -/
structure TakenFrom (item : Obu × Nat) (chunk : Bytes) : Prop where
  present : chunk ≠ []
  counted : item.2 = chunk.length
  read : parse chunk = .ok item

/-- The units of a reading stand one behind another at the front of the bytes, each in its chunk.
All the bytes are theirs just when the reading does not fail, and otherwise the failure is that of
the rest.
-/
structure Tiled (bytes : Bytes) (reading : Reading Obu Error) (chunks : List Bytes) (rest : Bytes)
    : Prop where
  joined : bytes = chunks.flatten ++ rest
  units : List.Forall₂ TakenFrom reading.items chunks
  covered : rest = [] ↔ reading.failure = none
  stopped : ∀ failure ∈ reading.failure, parse rest = .error failure

/-- The size of the unit stands behind its header in its shortest form. -/
def ShortestSize (obu : Obu) (chunk : Bytes) : Prop :=
  Leb128.encode obu.payload.length <+: chunk.drop obu.header.size

-----------------------------------------------------------------------------------------
-- The chunks of a stream
-----------------------------------------------------------------------------------------

/-- A unit is read from the bytes that it takes. -/
theorem takenFrom_take {bytes : Bytes} {obu : Obu} {count : Nat}
    (read : parse bytes = .ok (obu, count))
    : TakenFrom (obu, count) (bytes.take count) := by
  obtain ⟨length, present⟩ := take_of_parse read
  refine ⟨present, length.symm, ?_⟩
  obtain ⟨_, ⟨sized, _⟩ | ⟨_, _, rfl⟩⟩ := parse_ok read
  · have own := parse_take_append read sized []
    rwa [List.append_nil] at own
  · rwa [List.take_length]

/-- The chunks of a stream are those of its units, and the rest is what cannot be read. Witness:
induction on the reading.
-/
theorem exists_tiled (bytes : Bytes) : ∃ chunks rest, Tiled bytes (split bytes) chunks rest := by
  refine readAll_induction parse (fun _ read => count_of_parse_pos read)
    (motive := fun bytes reading => ∃ chunks rest, Tiled bytes reading chunks rest)
    ?nil ?failed ?read bytes
  case nil =>
    refine ⟨[], [], rfl, .nil, ⟨fun _ => rfl, fun _ => rfl⟩, ?_⟩
    intro _ member
    cases member
  case failed =>
    intro bytes cause present failed
    refine ⟨[], bytes, rfl, .nil, ⟨fun none => absurd none present, fun none => ?_⟩, ?_⟩
    · cases none
    · rintro _ ⟨⟩
      exact failed
  case read =>
    intro bytes obu count _ read later
    obtain ⟨chunks, rest, tiled⟩ := later
    refine ⟨bytes.take count :: chunks, rest, ?_, .cons (takenFrom_take read) tiled.units,
      tiled.covered, tiled.stopped⟩
    rw [List.flatten_cons, List.append_assoc, ← tiled.joined, List.take_append_drop]

-----------------------------------------------------------------------------------------
-- The length of the normal form
-----------------------------------------------------------------------------------------

/-- A unit that was read with a size is written in no more bytes than it was read from, and in as
many only if its size was in its shortest form.
-/
theorem length_toBytes_le {obu : Obu} {count : Nat} {chunk : Bytes}
    (sized : obu.header.hasSize = true) (taken : TakenFrom (obu, count) chunk)
    : obu.toBytes.length ≤ count ∧ (obu.toBytes.length = count ↔ ShortestSize obu chunk) := by
  obtain ⟨measured, behind, total⟩ := parsePayload_of_parse taken.read sized
  obtain ⟨_, _, front, _, rfl⟩ := parsePayload_ok behind
  obtain ⟨fewer, same⟩ := Leb128.shortest_of_read front
  rw [ShortestSize, ← same, length_toBytes]
  omega

/-- Where every unit with its size is no longer than the bytes that it was read from, and as long only
under a condition, so are all units together: they are as long only if the condition holds everywhere.
Witness: induction on the pairs.
-/
theorem length_joinBytes_le_iff {condition : Obu × Nat → Bytes → Prop}
    {items : List (Obu × Nat)} {chunks : List Bytes}
    (each
      : List.Forall₂
          (fun item chunk =>
            item.1.toBytes.length ≤ item.2
            ∧ (item.1.toBytes.length = item.2 ↔ condition item chunk))
          items chunks)
    : (joinBytes (items.map Prod.fst)).length ≤ (items.map Prod.snd).sum
      ∧ ((joinBytes (items.map Prod.fst)).length = (items.map Prod.snd).sum
        ↔ List.Forall₂ condition items chunks) := by
  induction each with
  | nil => exact ⟨Nat.le_refl 0, fun _ => .nil, fun _ => rfl⟩
  | cons first _ ih =>
      obtain ⟨fewer, same⟩ := first
      obtain ⟨total, all⟩ := ih
      rw [List.forall₂_cons, ← same, ← all]
      simp only [List.map_cons, List.sum_cons, joinBytes, List.flatMap_cons, List.length_append]
      simp only [joinBytes] at total
      omega

/-- The normal form of units with sizes is no longer than the bytes that they were read from, and as
long only if every size was in its shortest form.
-/
theorem length_normalized_le {bytes rest : Bytes} {chunks : List Bytes}
    (tiled : Tiled bytes (split bytes) chunks rest)
    (sized : ∀ obu ∈ (split bytes).values, obu.header.hasSize = true)
    : (normalized bytes).length ≤ (split bytes).consumed
      ∧ ((normalized bytes).length = (split bytes).consumed
        ↔ List.Forall₂ ShortestSize (split bytes).values chunks) := by
  have flags : ∀ item ∈ (split bytes).items, item.1.header.hasSize = true := by
    intro item member
    exact sized item.1 (List.mem_map_of_mem member)
  have each
      : List.Forall₂
          (fun item chunk =>
            item.1.toBytes.length ≤ item.2
            ∧ (item.1.toBytes.length = item.2 ↔ ShortestSize item.1 chunk))
          (split bytes).items chunks :=
    ((List.forall₂_and_left _ _).mpr ⟨flags, tiled.units⟩).imp
      (fun _ _ both => length_toBytes_le both.1 both.2)
  rw [Reading.values, List.forall₂_map_left_iff]
  exact length_joinBytes_le_iff each

-----------------------------------------------------------------------------------------
-- The units of the normal form
-----------------------------------------------------------------------------------------

/-- The payload of a unit of a stream is no longer than the stream. -/
theorem payload_length_le_of_mem_split {bytes : Bytes} {obu : Obu}
    (member : obu ∈ (split bytes).values)
    : obu.payload.length ≤ bytes.length :=
  Nat.le_trans (Nat.le_add_left _ _) (bareLength_le_of_mem_split member)

/-- The normal form gives the units of the stream, each with a size, and nothing fails. -/
theorem split_normalized {bytes : Bytes} (addressable : bytes.length < UInt64.size)
    : split (normalized bytes)
      = ⟨(split bytes).values.map fun obu =>
          (⟨obu.header.withSize true, obu.payload⟩, obu.toBytes.length), none⟩ := by
  have short : ∀ obu ∈ (split bytes).values, obu.payload.length < UInt64.size :=
    fun _ member => Nat.lt_of_le_of_lt (payload_length_le_of_mem_split member) addressable
  rw [normalized, split_joinBytes short]
  congr 1
  refine List.map_congr_left ?_
  intro obu member
  rw [stored_of_fitted (fitted_of_mem_split member)]

/-- The normal form is its own normal form, as a unit is written with its size in any case. -/
theorem normalized_normalized {bytes : Bytes} (addressable : bytes.length < UInt64.size)
    : normalized (normalized bytes) = normalized bytes := by
  rw [normalized, split_normalized addressable, Reading.values, List.map_map, normalized]
  simp only [joinBytes, List.flatMap_map]
  rfl

/-- A stream gives its units, from chunks that stand one behind another, and its failure last. Its
normal form gives the same units with sizes and without a failure, and is its own normal form. Where
all units had sizes, it is no longer than they were, and as long only if these were in their
shortest form.
-/
theorem stream_normalizes {bytes : Bytes} (addressable : bytes.length < UInt64.size)
    : SplitAs bytes (split bytes).items (split bytes).failure
      ∧ (∃ chunks rest,
          Tiled bytes (split bytes) chunks rest
          ∧ ((∀ obu ∈ (split bytes).values, obu.header.hasSize = true)
            → (normalized bytes).length ≤ (split bytes).consumed
              ∧ ((normalized bytes).length = (split bytes).consumed
                ↔ List.Forall₂ ShortestSize (split bytes).values chunks)))
      ∧ SplitAs (normalized bytes)
          ((split bytes).values.map fun obu =>
            (⟨obu.header.withSize true, obu.payload⟩, obu.toBytes.length))
          none
      ∧ normalized (normalized bytes) = normalized bytes := by
  refine ⟨splitAs_split bytes, ?tiles, ?units, normalized_normalized addressable⟩
  case tiles =>
    obtain ⟨chunks, rest, tiled⟩ := exists_tiled bytes
    exact ⟨chunks, rest, tiled, length_normalized_le tiled⟩
  case units => exact splitAs_of_split (split_normalized addressable)

/-- A frame whose size takes a byte more than it needs, a delimiter, and a frame that is cut off. -/
def looseStream : Bytes :=
  [0x32, 0x82, 0x00, 0xAA, 0xBB, 0x12, 0x00, 0x32, 0x05, 0xCC]

/-- The cut frame is left out of the normal form, which is shorter than the two units in front of
it, as one of their sizes was not in its shortest form.
-/
theorem stream_normalizes_loose
    : looseStream.length < UInt64.size
      ∧ SplitAs [0x32, 0x02, 0xAA, 0xBB, 0x12, 0x00]
          [(⟨⟨.frame, none, true, false⟩, [0xAA, 0xBB]⟩, 4),
            (⟨⟨.temporalDelimiter, none, true, false⟩, []⟩, 2)]
          none
      ∧ ∃ chunks rest,
          Tiled looseStream (split looseStream) chunks rest
          ∧ ¬ List.Forall₂ ShortestSize (split looseStream).values chunks := by
  have addressable : looseStream.length < UInt64.size := by decide
  have reading
      : split looseStream
        = ⟨[(⟨⟨.frame, none, true, false⟩, [0xAA, 0xBB]⟩, 5),
            (⟨⟨.temporalDelimiter, none, true, false⟩, []⟩, 2)],
          some (.sizeExceedsBuffer 5 1)⟩ := by
    decide +kernel
  have form : normalized looseStream = [0x32, 0x02, 0xAA, 0xBB, 0x12, 0x00] := by
    decide +kernel
  have written
      : ((split looseStream).values.map fun obu =>
          ((⟨obu.header.withSize true, obu.payload⟩ : Obu), obu.toBytes.length))
        = [(⟨⟨.frame, none, true, false⟩, [0xAA, 0xBB]⟩, 4),
            (⟨⟨.temporalDelimiter, none, true, false⟩, []⟩, 2)] := by
    decide +kernel
  obtain ⟨_, ⟨chunks, rest, tiled, sizes⟩, units, _⟩ := stream_normalizes addressable
  refine ⟨addressable, ?units, chunks, rest, tiled, ?loose⟩
  case units => rwa [form, written] at units
  case loose =>
    rw [form, reading] at sizes
    intro all
    have same := (sizes (by decide)).2.mpr (by rwa [reading] at all)
    exact absurd same (by decide)

end Av1Transport.Obu
