import Av1Transport.Proofs.Leb128.ShortestForm
import Av1Transport.Proofs.Obu.StreamUnits

/-! Units that are written with their sizes, and one without behind them.
Main statements: units written back to back are read back one by one, as they are stored, and
nothing is left over, also where the last one has no size; the bytes of units with sizes are a
canonical stream.
-/

namespace Av1Transport.Obu

/-- The unit as it is stored: a size follows its header, whose fields are cut to their bits. -/
def stored (obu : Obu) : Obu :=
  ⟨(obu.header.withSize true).fitted, obu.payload⟩

/-- The unit as it is transmitted: no size follows its header, whose fields are cut to their bits.
-/
def bare (obu : Obu) : Obu :=
  ⟨(obu.header.withSize false).fitted, obu.payload⟩

/-- A stream that is written as it was read: all of it is units, each with a size in its shortest
form.
-/
structure CanonicalStream (bytes : Bytes) : Prop where
  whole : (split bytes).failure = none
  sized : ∀ obu ∈ (split bytes).values, obu.header.hasSize = true
  joined : joinBytes (split bytes).values = bytes

theorem toBytes_stored (obu : Obu) : obu.stored.toBytes = obu.toBytes := by
  have header := (obu.header.withSize true).toBytes_fitted
  rw [Header.fitted_withSize] at header
  show (obu.header.fitted.withSize true).toBytes ++ _ ++ obu.payload = _
  rw [header]
  rfl

/-- A unit with a fitted header is stored with the fields that it has. -/
theorem stored_of_fitted {obu : Obu} (fitted : obu.header.fitted = obu.header)
    : obu.stored = ⟨obu.header.withSize true, obu.payload⟩ := by
  rw [stored, Header.fitted_withSize, fitted]

theorem length_toBytes (obu : Obu)
    : obu.toBytes.length
      = obu.header.size + Leb128.size obu.payload.length + obu.payload.length := by
  simp only [toBytes, List.length_append, Header.length_toBytes, Header.size_withSize,
    Leb128.length_encode]

theorem toBytes_ne_nil (obu : Obu) : obu.toBytes ≠ [] := by
  have header := obu.header.size_pos
  refine List.ne_nil_of_length_pos ?_
  rw [length_toBytes]
  omega

/-- A unit is read back as it is stored, whatever follows it. Witness: its header, its size and its
payload are read one after another.
-/
theorem parse_toBytes {obu : Obu} (addressable : obu.payload.length < UInt64.size) (rest : Bytes)
    : parse (obu.toBytes ++ rest) = .ok (obu.stored, obu.toBytes.length) := by
  have behind
      : (obu.toBytes ++ rest).drop obu.header.size
        = Leb128.encode obu.payload.length ++ (obu.payload ++ rest) := by
    rw [toBytes, List.append_assoc, List.append_assoc]
    exact List.drop_left' (by simp)
  have payload
      : parsePayload (Leb128.encode obu.payload.length ++ (obu.payload ++ rest))
        = .ok (obu.payload, Leb128.size obu.payload.length + obu.payload.length) := by
    have past
        : (Leb128.encode obu.payload.length ++ (obu.payload ++ rest)).drop
            (Leb128.size obu.payload.length)
          = obu.payload ++ rest :=
      List.drop_left' (Leb128.length_encode _)
    rw [parsePayload, Leb128.read_encode addressable]
    simp only [past, splitExact?_append]
  have header : Header.parse (obu.toBytes ++ rest) = .ok obu.stored.header := by
    rw [toBytes, List.append_assoc, List.append_assoc, Header.parse_toBytes]
    rfl
  have size : obu.stored.header.size = obu.header.size := (obu.header.withSize true).size_fitted
  have sized : obu.stored.header.hasSize = true := rfl
  rw [parse, header]
  simp only [sized, if_true, size, behind, payload, length_toBytes, Nat.add_assoc]
  rfl

/-- Units written back to back are read back in order, and then what follows them is read. -/
theorem split_joinBytes_append {obus : List Obu}
    (addressable : ∀ obu ∈ obus, obu.payload.length < UInt64.size) (rest : Bytes)
    : split (joinBytes obus ++ rest)
      = ⟨(obus.map fun obu => (obu.stored, obu.toBytes.length)) ++ (split rest).items,
        (split rest).failure⟩ :=
  readAll_flatMap parse stored rest
    (fun obu (_ : obu ∈ obus) => obu.toBytes_ne_nil)
    (fun obu member rest => parse_toBytes (addressable obu member) rest)

/-- Units written back to back are read back in order, and nothing is left over. -/
theorem split_joinBytes {obus : List Obu}
    (addressable : ∀ obu ∈ obus, obu.payload.length < UInt64.size)
    : split (joinBytes obus) = ⟨obus.map fun obu => (obu.stored, obu.toBytes.length), none⟩ := by
  have reading := split_joinBytes_append addressable []
  have nothing : split [] = ⟨[], none⟩ := readAll_nil parse
  rwa [nothing, List.append_nil, List.append_nil] at reading

theorem values_split_joinBytes {obus : List Obu}
    (addressable : ∀ obu ∈ obus, obu.payload.length < UInt64.size)
    : (split (joinBytes obus)).values = obus.map stored := by
  rw [split_joinBytes addressable, Reading.values, List.map_map]
  rfl

theorem canonicalStream_joinBytes {obus : List Obu}
    (addressable : ∀ obu ∈ obus, obu.payload.length < UInt64.size)
    : CanonicalStream (joinBytes obus) where
  whole := by rw [split_joinBytes addressable]
  sized := by
    intro obu member
    rw [values_split_joinBytes addressable] at member
    obtain ⟨unit, _, rfl⟩ := List.mem_map.mp member
    rfl
  joined := by
    rw [values_split_joinBytes addressable]
    simp only [joinBytes, List.flatMap_map, toBytes_stored]

-----------------------------------------------------------------------------------------
-- A last unit without its size
-----------------------------------------------------------------------------------------

/-- A unit without its size is all that is left of a stream. -/
theorem split_bareBytes (obu : Obu)
    : split obu.bareBytes = ⟨[(obu.bare, obu.bareBytes.length)], none⟩ := by
  have header : Header.parse obu.bareBytes = .ok obu.bare.header :=
    Header.parse_toBytes (obu.header.withSize false) obu.payload
  have size : obu.bare.header.size = (obu.header.withSize false).toBytes.length :=
    (Header.size_fitted _).trans (Header.length_toBytes _).symm
  have read : parse obu.bareBytes = .ok (obu.bare, obu.bareBytes.length) := by
    have unsized : ¬ obu.bare.header.hasSize = true := Bool.false_ne_true
    rw [parse, header]
    simp only [if_neg unsized, size]
    rw [bareBytes, List.drop_left]
    rfl
  have present : obu.bareBytes ≠ [] :=
    List.ne_nil_of_length_pos (by rw [length_bareBytes]; exact obu.bareLength_pos)
  rw [split_of_parse present read, List.drop_length, split, readAll_nil]
  rfl

/-- A unit written with its size is read back as it is stored, from its own bytes and whatever
follows them. So units back to back are read back in order without a failure, and a last one without
its size is read back behind them.
-/
theorem written_units_read_back {obus : List Obu}
    (addressable : ∀ obu ∈ obus, obu.payload.length < UInt64.size)
    : (∀ obu ∈ obus, ∀ rest,
          parse (obu.toBytes ++ rest) = .ok (obu.stored, obu.toBytes.length))
      ∧ SplitAs (joinBytes obus) (obus.map fun obu => (obu.stored, obu.toBytes.length)) none
      ∧ ∀ last : Obu,
          SplitAs (joinBytes obus ++ last.bareBytes)
            ((obus.map fun obu => (obu.stored, obu.toBytes.length))
              ++ [(last.bare, last.bareBytes.length)])
            none := by
  refine ⟨?unit, ?stream, ?last⟩
  case unit => exact fun obu member rest => parse_toBytes (addressable obu member) rest
  case stream => exact splitAs_of_split (split_joinBytes addressable)
  case last =>
    intro last
    refine splitAs_of_split ?_
    rw [split_joinBytes_append addressable, split_bareBytes]

/-- A unit whose fields are all too wide: of its number 0xF6 four bits are left, those of a frame.
-/
def wideUnit : Obu :=
  ⟨⟨.reserved 0xF6, some ⟨0xFF, 0xFE, 0xFD⟩, false, true⟩, [0x80, 0x00]⟩

/-- The unit with the fields cut is read back twice, with its size and then without. -/
theorem written_units_read_back_wide
    : wideUnit.payload.length < UInt64.size
      ∧ SplitAs [0x37, 0xF5, 0x02, 0x80, 0x00, 0x35, 0xF5, 0x80, 0x00]
          [(⟨⟨.frame, some ⟨7, 2, 5⟩, true, true⟩, [0x80, 0x00]⟩, 5),
            (⟨⟨.frame, some ⟨7, 2, 5⟩, false, true⟩, [0x80, 0x00]⟩, 4)]
          none := by
  have addressable : ∀ obu ∈ [wideUnit], obu.payload.length < UInt64.size := by decide
  have stream
      : joinBytes [wideUnit] ++ wideUnit.bareBytes
        = [0x37, 0xF5, 0x02, 0x80, 0x00, 0x35, 0xF5, 0x80, 0x00] := by
    decide +kernel
  have taken : wideUnit.toBytes.length = 5 := by decide +kernel
  have both := (written_units_read_back addressable).2.2 wideUnit
  rw [stream, List.map_singleton, taken] at both
  exact ⟨addressable wideUnit List.mem_cons_self, both⟩

end Av1Transport.Obu
