import Av1Transport.Obu.Stream
import Av1Transport.Proofs.Obu.StreamUnits
import Av1Transport.Reassembly

/-! What is stored for a complete element.
Main statements: an element that spells a unit is stored as that unit with its size, unless its kind
is not sent, and nothing else is ever stored.
-/

namespace Av1Transport.Reassembly

open Av1Transport.Aggregation

/-- What is stored for units: those that are sent, one after the other with their sizes. -/
def storedUnits (units : List Obu) : Bytes :=
  Obu.joinBytes (units.filter Obu.isTransmitted)

@[simp]
theorem storedUnits_nil : storedUnits [] = [] :=
  rfl

@[simp]
theorem storedUnits_append (front back : List Obu)
    : storedUnits (front ++ back) = storedUnits front ++ storedUnits back := by
  simp [storedUnits, Obu.joinBytes]

theorem storedUnits_of_isTransmitted {unit : Obu} (sent : unit.isTransmitted = true)
    : storedUnits [unit] = unit.toBytes := by
  simp [storedUnits, sent, Obu.joinBytes]

theorem storedUnits_of_not_isTransmitted {unit : Obu} (dropped : unit.isTransmitted = false)
    : storedUnits [unit] = [] := by
  simp [storedUnits, dropped, Obu.joinBytes]

/-- The unit that an element spells. Its payload ends where the element's own size says, or with
the element if it has no size.
-/
def elementUnit (element : Bytes) : Except Obu.Error Obu :=
  (Obu.parse element).map Prod.fst

theorem elementUnit_eq_ok_iff {element : Bytes} {obu : Obu}
    : elementUnit element = .ok obu ↔ ∃ count, Obu.parse element = .ok (obu, count) := by
  unfold elementUnit
  cases Obu.parse element with
  | error failure => simp [Except.map]
  | ok read =>
      obtain ⟨unit, count⟩ := read
      simp [Except.map]

/-- Behind a size the payload of an element is that of the unit. Witness: the bytes that are left
are enough for both or for neither.
-/
theorem elementPayload_of_hasSize {header : Obu.Header} (sized : header.hasSize = true)
    {rest : Chunked} {payload : Bytes}
    : (elementPayload header rest).map Chunked.bytes = .ok payload
      ↔ ∃ count, Obu.parsePayload rest.bytes = .ok (payload, count) := by
  rw [bytes_elementPayload, if_pos sized]
  unfold Obu.parsePayload
  cases Leb128.read rest.bytes with
  | error cause => simp
  | ok read =>
      obtain ⟨size, count⟩ := read
      dsimp only
      rw [splitExact?_eq, List.length_drop]
      by_cases short : rest.bytes.length - count < size
      · rw [if_pos short, if_neg (Nat.not_le.mpr short)]
        simp
      · rw [if_neg short, if_pos (Nat.not_lt.mp short)]
        simp

theorem elementPayload_of_not_hasSize {header : Obu.Header} (bare : header.hasSize = false)
    (rest : Chunked)
    : elementPayload header rest = .ok rest := by
  rw [elementPayload, bare]
  rfl

/-- An element spells a unit exactly where its header and its payload are read, by cases on the
size flag.
-/
theorem elementUnit_iff {element : Chunked} {obu : Obu}
    : elementUnit element.bytes = .ok obu
      ↔ Obu.Header.parse element.bytes = .ok obu.header
        ∧ (elementPayload obu.header (element.drop obu.header.size)).map Chunked.bytes
          = .ok obu.payload := by
  rw [elementUnit_eq_ok_iff]
  constructor
  · rintro ⟨count, read⟩
    obtain ⟨front, ⟨sized, taken, behind, _⟩ | ⟨bare, payload, _⟩⟩ := Obu.parse_ok read
    · refine ⟨front, (elementPayload_of_hasSize sized).mpr ⟨taken, ?_⟩⟩
      rw [Chunked.bytes_drop]
      exact behind
    · refine ⟨front, ?_⟩
      rw [elementPayload_of_not_hasSize bare, payload, ← Chunked.bytes_drop]
      rfl
  · rintro ⟨front, behind⟩
    unfold Obu.parse
    rw [front]
    cases sized : obu.header.hasSize with
    | true =>
        obtain ⟨taken, payload⟩ := (elementPayload_of_hasSize sized).mp behind
        rw [Chunked.bytes_drop] at payload
        exact ⟨obu.header.size + taken, by simp only [sized, if_true, payload]⟩
    | false =>
        rw [elementPayload_of_not_hasSize sized] at behind
        have payload : element.bytes.drop obu.header.size = obu.payload := by
          rw [← Chunked.bytes_drop]
          exact Except.ok.inj behind
        exact ⟨element.bytes.length, by simp only [sized, Bool.false_eq_true, if_false, payload]⟩

/-- The element that a sender writes for a unit spells that unit: its header is read back and says
that no size follows.
-/
theorem elementUnit_bareBytes {obu : Obu} (fitted : obu.header.fitted = obu.header)
    : elementUnit obu.bareBytes = .ok ⟨obu.header.withSize false, obu.payload⟩ := by
  have rest : obu.bareBytes.drop obu.header.size = obu.payload := by
    rw [Obu.bareBytes]
    exact List.drop_left' (by simp)
  rw [elementUnit_eq_ok_iff]
  refine ⟨obu.bareBytes.length, ?_⟩
  unfold Obu.parse
  rw [Obu.parse_bareBytes fitted]
  show Except.ok ((⟨obu.header.withSize false, obu.bareBytes.drop obu.header.size⟩ : Obu), _) = _
  rw [rest]

/-- A unit that is sent is stored for the element that spells it, and for an element of another
kind nothing is stored.
-/
theorem storedBytes_of_elementUnit {element : Chunked} {unit : Obu}
    (spelled : elementUnit element.bytes = .ok unit)
    : ∃ stored, storedBytes element = .ok stored ∧ stored.bytes = storedUnits [unit] := by
  obtain ⟨front, behind⟩ := elementUnit_iff.mp spelled
  unfold storedBytes
  rw [Chunked.bytes_take, Obu.Header.parse_take, front]
  cases sent : unit.isTransmitted with
  | false =>
      have kind : unit.header.kind.isTransmitted = false := sent
      rw [storedUnits_of_not_isTransmitted sent]
      exact ⟨.empty, by simp [kind], rfl⟩
  | true =>
      have kind : unit.header.kind.isTransmitted = true := sent
      cases cut : elementPayload unit.header (element.drop unit.header.size) with
      | error failure =>
          rw [cut] at behind
          cases behind
      | ok payload =>
          rw [cut] at behind
          have bytes : payload.bytes = unit.payload := Except.ok.inj behind
          simp only [kind, if_true, cut]
          refine ⟨_, rfl, ?_⟩
          rw [storedUnits_of_isTransmitted sent, Chunked.bytes_append, Chunked.bytes_ofBytes,
            Chunked.size_eq_length, bytes]
          rfl

/-- What is stored for an element is the unit that it spells, with its size, or nothing where its
header has a kind that is not sent.
-/
theorem of_storedBytes {element stored : Chunked} (written : storedBytes element = .ok stored)
    : ∃ header,
        Obu.Header.parse element.bytes = .ok header
        ∧ ((header.kind.isTransmitted = false ∧ stored.bytes = [])
          ∨ (header.kind.isTransmitted = true
            ∧ ∃ obu,
                elementUnit element.bytes = .ok obu
                ∧ obu.isTransmitted = true
                ∧ stored.bytes = obu.toBytes)) := by
  unfold storedBytes at written
  rw [Chunked.bytes_take, Obu.Header.parse_take] at written
  split at written
  next => cases written
  next header front =>
    refine ⟨header, front, ?_⟩
    split at written
    next sent =>
      split at written
      next => cases written
      next payload cut =>
        cases written
        refine Or.inr ⟨sent, ⟨header, payload.bytes⟩, ?_, sent, ?_⟩
        · exact elementUnit_iff.mpr ⟨front, by rw [cut]; rfl⟩
        · rw [Chunked.bytes_append, Chunked.bytes_ofBytes, Chunked.size_eq_length]
          rfl
    next dropped =>
      cases written
      exact Or.inl ⟨Bool.eq_false_iff.mpr dropped, rfl⟩

/-- An element that spells a unit puts what is stored for it at the end of the output. -/
theorem StreamProgress.write_of_elementUnit {element : Chunked} {unit : Obu}
    (spelled : elementUnit element.bytes = .ok unit) (progress : StreamProgress)
    : ∃ next,
        progress.write element = .ok next
        ∧ next.pending = progress.pending
        ∧ next.output.bytes = progress.output.bytes ++ storedUnits [unit] := by
  obtain ⟨stored, written, bytes⟩ := storedBytes_of_elementUnit spelled
  refine ⟨{ progress with output := progress.output ++ stored }, ?_, rfl, ?_⟩
  · simp only [write, written]
  · rw [Chunked.bytes_append, bytes]

end Av1Transport.Reassembly
