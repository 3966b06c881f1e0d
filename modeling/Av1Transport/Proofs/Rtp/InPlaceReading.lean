import Av1Transport.Proofs.Rtp.HeaderExtents
import Av1Transport.Rtp.Packet

/-! Reading in place over older headers and packets.
Main statement: whatever was read before, a packet that is read over it is the packet that the bytes
spell, and a failure is the same failure and leaves the older payload.
-/

namespace Av1Transport.Rtp

/-- What is put behind one item after another stands behind them in order, by induction on the items
that are put there.
-/
theorem run_forM_push {α σ : Type} (hold : List α → σ) {push : α → σ → σ}
    (pushed : ∀ earlier item, push item (hold earlier) = hold (earlier ++ [item]))
    (items earlier : List α)
    : (items.forM fun item => (modify (push item) : EStateM Error σ Unit)).run (hold earlier)
      = .ok () (hold (earlier ++ items)) := by
  induction items generalizing earlier with
  | nil => simp
  | cons item items ih =>
      have later := ih (earlier ++ [item])
      rw [← pushed, List.append_assoc, List.singleton_append] at later
      exact later

namespace Header

theorem run_clearInPlace (header : Header) : clearInPlace.run header = .ok () header.clear :=
  rfl

theorem run_readFixedInPlace (bytes : Bytes) (header : Header)
    : (readFixedInPlace bytes).run header
      = match header.readFixed? bytes with
        | none => .error .shortHeader header
        | some (fixed, count, rest) => .ok (count, rest) fixed := by
  cases read : header.readFixed? bytes with
  | none =>
      unfold readFixedInPlace
      split
      next => cases read
      next => rfl
  | some found =>
      unfold readFixed? at read
      split at read
      next =>
        cases read
        rfl
      next => cases read

theorem run_pushCsrcs (csrcs : List UInt32) (header : Header)
    : (csrcs.forM fun csrc => (modify (pushCsrc csrc) : EStateM Error Header Unit)).run header
      = .ok () { header with csrcs := header.csrcs ++ csrcs } :=
  run_forM_push (fun csrcs => { header with csrcs }) (fun _ _ => rfl) csrcs header.csrcs

theorem run_pushExtensions (extensions : List Extension) (header : Header)
    : (extensions.forM fun extension =>
          (modify (pushExtension extension) : EStateM Error Header Unit)).run header
      = .ok () { header with extensions := header.extensions ++ extensions } :=
  run_forM_push (fun extensions => { header with extensions }) (fun _ _ => rfl) extensions
    header.extensions

/-- Sources behind none are all that there are. -/
theorem run_readCsrcsInPlace {header : Header} (cleared : header.csrcs = []) (count : Nat)
    (bytes : Bytes)
    : (readCsrcsInPlace count bytes).run header
      = match readWords count bytes with
        | none => .error .shortHeader header
        | some (csrcs, rest) => .ok rest { header with csrcs } := by
  unfold readCsrcsInPlace
  cases readWords count bytes with
  | none => rfl
  | some found =>
      dsimp only
      rw [EStateM.run_bind, run_pushCsrcs, cleared]
      rfl

/-- Extensions behind none are all that there are, by cases on whether the four bytes of their front
are there.
-/
theorem run_readExtensionsInPlace {header : Header} (cleared : header.extensions = [])
    (bytes : Bytes)
    : (readExtensionsInPlace bytes).run header = resultOf (header.readExtensions bytes) := by
  rcases bytes with _ | ⟨c1, _ | ⟨c0, _ | ⟨n1, _ | ⟨n0, rest⟩⟩⟩⟩
  · rfl
  · rfl
  · rfl
  · rfl
  · rw [readExtensionsInPlace, readExtensions, EStateM.run_bind, EStateM.run_modify]
    dsimp only
    cases splitExact? (4 * (word16 n1 n0).toNat) rest with
    | none => rfl
    | some found =>
        dsimp only
        rw [EStateM.run_bind, run_pushExtensions, cleared]
        simp only [List.nil_append, profile]
        cases (ExtensionRegion.read (.ofCode (word16 c1 c0)) found.1).failure <;> rfl

theorem csrcs_of_readFixed? {old fixed : Header} {bytes rest : Bytes} {count : Nat}
    (read : old.readFixed? bytes = some (fixed, count, rest))
    : fixed.csrcs = old.csrcs := by
  unfold readFixed? at read
  split at read
  next =>
    cases read
    rfl
  next => cases read

/-- Read in place, a header is what reading makes of it apart. Witness: nothing was left in front of
the sources and the extensions that are put behind one another.
-/
theorem run_readInPlace (bytes : Bytes) (header : Header)
    : (readInPlace bytes).run header = resultOf (header.overwrite bytes) := by
  unfold readInPlace overwrite
  rw [EStateM.run_bind, run_clearInPlace]
  dsimp only
  rw [EStateM.run_bind, run_readFixedInPlace]
  cases first : header.clear.readFixed? bytes with
  | none => rfl
  | some found =>
      obtain ⟨fixed, count, rest⟩ := found
      have sources : fixed.csrcs = [] := csrcs_of_readFixed? first
      have extensions : fixed.extensions = [] := by
        obtain ⟨-, -, -, -, -, same, -⟩ := readFixed?_some first
        exact same
      dsimp only
      rw [EStateM.run_bind, run_readCsrcsInPlace sources]
      cases readWords count rest with
      | none => rfl
      | some found =>
          obtain ⟨csrcs, behind⟩ := found
          have sourced : ({ fixed with csrcs } : Header).extensions = [] := extensions
          dsimp only
          rw [EStateM.run_bind, EStateM.run_get]
          dsimp only
          by_cases extended : fixed.hasExtension = true
          · rw [if_pos extended, if_pos extended, EStateM.run_bind,
              run_readExtensionsInPlace sourced]
            rcases Header.readExtensions _ behind with ⟨_ | _, filled⟩ <;> rfl
          · rw [if_neg extended, if_neg extended]
            rfl

-----------------------------------------------------------------------------------------
-- Older headers
-----------------------------------------------------------------------------------------

/-- What becomes of reading does not depend on the older header. Where the fixed bytes are all there
nothing else does either.
-/
theorem overwrite_eq (old other : Header) (bytes : Bytes)
    : (old.overwrite bytes).1 = (other.overwrite bytes).1
      ∧ (fixedLength ≤ bytes.length → old.overwrite bytes = other.overwrite bytes) := by
  by_cases few : bytes.length < fixedLength
  · refine ⟨?_, fun enough => absurd few (Nat.not_lt_of_le enough)⟩
    simp only [overwrite, readFixed?_of_short _ few]
  · have enough := Nat.le_of_not_lt few
    obtain ⟨fixed, -, found⟩ := other.clear.exists_fixed enough
    have read := found (bytes.drop fixedLength)
    rw [List.take_append_drop] at read
    have all : old.overwrite bytes = other.overwrite bytes := by
      simp only [overwrite, readFixed?_clear old other enough, read]
    exact ⟨congrArg Prod.fst all, fun _ => all⟩

/-- Where reading succeeds nothing of the older header is left. -/
theorem overwrite_eq_ok_iff (old : Header) {bytes : Bytes} {header : Header} {count : Nat}
    : old.overwrite bytes = (.ok count, header) ↔ parse bytes = .ok (header, count) := by
  obtain ⟨outcome, all⟩ := old.overwrite_eq blank bytes
  rw [parse_eq_ok_iff]
  by_cases few : bytes.length < fixedLength
  · have failed (any : Header) : any.overwrite bytes ≠ (.ok count, header) := by
      simp [overwrite, readFixed?_of_short _ few]
    exact iff_of_false (failed old) (failed blank)
  · rw [all (Nat.le_of_not_lt few)]

theorem overwrite_fst_eq_error_iff (old : Header) {bytes : Bytes} {failure : Error}
    : (old.overwrite bytes).1 = .error failure ↔ parse bytes = .error failure := by
  rw [parse_eq_error_iff, (old.overwrite_eq blank bytes).1]

end Header

namespace Packet

theorem run_onHeader {α : Type} (action : EStateM Error Header α) (packet : Packet)
    : (onHeader action).run packet
      = match action.run packet.header with
        | .ok value header => .ok value { packet with header }
        | .error failure header => .error failure { packet with header } :=
  rfl

/-- Without padding its size is left as it was, which is that of a header just read. -/
theorem run_readPayloadInPlace {packet : Packet} (cleared : packet.header.paddingSize = 0)
    (rest : Bytes)
    : (readPayloadInPlace rest).run packet
      = match splitPadding packet.header.padding rest with
        | .error failure => .error failure packet
        | .ok (payload, paddingSize) => .ok () ⟨{ packet.header with paddingSize }, payload⟩ := by
  unfold readPayloadInPlace splitPadding
  rw [EStateM.run_bind, EStateM.run_get]
  dsimp only
  split
  next =>
    cases rest.getLast? with
    | none => rfl
    | some size =>
        dsimp only
        split <;> rfl
  next =>
    dsimp only
    rw [← cleared]
    rfl

/-- Read in place, a packet is what reading makes of it apart. -/
theorem run_readInPlace (bytes : Bytes) (packet : Packet)
    : (readInPlace bytes).run packet = resultOf (packet.overwrite bytes) := by
  unfold readInPlace overwrite
  rw [EStateM.run_bind, run_onHeader, Header.run_readInPlace]
  cases read : packet.header.overwrite bytes with
  | mk outcome header =>
      cases outcome with
      | error failure => rfl
      | ok count =>
          have unpadded : header.paddingSize = 0 := (Header.overwrite_ok read).2.1
          simp only [resultOf]
          rw [run_readPayloadInPlace unpadded]
          cases splitPadding header.padding (bytes.drop count) <;> rfl

-----------------------------------------------------------------------------------------
-- Older packets
-----------------------------------------------------------------------------------------

/-- A failure, of the header or of the padding, keeps the older payload. -/
theorem payload_of_overwrite_error {old left : Packet} {bytes : Bytes} {failure : Error}
    (failed : old.overwrite bytes = (.error failure, left))
    : left.payload = old.payload := by
  unfold overwrite at failed
  split at failed
  next =>
    cases failed
    rfl
  next =>
    split at failed
    next =>
      cases failed
      rfl
    next => cases failed

/-- What becomes of reading does not depend on the older packet, and where it succeeds, the packet
does not either. Witness: the header does not, and the payload is cut out of the bytes.
-/
theorem overwrite_eq (old other : Packet) (bytes : Bytes)
    : (old.overwrite bytes).1 = (other.overwrite bytes).1
      ∧ ∀ packet,
          old.overwrite bytes = (.ok (), packet) ↔ other.overwrite bytes = (.ok (), packet) := by
  obtain ⟨outcome, all⟩ := old.header.overwrite_eq other.header bytes
  by_cases few : bytes.length < fixedLength
  · have short (any : Packet) : (any.overwrite bytes).1 = .error .shortHeader := by
      simp [overwrite, Header.overwrite, Header.readFixed?_of_short _ few]
    have failed (any packet : Packet) : any.overwrite bytes ≠ (.ok (), packet) := by
      intro read
      have fails := short any
      rw [read] at fails
      cases fails
    exact ⟨(short old).trans (short other).symm,
      fun packet => iff_of_false (failed old packet) (failed other packet)⟩
  · unfold overwrite
    rw [all (Nat.le_of_not_lt few)]
    rcases other.header.overwrite bytes with ⟨failure | count, header⟩
    · exact ⟨rfl, by simp⟩
    · dsimp only
      cases splitPadding header.padding (bytes.drop count) with
      | error failure => exact ⟨rfl, by simp⟩
      | ok found => exact ⟨rfl, fun _ => Iff.rfl⟩

theorem parse_eq_ok_iff {bytes : Bytes} {packet : Packet}
    : parse bytes = .ok packet ↔ blank.overwrite bytes = (.ok (), packet) := by
  unfold parse
  split
  next found => simp [found]
  next found => simp [found]

theorem parse_eq_error_iff {bytes : Bytes} {failure : Error}
    : parse bytes = .error failure ↔ (blank.overwrite bytes).1 = .error failure := by
  unfold parse
  split
  next found => simp [found]
  next found => simp [found]

/-- Reading over an older packet or header, in place or apart, succeeds exactly where the bytes spell
one, and gives that one: nothing is left of what was read before. Where it fails, the failure is that
of the bytes alone, and the packet keeps its payload.
-/
theorem overwrite_iff_parse
    : (∀ (old : Packet) (bytes : Bytes),
          (readInPlace bytes).run old = resultOf (old.overwrite bytes)
          ∧ (∀ packet, old.overwrite bytes = (.ok (), packet) ↔ parse bytes = .ok packet)
          ∧ (∀ failure,
              (old.overwrite bytes).1 = .error failure ↔ parse bytes = .error failure)
          ∧ ∀ failure left,
              old.overwrite bytes = (.error failure, left) → left.payload = old.payload)
      ∧ ∀ (old : Header) (bytes : Bytes),
          (Header.readInPlace bytes).run old = resultOf (old.overwrite bytes)
          ∧ (∀ header count,
              old.overwrite bytes = (.ok count, header)
              ↔ Header.parse bytes = .ok (header, count))
          ∧ ∀ failure,
              (old.overwrite bytes).1 = .error failure ↔ Header.parse bytes = .error failure := by
  refine ⟨?packets, ?headers⟩
  case packets =>
    intro old bytes
    obtain ⟨outcome, read⟩ := old.overwrite_eq blank bytes
    refine ⟨run_readInPlace bytes old, ?_, ?_, fun _ _ => payload_of_overwrite_error⟩
    · intro packet
      rw [parse_eq_ok_iff, read]
    · intro failure
      rw [parse_eq_error_iff, outcome]
  case headers =>
    intro old bytes
    exact ⟨Header.run_readInPlace bytes old, fun _ _ => old.overwrite_eq_ok_iff,
      fun _ => old.overwrite_fst_eq_error_iff⟩

/-- Bare fixed bytes over a packet with a source, an extension, padding and a payload. -/
example
    : let old : Packet :=
        { header :=
            { Header.blank with
              hasExtension := true
              csrcs := [7]
              extensionCode := 0x1000
              extensions := [⟨3, [1]⟩]
              paddingSize := 4 }
          payload := [9] }
      (readInPlace [0x80, 0, 0, 0, 0, 0, 0, 0, 0, 0, 0, 0]).run old = .ok () blank :=
  rfl

end Packet

end Av1Transport.Rtp
