import Av1Transport.Proofs.Rtp.ReadHeaders
import Av1Transport.Rtp.Header
import Mathlib.Data.List.Nodup

/-! Edits of single extensions.
An edit acts on the first extension that has its id and leaves all others as they are. So the
extensions work as a map from ids to payloads exactly where no id is repeated.
-/

namespace Av1Transport.Rtp.Header

-----------------------------------------------------------------------------------------
-- Extensions under one id
-----------------------------------------------------------------------------------------

/-- The payloads of the extensions under an id, in order. -/
def under (id : UInt8) (extensions : List Extension) : List Bytes :=
  (extensions.filter fun extension => extension.id == id).map Extension.payload

/-- The extensions that have other ids, in order. -/
def besides (id : UInt8) (extensions : List Extension) : List Extension :=
  extensions.filter fun extension => extension.id != id

theorem under_cons (id : UInt8) (extension : Extension) (rest : List Extension)
    : under id (extension :: rest)
      = if extension.id = id then extension.payload :: under id rest else under id rest := by
  simp only [under, List.filter_cons, beq_iff_eq]
  split <;> rfl

theorem besides_cons (id : UInt8) (extension : Extension) (rest : List Extension)
    : besides id (extension :: rest)
      = if extension.id = id then besides id rest else extension :: besides id rest := by
  simp only [besides, List.filter_cons, bne_iff_ne, ite_not]

/-- An id is listed once for each payload under it. -/
theorem count_ids (id : UInt8) (extensions : List Extension)
    : (extensions.map Extension.id).count id = (under id extensions).length := by
  rw [under, List.length_map, List.count_eq_length_filter, List.filter_map, List.length_map]
  rfl

/-- No payload is lost with the extensions under another id. -/
theorem under_besides {id other : UInt8} (distinct : other ≠ id) (extensions : List Extension)
    : under other (besides id extensions) = under other extensions := by
  rw [under, under, besides, List.filter_filter]
  congr 2
  funext extension
  by_cases same : extension.id = other
  · simp [same, distinct]
  · simp [same]

theorem replaceOrAdd_cons (extension : Extension) (rest : List Extension) (id : UInt8)
    (payload : Bytes)
    : replaceOrAdd (extension :: rest) id payload
      = if extension.id = id then
          ⟨id, payload⟩ :: rest
        else
          extension :: replaceOrAdd rest id payload := by
  unfold replaceOrAdd
  by_cases same : extension.id = id
  · simp [List.findIdx?_cons, same]
  · simp only [List.findIdx?_cons, beq_iff_eq, same, if_false]
    cases rest.findIdx? fun extension => extension.id == id <;> rfl

/-- A payload is put in the place of the first one under its id. Witness: induction up to that
extension.
-/
theorem under_replaceOrAdd (id : UInt8) (payload : Bytes) (extensions : List Extension)
    : under id (replaceOrAdd extensions id payload)
        = payload :: (under id extensions).tail
      ∧ besides id (replaceOrAdd extensions id payload) = besides id extensions := by
  induction extensions with
  | nil => simp [replaceOrAdd, under, besides]
  | cons extension rest ih =>
      rw [replaceOrAdd_cons, under_cons, besides_cons]
      by_cases same : extension.id = id
      · rw [if_pos same, if_pos same, if_pos same, under_cons, besides_cons, if_pos rfl,
          if_pos rfl]
        exact ⟨rfl, rfl⟩
      · rw [if_neg same, if_neg same, if_neg same, under_cons, besides_cons, if_neg same,
          if_neg same, ih.2]
        exact ⟨ih.1, rfl⟩

/-- What is removed is the first payload under the id. -/
theorem under_eraseP (id : UInt8) (extensions : List Extension)
    : under id (extensions.eraseP fun extension => extension.id == id)
        = (under id extensions).tail
      ∧ besides id (extensions.eraseP fun extension => extension.id == id)
        = besides id extensions := by
  induction extensions with
  | nil => exact ⟨rfl, rfl⟩
  | cons extension rest ih =>
      rw [List.eraseP_cons, under_cons, besides_cons]
      by_cases same : extension.id = id
      · simp [same]
      · simp only [beq_eq_false_iff_ne.mpr same, cond_false, if_neg same, under_cons,
          besides_cons, ih]
        trivial

-----------------------------------------------------------------------------------------
-- One edit
-----------------------------------------------------------------------------------------

/-- The id that an edit is about. -/
def Edit.id : Edit → UInt8
  | set id _ => id
  | remove id => id

/-- The payload that an edit puts under its id. -/
def Edit.payload? : Edit → Option Bytes
  | set _ payload => some payload
  | remove _ => none

/-- In place, an edit makes of the header what it makes of it apart. Where it fails, the header
stays as it was.
-/
theorem run_edit (change : Edit) (header : Header)
    : (edit change).run header
      = match change.apply header with
        | .error failure => .error failure header
        | .ok changed => .ok () changed := by
  cases change with
  | set id payload =>
      simp only [edit, Edit.apply, setExtension, EStateM.run_bind, EStateM.run_get]
      cases validated : ExtensionProfile.validate
          (if header.hasExtension then header.profile else profileFor payload.length) id
          payload.length with
      | error failure => simp
      | ok =>
          cases extended : header.hasExtension with
          | false => simp
          | true => simp [← extended]
  | remove id =>
      simp only [edit, Edit.apply, removeExtension, EStateM.run_bind, EStateM.run_get]
      cases extended : header.hasExtension with
      | false => simp
      | true =>
          -- whether there is an extension to remove is the same question as where it is
          simp only [List.eraseP_eq_eraseIdx, ← List.findIdx?_isSome]
          cases header.extensions.findIdx? fun extension => extension.id == id with
          | none => simp
          | some i => simp [← extended]

/-- The layout that has to hold a payload of this length. -/
def layoutFor (header : Header) (length : Nat) : ExtensionProfile :=
  if header.hasExtension then header.profile else profileFor length

theorem setExtension_ok {before after : Header} {id : UInt8} {payload : Bytes}
    (changed : before.setExtension id payload = .ok after)
    : (before.layoutFor payload.length).accepts id payload.length = true
      ∧ after
        = { before with
            hasExtension := true
            extensionCode := (before.layoutFor payload.length).code
            extensions := replaceOrAdd before.extensions id payload } := by
  simp only [setExtension] at changed
  split at changed
  next => cases changed
  next validated =>
    cases changed
    refine ⟨ExtensionProfile.validate_eq_ok_iff.mp validated, ?_⟩
    unfold layoutFor
    cases before.hasExtension with
    | true => simp [profile]
    | false => simp

theorem removeExtension_ok {before after : Header} {id : UInt8}
    (changed : before.removeExtension id = .ok after)
    : before.hasExtension = true
      ∧ after
        = { before with
            extensions := before.extensions.eraseP fun extension => extension.id == id } := by
  unfold removeExtension at changed
  split at changed
  next extended =>
    split at changed
    next =>
      cases changed
      exact ⟨extended, rfl⟩
    next => cases changed
  next => cases changed

/-- What an edit that succeeds does: its payload takes the place of the first one under its id,
and nothing else changes, except that extensions are on and have a layout.
-/
structure ChangesFirst (change : Edit) (before after : Header) : Prop where
  replaced
    : under change.id after.extensions
      = change.payload?.toList ++ (under change.id before.extensions).tail
  others : besides change.id after.extensions = besides change.id before.extensions
  kept
    : after
      = { before with
          hasExtension := true
          extensionCode := after.extensionCode
          extensions := after.extensions }

theorem changesFirst_of_apply {change : Edit} {before after : Header}
    (changed : change.apply before = .ok after)
    : ChangesFirst change before after := by
  cases change with
  | set id payload =>
      obtain ⟨-, rfl⟩ := setExtension_ok changed
      obtain ⟨replaced, others⟩ := under_replaceOrAdd id payload before.extensions
      exact ⟨replaced, others, rfl⟩
  | remove id =>
      obtain ⟨extended, rfl⟩ := removeExtension_ok changed
      obtain ⟨removed, others⟩ := under_eraseP id before.extensions
      exact ⟨removed, others, by simp [extended]⟩

/-- An edit succeeds in place where it succeeds apart. -/
theorem run_edit_eq_ok_iff {change : Edit} {before after : Header}
    : (edit change).run before = .ok () after ↔ change.apply before = .ok after := by
  rw [run_edit]
  cases change.apply before <;> simp

/-- An edit that fails changes nothing. -/
theorem eq_of_run_edit_error {change : Edit} {before left : Header} {failure : Error}
    (failed : (edit change).run before = .error failure left)
    : left = before := by
  rw [run_edit] at failed
  split at failed
  next =>
    cases failed
    rfl
  next => cases failed

-----------------------------------------------------------------------------------------
-- Edits one after another
-----------------------------------------------------------------------------------------

/-- An edit leaves the header as it was, or it succeeds. -/
theorem leftBy_cases (header : Header) (change : Edit)
    : header.leftBy change = header ∨ change.apply header = .ok (header.leftBy change) := by
  rw [leftBy, run_edit]
  cases change.apply header with
  | error failure => exact .inl rfl
  | ok changed => exact .inr rfl

/-- What every edit that succeeds keeps is kept by all of them, by induction on the edits. -/
theorem edited_induction {motive : Header → Prop}
    (step
      : ∀ {before after : Header} {change : Edit},
          motive before → change.apply before = .ok after → motive after)
    {header : Header} (start : motive header) (changes : List Edit)
    : motive (header.edited changes) := by
  induction changes generalizing header with
  | nil => exact start
  | cons change rest ih =>
      have first : motive (header.leftBy change) := by
        rcases header.leftBy_cases change with same | changed
        · rw [same]
          exact start
        · exact step start changed
      exact ih first

/-- No id is repeated. -/
def DistinctIds (header : Header) : Prop :=
  (header.extensions.map Extension.id).Nodup

instance (header : Header) : Decidable header.DistinctIds :=
  inferInstanceAs (Decidable (List.Nodup _))

theorem distinctIds_iff (header : Header)
    : header.DistinctIds ↔ ∀ id, (under id header.extensions).length ≤ 1 := by
  simp only [DistinctIds, List.nodup_iff_count_le_one, count_ids]

/-- No edit repeats an id. -/
theorem ChangesFirst.distinctIds {change : Edit} {before after : Header}
    (changed : ChangesFirst change before after) (distinct : before.DistinctIds)
    : after.DistinctIds := by
  rw [distinctIds_iff] at distinct ⊢
  intro id
  by_cases same : id = change.id
  · have once := distinct change.id
    have single : change.payload?.toList.length ≤ 1 := by cases change <;> simp [Edit.payload?]
    rw [same, changed.replaced, List.length_append, List.length_tail]
    omega
  · rw [← under_besides same, changed.others, under_besides same]
    exact distinct id

theorem distinctIds_edited {header : Header} (distinct : header.DistinctIds)
    (changes : List Edit)
    : (header.edited changes).DistinctIds :=
  edited_induction
    (fun distinct changed => (changesFirst_of_apply changed).distinctIds distinct) distinct changes

-----------------------------------------------------------------------------------------
-- Extensions as a map
-----------------------------------------------------------------------------------------

/-- How often an id is listed, if extensions are on. -/
def timesListed (header : Header) (id : UInt8) : Option Nat :=
  header.extensionIds?.map (List.count id)

/-- An edit updates a map from ids to payloads: what is set is found and listed once, what is
removed is not found and not listed, and all other extensions stay as they are, in their order.
-/
def UpdatesMap (change : Edit) (before after : Header) : Prop :=
  match change with
  | .set id payload =>
      after.extension? id = some payload
      ∧ after.timesListed id = some 1
      ∧ besides id after.extensions = besides id before.extensions
  | .remove id =>
      after.extension? id = none
      ∧ after.timesListed id = some 0
      ∧ besides id after.extensions = besides id before.extensions

theorem extension?_eq {header : Header} (extended : header.hasExtension = true) (id : UInt8)
    : header.extension? id = (under id header.extensions).head? := by
  rw [extension?, if_pos extended, under, List.head?_map, List.head?_filter]

theorem timesListed_eq {header : Header} (extended : header.hasExtension = true) (id : UInt8)
    : header.timesListed id = some (under id header.extensions).length := by
  rw [timesListed, extensionIds?, if_pos extended, Option.map_some, count_ids]

/-- Where no id is repeated there is nothing behind the first payload under an id. -/
theorem ChangesFirst.updatesMap {change : Edit} {before after : Header}
    (changed : ChangesFirst change before after) (distinct : before.DistinctIds)
    : UpdatesMap change before after := by
  have extended : after.hasExtension = true := by rw [changed.kept]
  have nothing : (under change.id before.extensions).tail = [] := by
    have once := before.distinctIds_iff.mp distinct change.id
    rw [← List.length_eq_zero_iff, List.length_tail]
    omega
  have replaced : under change.id after.extensions = change.payload?.toList := by
    rw [changed.replaced, nothing, List.append_nil]
  have found : after.extension? change.id = change.payload?.toList.head? := by
    rw [extension?_eq extended, replaced]
  have listed : after.timesListed change.id = some change.payload?.toList.length := by
    rw [timesListed_eq extended, replaced]
  cases change with
  | set id payload => exact ⟨found, listed, changed.others⟩
  | remove id => exact ⟨found, listed, changed.others⟩

/-- What is there can be removed. -/
theorem exists_removed {header : Header} (extended : header.hasExtension = true) {id : UInt8}
    (present : under id header.extensions ≠ [])
    : ∃ after, Edit.apply (.remove id) header = .ok after := by
  have found : (header.extensions.any fun extension => extension.id == id) = true := by
    obtain ⟨payload, member⟩ := List.exists_mem_of_ne_nil _ present
    obtain ⟨extension, member, -⟩ := List.mem_map.mp member
    exact List.any_eq_true.mpr ⟨extension, List.mem_filter.mp member⟩
  simp only [Edit.apply, removeExtension, extended, found, if_true]
  exact ⟨_, rfl⟩

/-- If every edit updates a map, no id is repeated. Witness: one that is would be listed after it
was removed.
-/
theorem distinctIds_of_updatesMap {header : Header} (extended : header.hasExtension = true)
    (updates
      : ∀ (change : Edit) (after : Header),
          change.apply header = .ok after → UpdatesMap change header after)
    : header.DistinctIds := by
  rw [distinctIds_iff]
  intro id
  by_cases present : under id header.extensions = []
  · simp [present]
  · obtain ⟨after, removed⟩ := exists_removed extended present
    have changed := changesFirst_of_apply removed
    obtain ⟨-, listed, -⟩ := updates _ _ removed
    have on : after.hasExtension = true := by rw [changed.kept]
    have behind : under id after.extensions = (under id header.extensions).tail := changed.replaced
    rw [timesListed_eq on, behind, List.length_tail, Option.some_inj] at listed
    omega

-----------------------------------------------------------------------------------------
-- Headers that were received
-----------------------------------------------------------------------------------------

/-- On a header that was received all edits update a map exactly where no id is repeated in it.
With and without repeated ids, an edit that succeeds changes the first extension under its id.
-/
theorem edits_update_map_iff {old header : Header} {bytes : Bytes} {count : Nat}
    (read : old.overwrite bytes = (.ok count, header))
    : (header.DistinctIds
        ↔ ∀ (changes : List Edit) (change : Edit) (after : Header),
            (edit change).run (header.edited changes) = .ok () after
            → UpdatesMap change (header.edited changes) after)
      ∧ ∀ (changes : List Edit) (change : Edit) (after : Header),
          (edit change).run (header.edited changes) = .ok () after
          → ChangesFirst change (header.edited changes) after := by
  have changesFirst (changes : List Edit) (change : Edit) (after : Header)
      (done : (edit change).run (header.edited changes) = .ok () after)
      : ChangesFirst change (header.edited changes) after :=
    changesFirst_of_apply (run_edit_eq_ok_iff.mp done)
  refine ⟨⟨?laws, ?distinct⟩, changesFirst⟩
  case laws =>
    intro distinct changes change after done
    exact (changesFirst changes change after done).updatesMap (distinctIds_edited distinct changes)
  case distinct =>
    intro laws
    have unedited (change : Edit) (after : Header) (done : change.apply header = .ok after)
        : UpdatesMap change header after :=
      laws [] change after (run_edit_eq_ok_iff.mpr done)
    cases extended : header.hasExtension with
    | true => exact distinctIds_of_updatesMap extended unedited
    | false =>
        -- nothing is left of extensions that are off
        have none := ((overwrite_ok read).1.bare extended).2
        simp [DistinctIds, none]

/-- A header with two extensions of one byte, the first with the id 1. -/
def twoExtensions (second : UInt8) : Header :=
  { blank with
    hasExtension := true
    payloadType := 96
    sequenceNumber := 1
    timestamp := 2
    ssrc := 3
    extensionCode := 0xBEDE
    extensions := [⟨1, [0xAA]⟩, ⟨second, [0xBB]⟩] }

/-- The bytes of that header. The last byte but one starts the second extension. -/
def twoExtensionBytes (start : UInt8) : Bytes :=
  [0x90, 0x60, 0, 1, 0, 0, 0, 2, 0, 0, 0, 3, 0xBE, 0xDE, 0, 1, 0x10, 0xAA, start, 0xBB]

/-- The second extension has an id of its own. -/
theorem edits_update_map_two_ids
    : blank.overwrite (twoExtensionBytes 0x20) = (.ok 20, twoExtensions 2)
      ∧ (∀ (changes : List Edit) (change : Edit) (after : Header),
          (edit change).run ((twoExtensions 2).edited changes) = .ok () after
          → UpdatesMap change ((twoExtensions 2).edited changes) after)
      ∧ ∃ after,
          (edit (.remove 1)).run ((twoExtensions 2).edited [.set 1 [0xCC]]) = .ok () after
          ∧ after.extension? 1 = none
          ∧ after.extension? 2 = some [0xBB] := by
  have written : (twoExtensions 2).toBytesWith false = .ok (twoExtensionBytes 0x20) := rfl
  have read : blank.overwrite (twoExtensionBytes 0x20) = (.ok 20, twoExtensions 2) :=
    overwrite_of_toBytesWith written blank []
  exact ⟨read, (edits_update_map_iff read).1.mp (by decide), _, rfl, rfl, rfl⟩

/-- The second extension has the id of the first. A payload that is set is then listed twice, and
when the id is removed the second payload comes to light.
-/
theorem edits_update_map_one_id
    : blank.overwrite (twoExtensionBytes 0x10) = (.ok 20, twoExtensions 1)
      ∧ ∃ after left,
          (edit (.set 1 [0xCC])).run (twoExtensions 1) = .ok () after
          ∧ after.timesListed 1 = some 2
          ∧ ¬ UpdatesMap (.set 1 [0xCC]) (twoExtensions 1) after
          ∧ (edit (.remove 1)).run after = .ok () left
          ∧ left.extension? 1 = some [0xBB]
          ∧ ¬ UpdatesMap (.remove 1) after left := by
  have written : (twoExtensions 1).toBytesWith false = .ok (twoExtensionBytes 0x10) := rfl
  refine ⟨overwrite_of_toBytesWith written blank [], _, _, rfl, rfl, ?set, rfl, rfl, ?removed⟩
  case set =>
    rintro ⟨-, listed, -⟩
    exact absurd listed (by decide)
  case removed =>
    rintro ⟨-, listed, -⟩
    exact absurd listed (by decide)

end Av1Transport.Rtp.Header
