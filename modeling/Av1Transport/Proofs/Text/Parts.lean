import Mathlib.Data.List.TakeDrop
import Mathlib.Data.List.TakeWhile
import Av1Transport.Text

/-! The parts of texts that are joined at marks, and the two parts around a first mark. -/

namespace Av1Transport.Text

-----------------------------------------------------------------------------------------
-- All marks
-----------------------------------------------------------------------------------------

/-- There is always a part. -/
theorem segments_ne_nil (mark : Char) (text : List Char) : segments mark text ≠ [] := by
  cases text with
  | nil => simp [segments]
  | cons char text =>
      rw [segments, List.foldr_cons]
      split
      · simp
      · split <;> simp

/-- A mark parts the text in front of it from the text behind it, by induction on the former. -/
theorem segments_append_cons (mark : Char) (left right : List Char)
    : segments mark (left ++ mark :: right) = segments mark left ++ segments mark right := by
  induction left with
  | nil => simp [segments]
  | cons char left ih =>
      obtain ⟨part, parts, front⟩ := List.exists_cons_of_ne_nil (segments_ne_nil mark left)
      rw [front] at ih
      simp only [segments] at ih front ⊢
      by_cases marked : char = mark <;> simp [marked, ih, front]

/-- Joined texts have the parts of each of them, by induction on the texts. -/
theorem segments_intercalate (mark : Char) {texts : List (List Char)} (present : texts ≠ [])
    : segments mark ([mark].intercalate texts) = texts.flatMap (segments mark) := by
  induction texts with
  | nil => exact absurd rfl present
  | cons text rest ih =>
      cases rest with
      | nil => simp
      | cons next rest =>
          rw [List.intercalate_cons_cons, List.append_assoc, List.singleton_append,
            segments_append_cons, ih (List.cons_ne_nil next rest), List.flatMap_cons (x := text)]

-----------------------------------------------------------------------------------------
-- The first mark
-----------------------------------------------------------------------------------------

/-- A text is split at its first mark. -/
theorem splitAtFirst?_append_cons {mark : Char} {before : List Char} (first : mark ∉ before)
    (after : List Char)
    : splitAtFirst? mark (before ++ mark :: after) = some (before, after) := by
  have others : ∀ char ∈ before, (char != mark) = true := by
    intro char member
    exact bne_iff_ne.mpr fun same => first (same ▸ member)
  rw [splitAtFirst?, List.span_eq_takeWhile_dropWhile, List.takeWhile_append_of_pos others,
    List.dropWhile_append_of_pos others]
  simp

theorem splitAtFirst?_of_not_mem {mark : Char} {text : List Char} (h : mark ∉ text)
    : splitAtFirst? mark text = none := by
  have others : ∀ char ∈ text, (char != mark) = true := by
    intro char member
    exact bne_iff_ne.mpr fun same => h (same ▸ member)
  rw [splitAtFirst?, List.span_eq_takeWhile_dropWhile, List.dropWhile_eq_nil_iff.mpr others]

/-- The parts of a split text are told by its first mark. -/
theorem splitAtFirst?_eq_some_iff {mark : Char} {text before after : List Char}
    : splitAtFirst? mark text = some (before, after)
      ↔ text = before ++ mark :: after ∧ mark ∉ before := by
  constructor
  · intro split
    by_cases marked : mark ∈ text
    · obtain ⟨front, back, rfl, first⟩ := List.eq_append_cons_of_mem marked
      rw [splitAtFirst?_append_cons first] at split
      cases split
      exact ⟨rfl, first⟩
    · rw [splitAtFirst?_of_not_mem marked] at split
      cases split
  · rintro ⟨rfl, first⟩
    exact splitAtFirst?_append_cons first after

end Av1Transport.Text
