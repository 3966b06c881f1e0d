import Av1Transport.Proofs.Sdp.Segments

/-! Reading format parameters from texts that are put together.
Main statement: the segments of a text count from left to right, for each key the last one; others
may stand anywhere between them, segments for different keys may change places, and rendered
parameters behind a text that is read take the place of what it gives.
-/

namespace Av1Transport.Sdp

/-- A segment without a meaning: no equals sign, or some other name in front of the first one. -/
def Foreign (segment : List Char) : Prop :=
  '=' ∉ segment
  ∨ ∃ before after,
      segment = before ++ '=' :: after
      ∧ '=' ∉ before
      ∧ ∀ key : Key, Text.trim before ≠ key.name.toList

/-- Two segments that do not name the same key. -/
def Apart (segment other : List Char) : Prop :=
  ∀ key, Names segment key → ¬ Names other key

namespace FormatParameters

-----------------------------------------------------------------------------------------
-- Texts that are joined
-----------------------------------------------------------------------------------------

/-- Joined texts are read by the segments of each of them. -/
theorem parse_intercalate (texts : List String)
    : parse (";".intercalate texts)
      = default.applySegments (texts.flatMap fun text => Text.segments ';' text.toList) := by
  cases texts with
  | nil => rfl
  | cons text rest =>
      have present : (text :: rest).map String.toList ≠ [] := by simp
      have parts := Text.segments_intercalate ';' present
      rw [List.flatMap_map] at parts
      rw [parse, settings, String.toList_intercalate, applySegments, ← parts]
      rfl

/-- Segments behind others are applied to the parameters that these leave. -/
theorem applySegments_append (parameters : FormatParameters) (front back : List (List Char))
    : parameters.applySegments (front ++ back)
      = (parameters.applySegments front).bind fun middle => middle.applySegments back := by
  induction front generalizing parameters with
  | nil => rfl
  | cons segment front ih =>
      rw [List.cons_append]
      cases found : Setting.ofSegment? segment with
      | none =>
          simp only [applySegments, List.filterMap_cons_none found] at ih ⊢
          exact ih parameters
      | some setting =>
          simp only [applySegments, List.filterMap_cons_some found, applyAll] at ih ⊢
          cases parameters.apply setting with
          | error failure => rfl
          | ok next => exact ih next

theorem applySegments_append_eq_ok_iff {parameters result : FormatParameters}
    {front back : List (List Char)}
    : parameters.applySegments (front ++ back) = .ok result
      ↔ ∃ middle,
          parameters.applySegments front = .ok middle
          ∧ middle.applySegments back = .ok result := by
  rw [applySegments_append]
  cases parameters.applySegments front with
  | error failure => simp [Except.bind]
  | ok middle => simp [Except.bind]

-----------------------------------------------------------------------------------------
-- Segments without a meaning
-----------------------------------------------------------------------------------------

theorem ofSegment?_of_foreign {segment : List Char} (foreign : Foreign segment)
    : Setting.ofSegment? segment = none := by
  rcases foreign with absent | ⟨before, after, rfl, first, other⟩
  · rw [Setting.ofSegment?, Text.splitAtFirst?_of_not_mem absent]
  · have unnamed : Key.ofName? (Text.trim before) = none := by
      cases found : Key.ofName? (Text.trim before) with
      | none => rfl
      | some key => exact absurd (Key.ofName?_eq_some_iff.mp found) (other key)
    rw [Setting.ofSegment?, Text.splitAtFirst?_append_cons first]
    simp only [unnamed, Option.map_none]

/-- Such a segment changes nothing wherever it stands. -/
theorem applySegments_foreign (parameters : FormatParameters) {segment : List Char}
    (foreign : Foreign segment) (front back : List (List Char))
    : parameters.applySegments (front ++ segment :: back)
      = parameters.applySegments (front ++ back) := by
  rw [applySegments, applySegments, List.filterMap_append, List.filterMap_append,
    List.filterMap_cons_none (ofSegment?_of_foreign foreign)]

-----------------------------------------------------------------------------------------
-- Segments for different keys
-----------------------------------------------------------------------------------------

theorem Apart.symm {segment other : List Char} (apart : Apart segment other)
    : Apart other segment :=
  fun key named again => apart key again named

/-- Where no two segments name the same key, the only one that names it is the last one. -/
theorem lastGiven_iff_of_pairwise {segments : List (List Char)} (distinct : segments.Pairwise Apart)
    {key : Key} {start index : UInt8}
    : LastGiven segments key start index
      ↔ (∀ segment ∈ segments, ¬ Names segment key) ∧ index = start
        ∨ ∃ segment ∈ segments, ∃ value, Gives segment key value ∧ key.number value = .ok index := by
  constructor
  · rintro (⟨names, same⟩ | ⟨front, rfl, gives, read, -⟩)
    · exact .inl ⟨names, same⟩
    · exact .inr ⟨_, by simp, _, gives, read⟩
  · rintro (⟨names, same⟩ | ⟨segment, member, value, gives, read⟩)
    · exact .unnamed names same
    · obtain ⟨front, back, rfl⟩ := List.append_of_mem member
      have apart := (List.pairwise_cons.mp (List.pairwise_append.mp distinct).2.1).1
      refine .given front rfl gives read ?_
      intro later behind
      exact apart later behind key ⟨value, gives⟩

/-- Segments for different keys are read alike in any order, if they are read. -/
theorem applySegments_perm {parameters result : FormatParameters}
    {segments reordered : List (List Char)} (distinct : segments.Pairwise Apart)
    (perm : segments.Perm reordered) (read : parameters.applySegments segments = .ok result)
    : parameters.applySegments reordered = .ok result := by
  have again := (perm.pairwise_iff Apart.symm).mp distinct
  obtain ⟨accepted, last⟩ := applySegments_eq_ok_iff.mp read
  refine applySegments_eq_ok_iff.mpr ⟨?_, ?_⟩
  · intro segment member
    exact accepted segment (perm.mem_iff.mpr member)
  · intro key
    have before := (lastGiven_iff_of_pairwise distinct).mp (last key)
    simp only [perm.mem_iff] at before
    exact (lastGiven_iff_of_pairwise again).mpr before

-----------------------------------------------------------------------------------------
-- Rendered parameters
-----------------------------------------------------------------------------------------

/-- The segment that parameters are rendered with for a key. -/
def renderedSegment (parameters : FormatParameters) (key : Key) : List Char :=
  key.name.toList ++ '=' :: (toString (parameters.number key).toNat).toList

theorem gives_renderedSegment (parameters : FormatParameters) (key : Key)
    : Gives (parameters.renderedSegment key) key
        (toString (parameters.number key).toNat).toList := by
  refine ⟨key.name.toList, _, rfl, ?_, ?_, ?_⟩
  · cases key <;> decide
  · cases key <;> decide
  · exact Text.trim_of_forall fun char member =>
      Text.isBlank_of_isDigit (Text.isDigit_of_mem_numeral member)

theorem number_renderedSegment (parameters : FormatParameters) (key : Key)
    : key.number (toString (parameters.number key).toNat).toList
      = .ok (parameters.number key) := by
  rw [Key.number, Text.octet_numeral]
  exact if_pos (parameters.number_lt_known key)

theorem not_mem_renderedSegment (parameters : FormatParameters) (key : Key)
    : ';' ∉ parameters.renderedSegment key := by
  have name : ';' ∉ key.name.toList := by cases key <;> decide
  rw [renderedSegment, List.mem_append, List.mem_cons]
  rintro (inside | mark | inside)
  · exact name inside
  · exact absurd mark (by decide)
  · exact absurd (Text.isDigit_of_mem_numeral inside) (by decide)

/-- Rendered parameters have one segment for each key. -/
theorem segments_render (parameters : FormatParameters)
    : Text.segments ';' parameters.render.toList
      = [Key.profile, .level, .tier].map parameters.renderedSegment := by
  have joined
      : parameters.render.toList
        = [';'].intercalate ([Key.profile, .level, .tier].map parameters.renderedSegment) := by
    have profile : "profile=".toList = "profile".toList ++ ['='] := rfl
    have level : ";level-idx=".toList = ';' :: "level-idx".toList ++ ['='] := rfl
    have tier : ";tier=".toList = ';' :: "tier".toList ++ ['='] := rfl
    simp only [render, String.toList_append, List.map_cons, List.map_nil, renderedSegment, number,
      List.intercalate_cons_cons, List.intercalate_singleton, Key.name, profile, level, tier,
      List.append_assoc, List.cons_append, List.nil_append]
  rw [joined, Text.segments_intercalate ';' (by simp), List.flatMap_map]
  simp only [Text.segments_of_not_mem (not_mem_renderedSegment parameters _)]
  rfl

theorem names_renderedSegment_iff {parameters : FormatParameters} {key other : Key}
    : Names (parameters.renderedSegment key) other ↔ key = other := by
  constructor
  · rintro ⟨value, gives⟩
    exact ((parameters.gives_renderedSegment key).unique gives).1
  · rintro rfl
    exact ⟨_, parameters.gives_renderedSegment key⟩

/-- The rendered segments make the parameters out of any others. -/
theorem applySegments_renderedSegments (start parameters : FormatParameters)
    : start.applySegments ([Key.profile, .level, .tier].map parameters.renderedSegment)
      = .ok parameters := by
  have distinct
      : ([Key.profile, .level, .tier].map parameters.renderedSegment).Pairwise Apart := by
    rw [List.pairwise_map]
    have keys : [Key.profile, .level, .tier].Pairwise (· ≠ ·) := by decide
    refine keys.imp fun differ key named again => ?_
    rw [names_renderedSegment_iff] at named again
    exact differ (named.trans again.symm)
  rw [applySegments_eq_ok_iff]
  constructor
  · intro segment member
    obtain ⟨key, _, rfl⟩ := List.mem_map.mp member
    exact (parameters.gives_renderedSegment key).not_refused (parameters.number_renderedSegment key)
  · intro key
    refine (lastGiven_iff_of_pairwise distinct).mpr (.inr ⟨parameters.renderedSegment key, ?_, _,
      parameters.gives_renderedSegment key, parameters.number_renderedSegment key⟩)
    cases key <;> simp

-----------------------------------------------------------------------------------------
-- All texts
-----------------------------------------------------------------------------------------

/-- A text without marks is one segment. -/
theorem flatMap_segments {texts : List String} (single : ∀ text ∈ texts, ';' ∉ text.toList)
    : (texts.flatMap fun text => Text.segments ';' text.toList) = texts.map String.toList := by
  induction texts with
  | nil => rfl
  | cons text rest ih =>
      obtain ⟨first, others⟩ := List.forall_mem_cons.mp single
      rw [List.flatMap_cons, Text.segments_of_not_mem first, ih others]
      rfl

/-- Rendered parameters behind a text that is read are what the whole is read as. -/
theorem parse_append_render {text : String} {parameters : FormatParameters}
    (read : parse text = .ok parameters) (other : FormatParameters)
    : parse (text ++ ";" ++ other.render) = .ok other := by
  have joined : text ++ ";" ++ other.render = ";".intercalate [text, other.render] := by simp
  rw [joined, parse_intercalate, List.flatMap_cons, List.flatMap_singleton, segments_render,
    applySegments_append_eq_ok_iff]
  exact ⟨parameters, read, applySegments_renderedSegments parameters other⟩

/-- A segment without a meaning may be put in anywhere. -/
theorem parse_insert (front back : List String) {extra : String} (single : ';' ∉ extra.toList)
    (foreign : Foreign extra.toList)
    : parse (";".intercalate (front ++ extra :: back))
      = parse (";".intercalate (front ++ back)) := by
  rw [parse_intercalate, parse_intercalate, List.flatMap_append, List.flatMap_append,
    List.flatMap_cons, Text.segments_of_not_mem single, List.singleton_append,
    applySegments_foreign default foreign]

/-- Segments for different keys may change places in a text that is read. -/
theorem parse_reorder (front back : List String) {segments reordered : List String}
    {parameters : FormatParameters} (single : ∀ segment ∈ segments, ';' ∉ segment.toList)
    (distinct : (segments.map String.toList).Pairwise Apart) (perm : segments.Perm reordered)
    (read : parse (";".intercalate (front ++ segments ++ back)) = .ok parameters)
    : parse (";".intercalate (front ++ reordered ++ back)) = .ok parameters := by
  have again : ∀ segment ∈ reordered, ';' ∉ segment.toList := by
    intro segment member
    exact single segment (perm.mem_iff.mpr member)
  rw [parse_intercalate, List.flatMap_append, List.flatMap_append] at read ⊢
  rw [flatMap_segments single, applySegments_append_eq_ok_iff] at read
  rw [flatMap_segments again, applySegments_append_eq_ok_iff]
  obtain ⟨middle, before, behind⟩ := read
  obtain ⟨start, first, inside⟩ := applySegments_append_eq_ok_iff.mp before
  have swapped := applySegments_perm distinct (perm.map String.toList) inside
  exact ⟨middle, applySegments_append_eq_ok_iff.mpr ⟨start, first, swapped⟩, behind⟩

/-- A text is read from left to right. It fails for the first segment with a value that its key
cannot take, and only if there is one; otherwise each parameter has the number of the last segment
that names its key, or the default one. Segments without a meaning may be put in anywhere. Segments
for different keys may change places if the text is read. Rendered parameters behind a text that is
read are what the whole is read as.
-/
theorem parse_settings
    : (∀ text : String,
        (∀ failure,
          parse text = .error failure ↔ FirstRefused (Text.segments ';' text.toList) failure)
        ∧ ((∃ failure, parse text = .error failure)
          ↔ ∃ segment ∈ Text.segments ';' text.toList, ∃ cause, Refused segment cause)
        ∧ (∀ parameters,
            parse text = .ok parameters
            ↔ (∀ segment ∈ Text.segments ';' text.toList, ∀ cause, ¬ Refused segment cause)
              ∧ ∀ key,
                  LastGiven (Text.segments ';' text.toList) key (default.number key)
                    (parameters.number key))
        ∧ ∀ parameters other,
            parse text = .ok parameters → parse (text ++ ";" ++ other.render) = .ok other)
      ∧ (∀ (front back : List String) (extra : String),
          ';' ∉ extra.toList
          → Foreign extra.toList
          → parse (";".intercalate (front ++ extra :: back))
            = parse (";".intercalate (front ++ back)))
      ∧ ∀ (front back segments reordered : List String) (parameters : FormatParameters),
          (∀ segment ∈ segments, ';' ∉ segment.toList)
          → (segments.map String.toList).Pairwise Apart
          → segments.Perm reordered
          → parse (";".intercalate (front ++ segments ++ back)) = .ok parameters
          → parse (";".intercalate (front ++ reordered ++ back)) = .ok parameters := by
  refine ⟨fun text => ⟨?failed, ?some, ?read, ?appended⟩, ?inserted, ?moved⟩
  case failed => exact fun failure => applySegments_eq_error_iff
  case some =>
    rw [← exists_firstRefused_iff]
    exact exists_congr fun failure => applySegments_eq_error_iff
  case read => exact fun parameters => applySegments_eq_ok_iff
  case appended => exact fun parameters other read => parse_append_render read other
  case inserted =>
    exact fun front back extra single foreign => parse_insert front back single foreign
  case moved =>
    exact fun front back segments reordered parameters single distinct perm read =>
      parse_reorder front back single distinct perm read

example : parse " tier = +1 ;x;profile=2;profile=0" = .ok ⟨.main, ⟨5⟩, .high⟩ := by rfl

example : parse "max-fr=x;level-idx=24;tier=x" = .error (.unknownLevel 24) := by rfl

end FormatParameters

end Av1Transport.Sdp
