import Av1Transport.Text

/-! The format parameters of an AV1 stream: profile, level and tier of its sequences, and their
settings between semicolons, each a key and a value. Settings with other keys, and texts without an
equals sign, are passed over.
-/

namespace Av1Transport.Sdp

-----------------------------------------------------------------------------------------
-- Profiles
-----------------------------------------------------------------------------------------

/-- The profile of a sequence. -/
inductive Profile where
  | main
  | high
  | professional
  deriving Repr, DecidableEq

namespace Profile

/-- The profile of an index, if there is one. -/
def ofIndex? (index : UInt8) : Option Profile :=
  match index.toNat with
  | 0 => some main
  | 1 => some high
  | 2 => some professional
  | _ => none

def index : Profile → UInt8
  | main => 0
  | high => 1
  | professional => 2

/-- A profile is found by its index. -/
theorem ofIndex?_index (profile : Profile) : ofIndex? profile.index = some profile := by
  cases profile <;> rfl

/-- A profile that is found by an index has this index. -/
theorem index_of_ofIndex? {index : UInt8} {profile : Profile}
    (found : ofIndex? index = some profile)
    : profile.index = index := by
  unfold ofIndex? at found
  apply UInt8.toNat_inj.mp
  split at found <;> cases found
  all_goals exact Eq.symm ‹index.toNat = _›

/-- The indices of profiles are the numbers below 3. -/
theorem ofIndex?_eq_none_iff {index : UInt8} : ofIndex? index = none ↔ 3 ≤ index.toNat := by
  unfold ofIndex?
  split <;> simp_all
  omega

end Profile

-----------------------------------------------------------------------------------------
-- Levels, from 2.0 to 7.3
-----------------------------------------------------------------------------------------

/-- The level of a sequence: X.Y has the index (X - 2) * 4 + Y. -/
structure Level where
  ordinal : Fin 24
  deriving Repr, DecidableEq

namespace Level

/-- The level of an index, if there is one. -/
def ofIndex? (index : UInt8) : Option Level :=
  if h : index.toNat < 24 then some ⟨⟨index.toNat, h⟩⟩ else none

def index (level : Level) : UInt8 :=
  UInt8.ofNat level.ordinal

/-- The X of a level X.Y. -/
def major (level : Level) : Nat :=
  2 + level.ordinal / 4

/-- The Y of a level X.Y. -/
def minor (level : Level) : Nat :=
  level.ordinal % 4

/-- A level is found by its index. -/
theorem ofIndex?_index (level : Level) : ofIndex? level.index = some level := by
  rcases level with ⟨⟨ordinal, h⟩⟩
  have : (UInt8.ofNat ordinal).toNat = ordinal := by
    simp only [UInt8.toNat_ofNat']
    omega
  simp [ofIndex?, index, this, h]

/-- A level that is found by an index has this index. -/
theorem index_of_ofIndex? {index : UInt8} {level : Level} (found : ofIndex? index = some level)
    : level.index = index := by
  unfold ofIndex? at found
  split at found
  · cases found
    exact UInt8.ofNat_toNat
  · cases found

/-- The indices of levels are the numbers below 24. -/
theorem ofIndex?_eq_none_iff {index : UInt8} : ofIndex? index = none ↔ 24 ≤ index.toNat := by
  unfold ofIndex?
  split <;> simp_all

end Level

-----------------------------------------------------------------------------------------
-- Tiers
-----------------------------------------------------------------------------------------

/-- The tier of a sequence. -/
inductive Tier where
  | main
  | high
  deriving Repr, DecidableEq

namespace Tier

/-- The tier of an index, if there is one. -/
def ofIndex? (index : UInt8) : Option Tier :=
  match index.toNat with
  | 0 => some main
  | 1 => some high
  | _ => none

def index : Tier → UInt8
  | main => 0
  | high => 1

/-- A tier is found by its index. -/
theorem ofIndex?_index (tier : Tier) : ofIndex? tier.index = some tier := by
  cases tier <;> rfl

/-- A tier that is found by an index has this index. -/
theorem index_of_ofIndex? {index : UInt8} {tier : Tier} (found : ofIndex? index = some tier)
    : tier.index = index := by
  unfold ofIndex? at found
  apply UInt8.toNat_inj.mp
  split at found <;> cases found
  all_goals exact Eq.symm ‹index.toNat = _›

/-- The indices of tiers are the numbers below 2. -/
theorem ofIndex?_eq_none_iff {index : UInt8} : ofIndex? index = none ↔ 2 ≤ index.toNat := by
  unfold ofIndex?
  split <;> simp_all
  omega

end Tier

-----------------------------------------------------------------------------------------
-- Format parameters
-----------------------------------------------------------------------------------------

/-- The settings that a session description may give. -/
structure FormatParameters where
  profile : Profile
  level : Level
  tier : Tier
  deriving Repr, DecidableEq

/-- Why format parameters cannot be read. -/
inductive FormatError where
  | invalidValue (cause : Text.OctetError)
  | unknownProfile (index : UInt8)
  | unknownLevel (index : UInt8)
  | unknownTier (index : UInt8)
  deriving Repr, DecidableEq

def FormatError.message : FormatError → String
  | .invalidValue cause => "encountered non integer value " ++ cause.message
  | .unknownProfile index => "unknown profile " ++ toString index.toNat
  | .unknownLevel index => "unknown level-idx " ++ toString index.toNat
  | .unknownTier index => "unknown tier " ++ toString index.toNat

/-- The keys that have a meaning. -/
inductive Key where
  | profile
  | level
  | tier
  deriving Repr, DecidableEq

def Key.name : Key → String
  | .profile => "profile"
  | .level => "level-idx"
  | .tier => "tier"

/-- The key of a name, if it has a meaning. -/
def Key.ofName? (name : List Char) : Option Key :=
  [Key.profile, .level, .tier].find? fun key => key.name.toList == name

/-- A key that has a meaning, with the text of its value. -/
structure Setting where
  key : Key
  value : List Char
  deriving Repr, DecidableEq

/-- The setting of a segment, split at its first equals sign, if its key has a meaning. -/
def Setting.ofSegment? (segment : List Char) : Option Setting :=
  match Text.splitAtFirst? '=' segment with
  | none => none
  | some (key, value) =>
      (Key.ofName? (Text.trim key)).map fun key => ⟨key, Text.trim value⟩

namespace FormatParameters

/-- What holds where nothing is said: the main profile, level 3.1 and the main tier. -/
def default : FormatParameters :=
  ⟨.main, ⟨5⟩, .main⟩

instance : Inhabited FormatParameters :=
  ⟨default⟩

/-- The parameters with the number in place of the one that the key names. -/
def assign (parameters : FormatParameters) (key : Key) (index : UInt8)
    : Except FormatError FormatParameters :=
  match key with
  | .profile =>
      match Profile.ofIndex? index with
      | some profile => .ok { parameters with profile }
      | none => .error (.unknownProfile index)
  | .level =>
      match Level.ofIndex? index with
      | some level => .ok { parameters with level }
      | none => .error (.unknownLevel index)
  | .tier =>
      match Tier.ofIndex? index with
      | some tier => .ok { parameters with tier }
      | none => .error (.unknownTier index)

/-- The parameters after a setting. -/
def apply (parameters : FormatParameters) (setting : Setting)
    : Except FormatError FormatParameters :=
  match Text.octet setting.value with
  | .error cause => .error (.invalidValue cause)
  | .ok index => parameters.assign setting.key index

/-- The parameters after settings in order, up to the first that fails. -/
def applyAll (parameters : FormatParameters) : List Setting → Except FormatError FormatParameters
  | [] => .ok parameters
  | setting :: settings =>
      match parameters.apply setting with
      | .error failure => .error failure
      | .ok next => next.applyAll settings

/-- The settings of a text, from left to right. -/
def settings (text : List Char) : List Setting :=
  (Text.segments ';' text).filterMap Setting.ofSegment?

/-- The parameters that a text gives: for each key the last setting counts. -/
def parse (text : String) : Except FormatError FormatParameters :=
  default.applyAll (settings text.toList)

/-- The text of parameters, all settings in one order. -/
def render (parameters : FormatParameters) : String :=
  "profile=" ++ toString parameters.profile.index.toNat
    ++ ";level-idx=" ++ toString parameters.level.index.toNat
    ++ ";tier=" ++ toString parameters.tier.index.toNat

end FormatParameters

end Av1Transport.Sdp
