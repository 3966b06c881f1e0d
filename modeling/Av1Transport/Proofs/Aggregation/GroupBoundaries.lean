import Av1Transport.Proofs.Aggregation.GroupInvariants

/-! Where one group ends and the next begins.
Main statements: a unit that closes the bundle parts the groups of the run in two, and a bundle that
waits at the end of a run becomes the first group of what follows.
-/

namespace Av1Transport.Aggregation

namespace Grouping

variable {mtu : Nat} {grouping : Grouping} {obu : Obu}

theorem close_of_empty (empty : grouping.current.obus.toList = []) : grouping.close = grouping := by
  rw [close, if_pos (by simpa using empty)]

theorem close_of_present (present : grouping.current.obus.toList ≠ [])
    : grouping.close
      = ⟨grouping.closed.push (.bundle grouping.current.obus.toList), .empty⟩ := by
  rw [close, if_neg (by simpa using present)]

@[simp]
theorem close_close (grouping : Grouping) : grouping.close.close = grouping.close :=
  close_of_empty (current_close grouping)

theorem admits_close (grouping : Grouping) (obu : Obu)
    : grouping.close.current.admits mtu obu = false := by
  rw [Bool.eq_false_iff]
  intro admitted
  exact Bundle.ne_nil_of_admits admitted (current_close grouping)

-----------------------------------------------------------------------------------------
-- Groups that were closed before
-----------------------------------------------------------------------------------------

/-- The grouping with more closed groups in front. -/
def behind (closed : Array Group) (grouping : Grouping) : Grouping :=
  { grouping with closed := closed ++ grouping.closed }

theorem close_behind (closed : Array Group) (grouping : Grouping)
    : (grouping.behind closed).close = grouping.close.behind closed := by
  unfold close behind
  split <;> simp

theorem add_behind (closed : Array Group) (grouping : Grouping) (obu : Obu)
    : (grouping.behind closed).add mtu obu = (grouping.add mtu obu).behind closed := by
  cases transmitted : obu.isTransmitted with
  | false =>
      rcases Obu.kind_of_not_isTransmitted transmitted with delimiter | tiles
      · simp only [add, delimiter, close_behind]
      · simp only [add, tiles]
  | true =>
      rw [add_of_isTransmitted transmitted, add_of_isTransmitted transmitted, close_behind]
      split
      next => simp [fragment, behind]
      next =>
        -- what a bundle admits does not hang on the groups in front of it
        change (if grouping.current.admits mtu obu then _ else _) = _
        split <;> rfl

theorem foldl_add_behind (closed : Array Group) (grouping : Grouping) (obus : List Obu)
    : obus.foldl (add mtu) (grouping.behind closed)
      = (obus.foldl (add mtu) grouping).behind closed := by
  induction obus generalizing grouping with
  | nil => rfl
  | cons obu obus ih => simp only [List.foldl_cons, add_behind, ih]

end Grouping

open Grouping

variable {mtu : Nat} {obu : Obu}

/-- The groups of a run of units that meets a bundle. -/
def groupsFrom (mtu : Nat) (bundle : Bundle) (obus : List Obu) : List Group :=
  (obus.foldl (add mtu) ⟨#[], bundle⟩).groups

/-- Closed groups stay in front, and only the bundle matters for those to come. -/
theorem groups_foldl_add (mtu : Nat) (grouping : Grouping) (obus : List Obu)
    : (obus.foldl (add mtu) grouping).groups
      = grouping.closed.toList ++ groupsFrom mtu grouping.current obus := by
  have split : grouping = Grouping.behind grouping.closed ⟨#[], grouping.current⟩ := by
    simp [Grouping.behind]
  rw [split, foldl_add_behind, Grouping.groups, close_behind, groupsFrom, Grouping.groups]
  simp [Grouping.behind]

theorem groupsFrom_cons (bundle : Bundle) (obu : Obu) (obus : List Obu)
    : groupsFrom mtu bundle (obu :: obus)
      = (add mtu ⟨#[], bundle⟩ obu).closed.toList
        ++ groupsFrom mtu (add mtu ⟨#[], bundle⟩ obu).current obus :=
  groups_foldl_add mtu _ obus

theorem current_close_eq (grouping : Grouping) : grouping.close.current = .empty :=
  Bundle.eq_empty (current_close grouping)

/-- A unit before which the bundle may as well be closed parts the groups in two. -/
theorem groups_append_of_add_close {before after : List Obu}
    (parts
      : add mtu (before.foldl (add mtu) .start) obu
        = add mtu (before.foldl (add mtu) .start).close obu)
    : groups mtu (before ++ obu :: after) = groups mtu before ++ groups mtu (obu :: after) := by
  have later := groups_foldl_add mtu (before.foldl (add mtu) .start).close (obu :: after)
  rw [current_close_eq, List.foldl_cons, ← parts] at later
  rw [groups, List.foldl_append, List.foldl_cons]
  exact later

theorem add_close_of_isTransmitted {grouping : Grouping} (transmitted : obu.isTransmitted = true)
    (refused : grouping.current.admits mtu obu = false)
    : add mtu grouping obu = add mtu grouping.close obu := by
  rw [add_of_isTransmitted transmitted, add_of_isTransmitted transmitted, close_close, refused,
    admits_close]
  simp only [Bool.false_eq_true, if_false]

/-- A unit that is too long for a packet closes the bundle, whatever the bundle admits. -/
theorem add_close_of_long {grouping : Grouping} (transmitted : obu.isTransmitted = true)
    (long : mtu - 1 < obu.bareLength)
    : add mtu grouping obu = add mtu grouping.close obu := by
  rw [add_of_isTransmitted transmitted, add_of_isTransmitted transmitted, close_close, if_pos long,
    if_pos long]

theorem add_close_of_delimiter {grouping : Grouping}
    (delimiter : obu.header.kind = .temporalDelimiter)
    : add mtu grouping obu = add mtu grouping.close obu := by
  simp only [add, delimiter, close_close]

-----------------------------------------------------------------------------------------
-- The bundle that waits
-----------------------------------------------------------------------------------------

/-- A bundle that waits becomes the first group of what follows, with what it still admits, by
induction on what follows.
-/
theorem exists_bundle_of_groupsFrom {bundle : Bundle} (present : bundle.obus.toList ≠ [])
    (obus : List Obu)
    : ∃ more later, groupsFrom mtu bundle obus = .bundle (bundle.obus.toList ++ more) :: later := by
  induction obus generalizing bundle with
  | nil =>
      refine ⟨[], [], ?_⟩
      rw [groupsFrom, List.foldl_nil, Grouping.groups, close_of_present present, List.append_nil]
      rfl
  | cons obu obus ih =>
      -- whatever closes the bundle leaves it as the first group
      have closes {grouping : Grouping}
          (front
            : ∃ later, grouping.closed.toList = .bundle bundle.obus.toList :: later)
          : ∃ more later,
              grouping.closed.toList ++ groupsFrom mtu grouping.current obus
                = .bundle (bundle.obus.toList ++ more) :: later := by
        obtain ⟨later, closed⟩ := front
        exact ⟨[], later ++ groupsFrom mtu grouping.current obus, by simp [closed]⟩
      have closed
          : Grouping.close ⟨#[], bundle⟩ = ⟨#[.bundle bundle.obus.toList], .empty⟩ :=
        close_of_present present
      rw [groupsFrom_cons]
      cases transmitted : obu.isTransmitted with
      | false =>
          rcases Obu.kind_of_not_isTransmitted transmitted with delimiter | tiles
          · have step : add mtu ⟨#[], bundle⟩ obu = Grouping.close ⟨#[], bundle⟩ := by
              simp only [add, delimiter]
            rw [step, closed]
            exact closes ⟨[], rfl⟩
          · simp only [add, tiles]
            exact ih present
      | true =>
          rw [add_of_isTransmitted transmitted, closed]
          split
          next => exact closes ⟨[.fragments obu], rfl⟩
          next =>
            split
            next =>
              obtain ⟨more, later, run⟩ := ih (show (bundle.push obu).obus.toList ≠ [] by simp)
              refine ⟨obu :: more, later, ?_⟩
              rw [Bundle.toList_push, List.append_assoc] at run
              exact run
            next => exact closes ⟨[], rfl⟩

/-- Units that are not sent close the bundle if there is a temporal delimiter among them, by
induction on these units.
-/
theorem foldl_add_of_not_isTransmitted {dropped : List Obu}
    (none : ∀ obu ∈ dropped, obu.isTransmitted = false) (grouping : Grouping)
    : ((∀ obu ∈ dropped, obu.header.kind ≠ .temporalDelimiter)
        ∧ dropped.foldl (add mtu) grouping = grouping)
      ∨ ((∃ obu ∈ dropped, obu.header.kind = .temporalDelimiter)
        ∧ dropped.foldl (add mtu) grouping = grouping.close) := by
  induction dropped generalizing grouping with
  | nil => exact .inl ⟨by simp, rfl⟩
  | cons obu dropped ih =>
      have later := ih (fun next member => none next (List.mem_cons_of_mem _ member))
      rcases Obu.kind_of_not_isTransmitted (none obu List.mem_cons_self) with delimiter | tiles
      · have step : add mtu grouping obu = grouping.close := by
          simp only [add, delimiter]
        refine .inr ⟨⟨obu, List.mem_cons_self, delimiter⟩, ?_⟩
        rw [List.foldl_cons, step]
        rcases later grouping.close with ⟨_, run⟩ | ⟨_, run⟩
        · exact run
        · rw [run, close_close]
      · have step : add mtu grouping obu = grouping := by
          simp only [add, tiles]
        rw [List.foldl_cons, step]
        rcases later grouping with ⟨without, run⟩ | ⟨⟨next, member, delimiter⟩, run⟩
        · refine .inl ⟨?_, run⟩
          intro next member
          rcases List.mem_cons.mp member with same | member
          · rw [same, tiles]
            decide
          · exact without next member
        · exact .inr ⟨⟨next, List.mem_cons_of_mem _ member, delimiter⟩, run⟩

/-- After a unit that is sent the bundle ends with it, unless the unit is cut. -/
theorem current_add_of_isTransmitted (mtu : Nat) (grouping : Grouping)
    (transmitted : obu.isTransmitted = true)
    : (mtu - 1 < obu.bareLength ∧ (add mtu grouping obu).current.obus.toList = [])
      ∨ (¬ mtu - 1 < obu.bareLength
        ∧ ∃ front, (add mtu grouping obu).current.obus.toList = front ++ [obu]) := by
  rw [add_of_isTransmitted transmitted]
  split
  next long => exact .inl ⟨long, current_close grouping⟩
  next short =>
    refine .inr ⟨short, ?_⟩
    split
    next => exact ⟨_, Bundle.toList_push _ obu⟩
    next => exact ⟨_, Bundle.toList_push _ obu⟩

end Av1Transport.Aggregation
