import Mathlib.Data.List.Infix
import HornLogic.Event

/-!
# Well-nested logs

The log of a search says when a goal is selected and when the search goes back from it for good.
The two events belong together like a pair of brackets. In a `WellNested` log each goal is left
after all goals that were selected since, and the depth of a goal is the number of goals that were
selected before and not yet left. All other events may stand anywhere.

Whether a log is well-nested can be seen by reading it once, with the goals that have not been left
yet on a stack (`Tracks`). A log can be read in pieces, and what has been read up to some place can
always be completed by leaving the goals on the stack, one after another.

In a `Settled` log every resolution is followed at once by what came of it.
-/

namespace HornLogic

namespace Event

/-- Whether a goal is selected or left. -/
def isBracket : Event → Bool
  | .descended _ _ => true
  | .backtracked _ => true
  | _ => false

def isResolved : Event → Bool
  | .resolved _ _ => true
  | _ => false

/-- Whether the event says what came of a resolution: there is a goal to select next, or there is
none and the query is solved, or the query is given up. -/
def settles : Event → Bool
  | .descended _ _ => true
  | .solved _ => true
  | .aborted _ _ => true
  | _ => false

/-- The events in which goals are selected and left. -/
def brackets (log : List Event) : List Event := log.filter isBracket

@[simp] theorem brackets_append (log log' : List Event) :
    brackets (log ++ log') = brackets log ++ brackets log' :=
  List.filter_append log log'

end Event

open Event

/-! ## Pairs of events -/

/-- Goals are selected at the depth and left again, one after another. Between the two events of a
goal stand those of the goals below it, which are one deeper. -/
inductive WellNested : Nat → List Event → Prop where
  | nil (depth : Nat) : WellNested depth []
  | goal {depth : Nat} {goal : Term} {inner later : List Event} :
      WellNested (depth + 1) inner → WellNested depth later →
      WellNested depth (.descended goal depth :: inner ++ .backtracked goal :: later)

/-- Reading a log with a stack of goals, the last one selected on top, ends with another stack. -/
inductive Tracks : List Term → List Event → List Term → Prop where
  | nil (selected : List Term) : Tracks selected [] selected
  | descended {goal : Term} {selected last : List Term} {log : List Event} :
      Tracks (goal :: selected) log last →
      Tracks selected (.descended goal selected.length :: log) last
  | backtracked {goal : Term} {selected last : List Term} {log : List Event} :
      Tracks selected log last → Tracks (goal :: selected) (.backtracked goal :: log) last
  | other {event : Event} {selected last : List Term} {log : List Event} :
      event.isBracket = false → Tracks selected log last → Tracks selected (event :: log) last

namespace Tracks

variable {selected middle last : List Term} {log log' : List Event}

theorem append (tracks : Tracks selected log middle) (tracks' : Tracks middle log' last) :
    Tracks selected (log ++ log') last := by
  induction tracks with
  | nil => exact tracks'
  | descended _ ih => exact .descended (ih tracks')
  | backtracked _ ih => exact .backtracked (ih tracks')
  | other unrelated _ ih => exact .other unrelated (ih tracks')

/-- What can be read can be read up to any place. -/
theorem exists_of_append (tracks : Tracks selected (log ++ log') last) :
    ∃ middle, Tracks selected log middle := by
  induction log generalizing selected with
  | nil => exact ⟨selected, .nil selected⟩
  | cons event log ih =>
    cases tracks with
    | descended rest =>
      obtain ⟨middle, first⟩ := ih rest
      exact ⟨middle, .descended first⟩
    | backtracked rest =>
      obtain ⟨middle, first⟩ := ih rest
      exact ⟨middle, .backtracked first⟩
    | other unrelated rest =>
      obtain ⟨middle, first⟩ := ih rest
      exact ⟨middle, .other unrelated first⟩

theorem of_others (others : ∀ event ∈ log, event.isBracket = false) (selected : List Term) :
    Tracks selected log selected := by
  induction log with
  | nil => exact .nil selected
  | cons event log ih =>
    obtain ⟨first, rest⟩ := List.forall_mem_cons.1 others
    exact .other first (ih rest)

/-- The goals on the stack can be left one after another. -/
theorem leave (selected : List Term) : Tracks selected (selected.map .backtracked) [] := by
  induction selected with
  | nil => exact .nil []
  | cons goal selected ih => exact .backtracked ih

/-- The goals on the stack are left in the log, and between any two of them, and after the last one,
it is well-nested. -/
def Leaves : List Term → List Event → Prop
  | [], log => WellNested 0 log
  | goal :: selected, log => ∃ inner later, log = inner ++ .backtracked goal :: later ∧
      WellNested (selected.length + 1) inner ∧ Leaves selected later

theorem leaves (tracks : Tracks selected log []) : Leaves selected (brackets log) := by
  generalize nothing : ([] : List Term) = last at tracks
  induction tracks with
  | nil selected =>
    subst nothing
    exact .nil 0
  | @descended goal selected last log _ ih =>
    obtain ⟨inner, later, split, nested, leaves⟩ := ih nothing
    show Leaves selected (.descended goal selected.length :: brackets log)
    rw [split]
    -- The new pair of brackets comes before whatever stands in front of the next goal to leave.
    cases selected with
    | nil => exact .goal nested leaves
    | cons next selected =>
      obtain ⟨inner', later', rfl, nested', leaves'⟩ := leaves
      refine ⟨.descended goal (selected.length + 1) :: inner ++ .backtracked goal :: inner', later',
        ?_, .goal nested nested', leaves'⟩
      simp
  | @backtracked goal selected last log _ ih =>
    exact ⟨[], brackets log, rfl, .nil _, ih nothing⟩
  | @other event selected last log unrelated _ ih =>
    have dropped : brackets (event :: log) = brackets log :=
      List.filter_cons_of_neg (by simp [unrelated])
    rw [dropped]
    exact ih nothing

/-- A log that leaves all goals is well-nested. -/
theorem wellNested (tracks : Tracks [] log []) : WellNested 0 (brackets log) :=
  tracks.leaves

/-- A log that does not leave all goals can be completed to a well-nested one. -/
theorem exists_wellNested (tracks : Tracks [] log last) :
    ∃ rest, WellNested 0 (brackets log ++ rest) := by
  have completed := (tracks.append (leave last)).wellNested
  rw [brackets_append] at completed
  exact ⟨_, completed⟩

end Tracks

/-! ## Resolutions -/

/-- Every resolution is followed at once by an event that says what came of it. -/
inductive Settled : List Event → Prop where
  | nil : Settled []
  | resolved {goal : Term} {clause : Clause} {next : Event} {log : List Event} :
      next.settles = true → Settled log → Settled (.resolved goal clause :: next :: log)
  | other {event : Event} {log : List Event} : event.isResolved = false → Settled log →
      Settled (event :: log)

namespace Settled

variable {log log' : List Event}

theorem append (settled : Settled log) (settled' : Settled log') : Settled (log ++ log') := by
  induction settled with
  | nil => exact settled'
  | resolved settles _ ih => exact .resolved settles ih
  | other unrelated _ ih => exact .other unrelated ih

theorem of_others (others : ∀ event ∈ log, event.isResolved = false) : Settled log := by
  induction log with
  | nil => exact .nil
  | cons event log ih =>
    obtain ⟨first, rest⟩ := List.forall_mem_cons.1 others
    exact .other first (ih rest)

end Settled

end HornLogic
