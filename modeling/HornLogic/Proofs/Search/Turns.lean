import HornLogic.Proofs.Search.Calls
import HornLogic.Search.Run

/-!
# What a turn can do

A turn of a search does one of nine things, which `TurnCase` lists with the clause instance that the
turn makes, if any. Every turn is one of them (`turnCase`). Proofs that something is preserved by
turns go through these cases and do not open the definition of a turn.
-/

namespace HornLogic

namespace Search

/-- The clause instance that the next turn makes: the next clause of the topmost choice point,
renamed, unless too many attempts have been made. -/
def variant? (search : Search) : Option Clause :=
  match search.phase, search.stack with
  | .resume, point :: _ =>
    match point.untried, search.limits.checkSteps (search.steps + 1) with
    | clause :: _, none => some (search.names.renameClause clause).1
    | _, _ => none
  | _, _ => none

/-- The unification that decides an attempt with a clause at a choice point. -/
def unification (search : Search) (point : ChoicePoint) (clause : Clause) : Unification :=
  (search.bindings.rollback point.mark).unify point.goal (search.names.renameClause clause).1.head

/-- What a turn can do, and the clause instance that it makes. -/
inductive TurnCase (search : Search) : Turn → Option Clause → Prop where
  | solved (depth : Nat) : search.phase = .enter [] depth →
      TurnCase search
        { search := { search with phase := .resume }
          report := some (.solution search.answer)
          log := [.solved search.answer] } none
  | tooDeep (goal : Term) (rest : List Term) (depth : Nat) (error : Error) :
      search.phase = .enter (goal :: rest) depth → search.limits.checkDepth depth = some error →
      TurnCase search
        { search := { search with stack := [], phase := .finished }
          report := some (.aborted error)
          log := [.aborted search.steps error] } none
  /-- A choice point for the first goal is pushed. -/
  | descended (goal : Term) (rest : List Term) (depth : Nat) :
      search.phase = .enter (goal :: rest) depth → search.limits.checkDepth depth = none →
      TurnCase search
        { search :=
            { search with
              stack :=
                { goal, rest, depth
                  untried := search.offer (search.bindings.walk goal)
                  mark := search.bindings.mark } :: search.stack
              phase := .resume }
          log := [.descended goal depth] } none
  | exhausted : search.phase = .resume → search.stack = [] →
      TurnCase search
        { search := { search with stack := [], phase := .finished }
          report := some .exhausted
          log := [.exhausted search.steps] } none
  /-- The topmost choice point has no clauses left and is popped. -/
  | popped (point : ChoicePoint) (below : List ChoicePoint) : search.phase = .resume →
      search.stack = point :: below → point.untried = [] →
      TurnCase search
        { search :=
            { search with
              bindings := search.bindings.rollback point.mark
              stack := below
              phase := .resume }
          log := [.backtracked point.goal] } none
  | tooMany (point : ChoicePoint) (below : List ChoicePoint) (clause : Clause)
      (untried : List Clause) (error : Error) : search.phase = .resume →
      search.stack = point :: below → point.untried = clause :: untried →
      search.limits.checkSteps (search.steps + 1) = some error →
      TurnCase search
        { search :=
            { search with
              bindings := search.bindings.rollback point.mark
              stack := []
              phase := .finished
              steps := search.steps + 1 }
          report := some (.aborted error)
          log := [.aborted (search.steps + 1) error] } none
  /-- The next clause of the topmost choice point is tried in vain. -/
  | failed (point : ChoicePoint) (below : List ChoicePoint) (clause : Clause)
      (untried : List Clause) (conflict : Conflict) : search.phase = .resume →
      search.stack = point :: below → point.untried = clause :: untried →
      search.limits.checkSteps (search.steps + 1) = none →
      (search.unification point clause).conflict = some conflict →
      TurnCase search
        { search :=
            { search with
              bindings := (search.unification point clause).bindings
              names := (search.names.renameClause clause).2
              stack := { point with untried } :: below
              phase := .resume
              steps := search.steps + 1 }
          log := (search.unification point clause).events }
        (some (search.names.renameClause clause).1)
  /-- The next clause of the topmost choice point is tried with success. -/
  | resolved (point : ChoicePoint) (below : List ChoicePoint) (clause : Clause)
      (untried : List Clause) : search.phase = .resume →
      search.stack = point :: below → point.untried = clause :: untried →
      search.limits.checkSteps (search.steps + 1) = none →
      (search.unification point clause).conflict = none →
      TurnCase search
        { search :=
            { search with
              bindings := (search.unification point clause).bindings
              names := (search.names.renameClause clause).2
              stack := { point with untried } :: below
              phase := .enter ((search.names.renameClause clause).1.body ++ point.rest)
                (point.depth + 1)
              steps := search.steps + 1 }
          log := (search.unification point clause).events ++
            [.resolved point.goal (search.names.renameClause clause).1] }
        (some (search.names.renameClause clause).1)
  | finished : search.phase = .finished →
      TurnCase search { search, report := some .exhausted } none

theorem turnCase (search : Search) : TurnCase search search.turn search.variant? := by
  cases phase : search.phase with
  | finished =>
    simp only [turn, variant?, phase]
    exact .finished phase
  | enter goals depth =>
    cases goals with
    | nil =>
      simp only [turn, enter, variant?, phase]
      exact .solved depth phase
    | cons goal rest =>
      cases exceeded : search.limits.checkDepth depth with
      | some error =>
        simp only [turn, enter, abort, variant?, phase, exceeded]
        exact .tooDeep goal rest depth error phase exceeded
      | none =>
        simp only [turn, enter, variant?, phase, exceeded]
        exact .descended goal rest depth phase exceeded
  | resume =>
    cases stack : search.stack with
    | nil =>
      simp only [turn, resume, variant?, phase, stack]
      exact .exhausted phase stack
    | cons point below =>
      cases clauses : point.untried with
      | nil =>
        simp only [turn, resume, variant?, phase, stack, clauses]
        exact .popped point below phase stack clauses
      | cons clause untried =>
        cases exceeded : search.limits.checkSteps (search.steps + 1) with
        | some error =>
          simp only [turn, resume, attempt, abort, variant?, phase, stack, clauses, exceeded]
          exact .tooMany point below clause untried error phase stack clauses exceeded
        | none =>
          simp only [turn, resume, attempt, variant?, phase, stack, clauses, exceeded]
          cases outcome : ((search.bindings.rollback point.mark).unify point.goal
            (search.names.renameClause clause).1.head).conflict with
          | some conflict =>
            exact .failed point below clause untried conflict phase stack clauses exceeded outcome
          | none =>
            exact .resolved point below clause untried phase stack clauses exceeded outcome

/-- The cases exclude each other, so one that applies says what the turn is. -/
theorem TurnCase.turn_eq {search : Search} {turn : Turn} {variant : Option Clause}
    (case : TurnCase search turn variant) : search.turn = turn := by
  cases case with
  | solved depth phase => simp only [Search.turn, enter, phase]
  | tooDeep goal rest depth error phase exceeded =>
    simp only [Search.turn, enter, abort, phase, exceeded]
  | descended goal rest depth phase within => simp only [Search.turn, enter, phase, within]
  | exhausted phase stack => simp only [Search.turn, resume, phase, stack]
  | popped point below phase stack untried =>
    simp only [Search.turn, resume, phase, stack, untried]
  | tooMany point below clause untried error phase stack clauses exceeded =>
    simp only [Search.turn, resume, attempt, abort, phase, stack, clauses, exceeded]
  | failed point below clause untried conflict phase stack clauses within outcome =>
    rw [unification] at outcome
    simp only [Search.turn, resume, attempt, unification, phase, stack, clauses, within, outcome]
  | resolved point below clause untried phase stack clauses within outcome =>
    rw [unification] at outcome
    simp only [Search.turn, resume, attempt, unification, phase, stack, clauses, within, outcome]
  | finished phase => simp only [Search.turn, phase]

/-! ## Limits and the end -/

@[simp] theorem offer_turn (search : Search) : search.turn.search.offer = search.offer := by
  have cases := search.turnCase
  generalize search.turn = turn, search.variant? = made at cases
  cases cases <;> rfl

@[simp] theorem offer_after (search : Search) (turns : Nat) :
    (search.after turns).offer = search.offer :=
  holds_after (fun now same => (offer_turn now).trans same) rfl turns

@[simp] theorem limits_turn (search : Search) : search.turn.search.limits = search.limits := by
  have cases := search.turnCase
  generalize search.turn = turn, search.variant? = made at cases
  cases cases <;> rfl

@[simp] theorem limits_after (search : Search) (turns : Nat) :
    (search.after turns).limits = search.limits :=
  holds_after (fun now same => (limits_turn now).trans same) rfl turns

/-- A search is given up at a goal that is too deep, or at one attempt too many. -/
theorem exceeded_of_aborted {search : Search} {error : Error}
    (aborted : search.turn.report = some (.aborted error)) :
    (∃ goal rest depth, search.phase = .enter (goal :: rest) depth ∧
      search.limits.checkDepth depth = some error) ∨
    ∃ point below clause untried, search.phase = .resume ∧ search.stack = point :: below ∧
      point.untried = clause :: untried ∧
      search.limits.checkSteps (search.steps + 1) = some error := by
  have cases := search.turnCase
  generalize search.turn = turn, search.variant? = made at cases aborted
  cases cases with
  | tooDeep goal rest depth error' phase exceeded =>
    obtain rfl : error' = error := Report.aborted.inj (Option.some.inj aborted)
    exact .inl ⟨goal, rest, depth, phase, exceeded⟩
  | tooMany point below clause untried error' phase stack clauses exceeded =>
    obtain rfl : error' = error := Report.aborted.inj (Option.some.inj aborted)
    exact .inr ⟨point, below, clause, untried, phase, stack, clauses, exceeded⟩
  | solved => simp at aborted
  | descended => simp at aborted
  | exhausted => simp at aborted
  | popped => simp at aborted
  | failed => simp at aborted
  | resolved => simp at aborted
  | finished => simp at aborted

/-- A search ends with a final report. -/
theorem finished_of_final {search : Search} {report : Report}
    (reported : search.turn.report = some report) (final : report.isFinal = true) :
    search.turn.search.phase = .finished := by
  have cases := search.turnCase
  generalize search.turn = turn, search.variant? = made at cases reported
  cases cases with
  | solved =>
    obtain rfl := Option.some.inj reported
    contradiction
  | tooDeep => rfl
  | exhausted => rfl
  | tooMany => rfl
  | finished phase => exact phase
  | descended => contradiction
  | popped => contradiction
  | failed => contradiction
  | resolved => contradiction

end Search

end HornLogic
