import HornLogic.Proofs.PredicateIndex
import HornLogic.Proofs.Search.Calls

/-!
# The recursive search

The search for solutions as one would define it by recursion. To solve no goals is to have found a
solution. To solve some goals is to try for the first of them every clause that suits it, in
order: each attempt is counted, renames the clause, unifies the goal with the head under the
bindings that the goals are to be solved under, and if this succeeds solves the body followed by
the other goals under the bindings that result.

Bindings are passed by value, so nothing is ever undone. Only the supply of names and the number of
attempts are handed on from one attempt to the next; together they are the `Ledger`.

The search tree may be infinite, so `solve` takes a depth and breaks off where it would have to go
deeper. An `Outcome` lists the answers found until then, and has a final ledger exactly if the
search came to its end.
-/

namespace HornLogic

/-- What an attempt hands on to the next one. -/
structure Ledger where
  names : NameSupply
  attempts : Nat

namespace Ledger

/-- The clause as an attempt renames it. -/
def variant (ledger : Ledger) (clause : Clause) : Clause :=
  (ledger.names.renameClause clause).1

def next (ledger : Ledger) (clause : Clause) : Ledger where
  names := (ledger.names.renameClause clause).2
  attempts := ledger.attempts + 1

end Ledger

/-- The report of a solution, with the attempts made till then. -/
def answered (found : Solution × Nat) : Report × Nat := (.solution found.1, found.2)

/-- What a recursive search brings about. -/
structure Outcome where
  /-- The solutions in the order in which they are found, each with the attempts made till then. -/
  answers : List (Solution × Nat) := []
  /-- The ledger at the end of the search, unless it was broken off. -/
  final : Option Ledger

namespace Outcome

/-- Goes on with the next search, unless the first was broken off. -/
def andThen (first : Outcome) (next : Ledger → Outcome) : Outcome :=
  match first.final with
  | none => first
  | some ledger =>
    let second := next ledger
    { answers := first.answers ++ second.answers, final := second.final }

/-- The outcome as a caller gets to see it: the solutions, and after the end of the search the news
that there are no more, as often as asked for. -/
def results (outcome : Outcome) (calls : Nat) : List (Report × Nat) :=
  outcome.answers.map answered ++
    match outcome.final with
    | some ledger => List.replicate calls (.exhausted, ledger.attempts)
    | none => []

end Outcome

def Bindings.answer (s : Bindings) (vars : List Symbol) : Solution :=
  { bindings := vars.map fun x => (x, s.resolve (.var x)) }

/-- Makes the attempts with the clauses one after another. -/
def tryEach (attempt : Clause → Ledger → Outcome) : List Clause → Ledger → Outcome
  | [], ledger => { final := some ledger }
  | clause :: clauses, ledger => (attempt clause ledger).andThen (tryEach attempt clauses)

/-- Attempts to resolve the goal with the clause, and to solve what is left then. -/
def tryClause (solveRest : List Term → Bindings → Ledger → Outcome) (goal : Term)
    (rest : List Term) (s : Bindings) (clause : Clause) (ledger : Ledger) : Outcome :=
  let variant := ledger.variant clause
  let unification := s.unify goal variant.head
  match unification.conflict with
  | some _ => { final := some (ledger.next clause) }
  | none => solveRest (variant.body ++ rest) unification.bindings (ledger.next clause)

/-- Solves the goals under the bindings, down to a depth; `vars` are the variables of the query. -/
def solve (clauses : List Clause) (vars : List Symbol) :
    Nat → List Term → Bindings → Ledger → Outcome
  | 0, _, _, _ => { final := none }
  | _ + 1, [], s, ledger =>
    { answers := [(s.answer vars, ledger.attempts)], final := some ledger }
  | depth + 1, goal :: rest, s, ledger =>
    tryEach (tryClause (solve clauses vars depth) goal rest s)
      (clauses.filter (·.suits (s.walk goal))) ledger

/-- The recursive search for the goals among the clauses, down to a depth. -/
def solveQuery (clauses : List Clause) (goals : List Term) (depth : Nat) : Outcome :=
  let vars := Term.varsAll goals
  solve clauses vars depth goals .empty { names := .avoiding vars, attempts := 0 }

namespace Outcome

@[simp] theorem andThen_of_none {first : Outcome} (brokenOff : first.final = none)
    (next : Ledger → Outcome) : first.andThen next = first := by
  rw [andThen, brokenOff]

@[simp] theorem final_andThen_of_some {first : Outcome} {ledger : Ledger}
    (ended : first.final = some ledger) (next : Ledger → Outcome) :
    (first.andThen next).final = (next ledger).final := by
  rw [andThen, ended]

@[simp] theorem answers_andThen_of_some {first : Outcome} {ledger : Ledger}
    (ended : first.final = some ledger) (next : Ledger → Outcome) :
    (first.andThen next).answers = first.answers ++ (next ledger).answers := by
  rw [andThen, ended]

/-- One search after another ends if both end, and then has the answers of both. -/
theorem exists_of_final_andThen {first : Outcome} {next : Ledger → Outcome} {final : Ledger}
    (ended : (first.andThen next).final = some final) :
    ∃ ledger, first.final = some ledger ∧ (next ledger).final = some final ∧
      (first.andThen next).answers = first.answers ++ (next ledger).answers := by
  cases endedFirst : first.final with
  | none =>
    rw [andThen_of_none endedFirst, endedFirst] at ended
    exact absurd ended (by simp)
  | some ledger =>
    rw [final_andThen_of_some endedFirst] at ended
    exact ⟨ledger, rfl, ended, answers_andThen_of_some endedFirst next⟩

end Outcome

/-! ## One clause -/

section TryClause

variable {solveRest : List Term → Bindings → Ledger → Outcome} {goal : Term} {rest : List Term}
  {s : Bindings} {clause : Clause} {ledger : Ledger}

theorem tryClause_of_conflict {conflict : Conflict}
    (failed : (s.unify goal (ledger.variant clause).head).conflict = some conflict) :
    tryClause solveRest goal rest s clause ledger = { final := some (ledger.next clause) } := by
  simp only [tryClause, failed]

theorem tryClause_of_success
    (success : (s.unify goal (ledger.variant clause).head).conflict = none) :
    tryClause solveRest goal rest s clause ledger =
      solveRest ((ledger.variant clause).body ++ rest)
        (s.unify goal (ledger.variant clause).head).bindings (ledger.next clause) := by
  simp only [tryClause, success]

end TryClause

/-! ## Greater depths -/

/-- The second outcome goes on where the first one was broken off. -/
def Outcome.Extends (first second : Outcome) : Prop :=
  match first.final with
  | none => first.answers <+: second.answers
  | some _ => second = first

theorem Outcome.Extends.isPrefix {first second : Outcome} (extended : first.Extends second) :
    first.answers <+: second.answers := by
  unfold Extends at extended
  split at extended
  · exact extended
  · rw [extended]

theorem Outcome.Extends.trans {first second third : Outcome} (extended : first.Extends second)
    (further : second.Extends third) : first.Extends third := by
  cases ended : first.final with
  | none =>
    have isPrefix := extended.isPrefix.trans further.isPrefix
    unfold Extends
    rwa [ended]
  | some ledger =>
    obtain rfl : second = first := by
      unfold Extends at extended
      rwa [ended] at extended
    exact further

theorem Outcome.Extends.andThen {first first' : Outcome} {next next' : Ledger → Outcome}
    (extended : first.Extends first') (later : ∀ ledger, (next ledger).Extends (next' ledger)) :
    (first.andThen next).Extends (first'.andThen next') := by
  cases ended : first.final with
  | none =>
    rw [andThen_of_none ended]
    unfold Extends
    rw [ended]
    refine extended.isPrefix.trans ?_
    cases ended' : first'.final with
    | none => rw [andThen_of_none ended']
    | some ledger =>
      rw [answers_andThen_of_some ended']
      exact List.prefix_append _ _
  | some ledger =>
    obtain rfl : first' = first := by
      unfold Extends at extended
      rwa [ended] at extended
    have goesOn := later ledger
    unfold Extends at goesOn ⊢
    rw [final_andThen_of_some ended, answers_andThen_of_some ended]
    cases endedLater : (next ledger).final with
    | none =>
      rw [endedLater] at goesOn
      rw [answers_andThen_of_some ended]
      exact (List.prefix_append_right_inj _).2 goesOn
    | some final =>
      rw [endedLater] at goesOn
      simp only [Outcome.andThen, ended, goesOn]

theorem Outcome.Extends.refl (outcome : Outcome) : outcome.Extends outcome := by
  unfold Extends
  split
  · exact List.prefix_rfl
  · rfl

/-- To go on more deeply after each attempt extends the outcome of all attempts. -/
theorem tryEach_extends {solveRest deeper : List Term → Bindings → Ledger → Outcome}
    (goesOn : ∀ goals s ledger, (solveRest goals s ledger).Extends (deeper goals s ledger))
    (goal : Term) (rest : List Term) (s : Bindings) (untried : List Clause) (ledger : Ledger) :
    (tryEach (tryClause solveRest goal rest s) untried ledger).Extends
      (tryEach (tryClause deeper goal rest s) untried ledger) := by
  induction untried generalizing ledger with
  | nil => rfl
  | cons clause untried ih =>
    rw [tryEach, tryEach]
    refine Outcome.Extends.andThen ?_ ih
    cases outcome : (s.unify goal (ledger.variant clause).head).conflict with
    | some conflict =>
      rw [tryClause_of_conflict outcome, tryClause_of_conflict outcome]
      rfl
    | none =>
      rw [tryClause_of_success outcome, tryClause_of_success outcome]
      exact goesOn _ _ _

/-- A deeper search finds the same solutions first, and does just the same if the search had
ended before. -/
theorem solve_extends_succ (clauses : List Clause) (vars : List Symbol) (depth : Nat)
    (goals : List Term) (s : Bindings) (ledger : Ledger) :
    (solve clauses vars depth goals s ledger).Extends
      (solve clauses vars (depth + 1) goals s ledger) := by
  induction depth generalizing goals s ledger with
  | zero => exact List.nil_prefix
  | succ depth ih =>
    cases goals with
    | nil => rfl
    | cons goal rest =>
      rw [solve, solve]
      -- Both searches try the same clauses.
      exact tryEach_extends ih goal rest s _ ledger

/-- A search to a greater depth goes on where the first one was broken off. -/
theorem solve_extends (clauses : List Clause) (vars : List Symbol) {depth depth' : Nat}
    (le : depth ≤ depth') (goals : List Term) (s : Bindings) (ledger : Ledger) :
    (solve clauses vars depth goals s ledger).Extends
      (solve clauses vars depth' goals s ledger) := by
  induction le with
  | refl => exact .refl _
  | step _ ih => exact ih.trans (solve_extends_succ _ _ _ _ _ _)

end HornLogic
