import HornLogic.Proofs.Search.Refinement

/-!
# A search with limits

A limit does one thing to a search: at some turn it may give it up. Until then every turn is the
one that the search without limits makes (`turn_unlimited`), and afterwards every turn reports the
end. So what a caller sees is what it would see without limits, cut short at some place or not
at all (`seen_cutShort`).

Hence every solution that calls return is one of the recursive search
(`exists_depth_of_solution`), and if they return solutions and then the end, without an error, these
are all the solutions of a recursive search that has ended (`exists_depth_of_exhausted`).
-/

namespace HornLogic

/-- The second list is the first one, or a beginning of it followed by the news that a limit
was exceeded and then by news of the end only. -/
inductive CutShort : List (Report × Nat) → List (Report × Nat) → Prop where
  | whole (results : List (Report × Nat)) : CutShort results results
  | cut (results : List (Report × Nat)) (error : Error) (attempts later : Nat) :
      CutShort results
        ((.aborted error, attempts) :: List.replicate later (.exhausted, attempts))
  | cons (result : Report × Nat) {results cut : List (Report × Nat)} :
      CutShort results cut → CutShort (result :: results) (result :: cut)

namespace CutShort

variable {results cut : List (Report × Nat)}

theorem append (first : List (Report × Nat)) (cutShort : CutShort results cut) :
    CutShort (first ++ results) (first ++ cut) := by
  induction first with
  | nil => exact cutShort
  | cons result first ih => exact ih.cons result

/-- The solutions in a list that was cut short are solutions of the whole list. -/
theorem mem_of_solution (cutShort : CutShort results cut) {answer : Solution} {attempts : Nat}
    (member : (.solution answer, attempts) ∈ cut) : (.solution answer, attempts) ∈ results := by
  induction cutShort with
  | whole => exact member
  | cut results error attempts later => simp [List.mem_replicate] at member
  | cons result _ ih =>
    rcases List.mem_cons.1 member with first | later
    · rw [first]
      exact List.mem_cons_self
    · exact List.mem_cons_of_mem _ (ih later)

/-- What comes before any news of a limit is the beginning of the whole list. -/
theorem isPrefix (cutShort : CutShort results cut) {begun : List (Report × Nat)}
    (beginning : begun <+: cut)
    (noError : ∀ error attempts, (.aborted error, attempts) ∉ begun) : begun <+: results := by
  induction cutShort generalizing begun with
  | whole => exact beginning
  | cut results error attempts later =>
    cases begun with
    | nil => exact List.nil_prefix
    | cons first begun =>
      obtain ⟨rfl, -⟩ := List.cons_prefix_cons.1 beginning
      exact absurd List.mem_cons_self (noError error attempts)
  | cons result _ ih =>
    cases begun with
    | nil => exact List.nil_prefix
    | cons first begun =>
      obtain ⟨rfl, rest⟩ := List.cons_prefix_cons.1 beginning
      refine List.cons_prefix_cons.2 ⟨rfl, ih rest ?_⟩
      intro error attempts member
      exact noError error attempts (List.mem_cons_of_mem _ member)

end CutShort

namespace Search

def unlimited (search : Search) : Search := { search with limits := .unbounded }

/-- A turn is that of the search without limits, unless it gives the search up. -/
theorem turn_unlimited (search : Search) :
    (search.unlimited.turn.search = search.turn.search.unlimited ∧
      search.unlimited.turn.seen = search.turn.seen) ∨
    ((∃ error, search.turn.report = some (.aborted error)) ∧
      search.turn.search.phase = .finished) := by
  obtain ⟨offer, limits, queryVars, bindings, names, stack, phase, steps⟩ := search
  cases phase with
  | finished => exact .inl ⟨rfl, rfl⟩
  | enter goals depth =>
    cases goals with
    | nil => exact .inl ⟨rfl, rfl⟩
    | cons goal rest =>
      cases exceeded : limits.checkDepth depth with
      | some error =>
        right
        simp [turn, enter, exceeded, abort]
      | none =>
        left
        simp [turn, enter, unlimited, exceeded, Turn.seen]
  | resume =>
    cases stack with
    | nil => exact .inl ⟨rfl, rfl⟩
    | cons point below =>
      cases untried : point.untried with
      | nil =>
        left
        simp [turn, resume, unlimited, untried, Turn.seen]
      | cons clause clauses =>
        cases exceeded : limits.checkSteps (steps + 1) with
        | some error =>
          right
          simp [turn, resume, attempt, untried, exceeded, abort]
        | none =>
          left
          simp only [turn, resume, attempt, unlimited, untried, exceeded,
            Limits.checkSteps_unbounded, Turn.seen]
          split <;> simp

/-- Limits only cut short what is seen of a search. -/
theorem seen_cutShort (search : Search) (turns : Nat) :
    CutShort (search.unlimited.seen turns) (search.seen turns) := by
  induction turns generalizing search with
  | zero => exact .whole []
  | succ turns ih =>
    show CutShort (search.unlimited.turn.seen ++ search.unlimited.turn.search.seen turns)
      (search.turn.seen ++ search.turn.search.seen turns)
    rcases search.turn_unlimited with ⟨next, seen⟩ | ⟨⟨error, aborted⟩, finished⟩
    · rw [next, seen]
      exact (ih search.turn.search).append search.turn.seen
    -- From here on the search without limits may report anything at all.
    · have reported : search.turn.seen = [(.aborted error, search.turn.search.steps)] := by
        rw [Turn.seen, aborted]
        rfl
      rw [seen_of_finished finished, reported]
      exact .cut _ error search.turn.search.steps turns

end Search

/-! ## Reading an outcome off what is reported -/

theorem Outcome.mem_answers_of_mem_results {outcome : Outcome} {calls : Nat} {answer : Solution}
    {attempts : Nat} (member : (.solution answer, attempts) ∈ outcome.results calls) :
    (answer, attempts) ∈ outcome.answers := by
  unfold results at member
  split at member
  · simpa [answered] using member
  · simpa [answered] using member

/-- Solutions followed by the end are all the solutions that were found before the end. -/
theorem Outcome.eq_answers_of_isPrefix {answers found : List (Solution × Nat)}
    {attempts attempts' calls : Nat}
    (beginning : answers.map answered ++ [(.exhausted, attempts)] <+:
      found.map answered ++ List.replicate calls (.exhausted, attempts')) :
    found = answers := by
  induction answers generalizing found with
  | nil =>
    cases found with
    | nil => rfl
    | cons answer found => simp [answered] at beginning
  | cons answer answers ih =>
    cases found with
    | nil =>
      have member := beginning.mem List.mem_cons_self
      simp [answered, List.mem_replicate] at member
    | cons answer' found =>
      obtain ⟨first, rest⟩ := List.cons_prefix_cons.1 beginning
      have same : answer' = answer := by
        simp only [answered, Prod.mk.injEq, Report.solution.injEq] at first
        exact Prod.ext first.1.symm first.2.symm
      rw [same, ih rest]

theorem Outcome.exists_final_of_isPrefix {outcome : Outcome} {answers : List (Solution × Nat)}
    {attempts calls : Nat}
    (beginning : answers.map answered ++ [(.exhausted, attempts)] <+: outcome.results calls) :
    ∃ ledger, outcome.answers = answers ∧ outcome.final = some ledger := by
  cases ended : outcome.final with
  | none =>
    have member := beginning.mem (List.mem_append_right _ List.mem_cons_self)
    simp [results, ended, answered] at member
  | some ledger =>
    simp only [results, ended] at beginning
    exact ⟨ledger, eq_answers_of_isPrefix beginning, rfl⟩

/-! ## What calls return -/

section Calls

variable {clauses : List Clause} {goals : List Term} {limits : Limits}
  {results : List (Report × Nat)}

theorem Calls.exists_cutShort
    (calls : Calls ((KnowledgeBase.ofClauses clauses).query goals limits) results) :
    ∃ depth cut, CutShort ((solveQuery clauses goals depth).results depth) cut ∧
      results <+: cut := by
  obtain ⟨turns, beginning⟩ := Search.calls_iff.1 calls
  obtain ⟨more, enough, seen⟩ := exists_seen_eq_results clauses goals turns turns
  refine ⟨turns, _, ?_, beginning.trans (Search.seen_isPrefix _ (show turns ≤ more by omega))⟩
  rw [← seen]
  exact Search.seen_cutShort ((KnowledgeBase.ofClauses clauses).query goals limits) more

/-- A solution that a call returns is one of the recursive search. -/
theorem Calls.exists_depth_of_solution
    (calls : Calls ((KnowledgeBase.ofClauses clauses).query goals limits) results)
    {answer : Solution} {attempts : Nat} (member : (.solution answer, attempts) ∈ results) :
    ∃ depth, (answer, attempts) ∈ (solveQuery clauses goals depth).answers := by
  obtain ⟨depth, cut, cutShort, beginning⟩ := calls.exists_cutShort
  have reported := cutShort.mem_of_solution (beginning.mem member)
  exact ⟨depth, Outcome.mem_answers_of_mem_results reported⟩

/-- If calls return solutions and then the end, these are the solutions of a recursive search that
has ended. -/
theorem Calls.exists_depth_of_exhausted {answers : List (Solution × Nat)} {attempts : Nat}
    (calls : Calls ((KnowledgeBase.ofClauses clauses).query goals limits)
      (answers.map answered ++ [(.exhausted, attempts)])) :
    ∃ depth ledger, (solveQuery clauses goals depth).answers = answers ∧
      (solveQuery clauses goals depth).final = some ledger := by
  obtain ⟨depth, cut, cutShort, beginning⟩ := calls.exists_cutShort
  have whole := cutShort.isPrefix beginning (by simp [answered])
  exact ⟨depth, Outcome.exists_final_of_isPrefix whole⟩

end Calls

end HornLogic
