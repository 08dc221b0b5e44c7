import HornLogic.Proofs.Search.Completeness

/-!
# Searches that come to their end

The recursive search takes a depth, so that it is defined whether or not it ends. Where a search
does end, the depth is only in the way. `Explored` says without it what a search comes to, by one
rule for each thing that may happen to a goal and a clause. The rules speak of two kinds of `Task`:
to solve some goals, and to make the attempts that are left for a selected goal. A derivation is the
search tree, and statements about searches that have ended are proved by induction on it.

This is the recursive search at any depth that is great enough (`explored_iff`). So a query without
limits that is asked for solutions until there are no more (`Ended`) has explored its search tree
(`ended_iff`), and its solutions and its attempts are those of the tree.
-/

namespace HornLogic

/-- What is to be done under some bindings. -/
inductive Task where
  | solve (goals : List Term)
  /-- The goal was selected, and these clauses are still to be tried for it. -/
  | attempt (goal : Term) (rest : List Term) (untried : List Clause)

/-- The search tree below a task is finite. Its answers are these, each with the attempts made till
then, and the ledger is the last one when all of it was explored. -/
inductive Explored (clauses : List Clause) (vars : List Symbol) :
    Task → Bindings → Ledger → List (Solution × Nat) → Ledger → Prop where
  | solved (s : Bindings) (ledger : Ledger) :
      Explored clauses vars (.solve []) s ledger [(s.answer vars, ledger.attempts)] ledger
  | selected {goal : Term} {rest : List Term} {s : Bindings} {ledger last : Ledger}
      {answers : List (Solution × Nat)} :
      Explored clauses vars (.attempt goal rest (clauses.filter (·.suits (s.walk goal)))) s ledger
        answers last →
      Explored clauses vars (.solve (goal :: rest)) s ledger answers last
  | exhausted (goal : Term) (rest : List Term) (s : Bindings) (ledger : Ledger) :
      Explored clauses vars (.attempt goal rest []) s ledger [] ledger
  | failed {goal : Term} {rest : List Term} {s : Bindings} {clause : Clause}
      {untried : List Clause} {conflict : Conflict} {ledger last : Ledger}
      {answers : List (Solution × Nat)} :
      (s.unify goal (ledger.variant clause).head).conflict = some conflict →
      Explored clauses vars (.attempt goal rest untried) s (ledger.next clause) answers last →
      Explored clauses vars (.attempt goal rest (clause :: untried)) s ledger answers last
  | resolved {goal : Term} {rest : List Term} {s : Bindings} {clause : Clause}
      {untried : List Clause} {ledger middle last : Ledger} {early later : List (Solution × Nat)} :
      (s.unify goal (ledger.variant clause).head).conflict = none →
      Explored clauses vars (.solve ((ledger.variant clause).body ++ rest))
        (s.unify goal (ledger.variant clause).head).bindings (ledger.next clause) early middle →
      Explored clauses vars (.attempt goal rest untried) s middle later last →
      Explored clauses vars (.attempt goal rest (clause :: untried)) s ledger (early ++ later) last

variable {clauses : List Clause} {vars : List Symbol} {task : Task} {s : Bindings}
  {ledger last : Ledger} {answers : List (Solution × Nat)}

/-- Names that were in use are still in use afterwards. -/
theorem Explored.keeps (explored : Explored clauses vars task s ledger answers last) :
    ledger.Keeps last := by
  induction explored with
  | solved => exact .refl _
  | selected _ ih => exact ih
  | exhausted => exact .refl _
  | failed _ _ ih => exact (Ledger.keeps_next _ _).trans ih
  | resolved _ _ _ ihBody ihUntried => exact ((Ledger.keeps_next _ _).trans ihBody).trans ihUntried

theorem Explored.attempts_le (explored : Explored clauses vars task s ledger answers last) :
    ledger.attempts ≤ last.attempts := by
  induction explored with
  | solved => exact Nat.le_refl _
  | selected _ ih => exact ih
  | exhausted => exact Nat.le_refl _
  | failed _ _ ih => exact Nat.le_of_succ_le ih
  | resolved _ _ _ ihBody ihUntried => exact Nat.le_of_succ_le (Nat.le_trans ihBody ihUntried)

/-! ## The recursive search at a depth that is great enough -/

/-- The recursive search for the task, down to a depth. -/
def Task.run (clauses : List Clause) (vars : List Symbol) (depth : Nat) (task : Task) (s : Bindings)
    (ledger : Ledger) : Outcome :=
  match task with
  | .solve goals => HornLogic.solve clauses vars depth goals s ledger
  | .attempt goal rest untried =>
    tryEach (tryClause (HornLogic.solve clauses vars depth) goal rest s) untried ledger

/-- One search after another comes to its end if both do. -/
theorem Outcome.andThen_eq_iff {first : Outcome} {next : Ledger → Outcome} :
    first.andThen next = { answers, final := some last } ↔
      ∃ early middle later, first = { answers := early, final := some middle } ∧
        next middle = { answers := later, final := some last } ∧ answers = early ++ later := by
  rcases first with ⟨early, _ | middle⟩
  · simp [andThen]
  · rcases outcome : next middle with ⟨later, final⟩
    simp only [andThen, outcome, Outcome.mk.injEq, Option.some.injEq]
    constructor
    · rintro ⟨rfl, rfl⟩
      exact ⟨early, middle, later, ⟨rfl, rfl⟩, by rw [outcome], rfl⟩
    · rintro ⟨_, _, later', ⟨rfl, rfl⟩, same, rfl⟩
      rw [outcome] at same
      obtain ⟨rfl, rfl⟩ := Outcome.mk.inj same
      exact ⟨rfl, rfl⟩

/-- A search that has ended does the same at a greater depth. -/
theorem Task.run_of_le {depth depth' : Nat} (le : depth ≤ depth')
    (ended : task.run clauses vars depth s ledger = { answers, final := some last }) :
    task.run clauses vars depth' s ledger = { answers, final := some last } := by
  have extended : (task.run clauses vars depth s ledger).Extends
      (task.run clauses vars depth' s ledger) := by
    cases task with
    | solve goals => exact solve_extends clauses vars le goals s ledger
    | attempt goal rest untried =>
      exact tryEach_extends (solve_extends clauses vars le) goal rest s untried ledger
  rw [ended] at extended
  exact extended

theorem Explored.exists_depth (explored : Explored clauses vars task s ledger answers last) :
    ∃ depth, task.run clauses vars depth s ledger = { answers, final := some last } := by
  induction explored with
  | solved => exact ⟨1, rfl⟩
  | selected _ ih =>
    obtain ⟨depth, ended⟩ := ih
    exact ⟨depth + 1, ended⟩
  | exhausted => exact ⟨0, rfl⟩
  | failed conflict _ ih =>
    obtain ⟨depth, ended⟩ := ih
    refine ⟨depth, ?_⟩
    rw [Task.run, tryEach, tryClause_of_conflict conflict]
    exact Outcome.andThen_eq_iff.2 ⟨_, _, _, rfl, ended, rfl⟩
  | resolved success _ _ ihBody ihUntried =>
    obtain ⟨depthBody, endedBody⟩ := ihBody
    obtain ⟨depthUntried, endedUntried⟩ := ihUntried
    refine ⟨max depthBody depthUntried, ?_⟩
    rw [Task.run, tryEach, tryClause_of_success success]
    exact Outcome.andThen_eq_iff.2 ⟨_, _, _, Task.run_of_le (Nat.le_max_left _ _) endedBody,
      Task.run_of_le (Nat.le_max_right _ _) endedUntried, rfl⟩

/-- Attempts that have ended were explored, if what they solve was. -/
theorem explored_of_tryEach {depth : Nat}
    (solves : ∀ {goals s ledger answers last},
      solve clauses vars depth goals s ledger = { answers, final := some last } →
        Explored clauses vars (.solve goals) s ledger answers last)
    {goal : Term} {rest : List Term} {untried : List Clause}
    (ended : tryEach (tryClause (solve clauses vars depth) goal rest s) untried ledger =
      { answers, final := some last }) :
    Explored clauses vars (.attempt goal rest untried) s ledger answers last := by
  induction untried generalizing ledger answers with
  | nil =>
    obtain ⟨rfl, rfl⟩ : [] = answers ∧ ledger = last := by simpa [tryEach] using ended
    exact .exhausted goal rest s ledger
  | cons clause untried ih =>
    rw [tryEach] at ended
    obtain ⟨early, middle, later, first, rest, rfl⟩ := Outcome.andThen_eq_iff.1 ended
    cases outcome : (s.unify goal (ledger.variant clause).head).conflict with
    | some conflict =>
      rw [tryClause_of_conflict outcome] at first
      obtain ⟨rfl, rfl⟩ : [] = early ∧ ledger.next clause = middle := by simpa using first
      exact .failed outcome (ih rest)
    | none =>
      rw [tryClause_of_success outcome] at first
      exact .resolved outcome (solves first) (ih rest)

theorem explored_of_solve {depth : Nat} {goals : List Term}
    (ended : solve clauses vars depth goals s ledger = { answers, final := some last }) :
    Explored clauses vars (.solve goals) s ledger answers last := by
  induction depth generalizing goals s ledger answers last with
  | zero => simp [solve] at ended
  | succ depth ih =>
    cases goals with
    | nil =>
      obtain ⟨rfl, rfl⟩ : [(s.answer vars, ledger.attempts)] = answers ∧ ledger = last := by
        simpa [solve] using ended
      exact .solved s ledger
    | cons goal rest =>
      rw [solve] at ended
      exact .selected (explored_of_tryEach (fun ended => ih ended) ended)

/-- To have explored the search tree is to have ended at some depth. -/
theorem explored_iff {goals : List Term} :
    Explored clauses vars (.solve goals) s ledger answers last ↔
      ∃ depth, solve clauses vars depth goals s ledger = { answers, final := some last } :=
  ⟨Explored.exists_depth, fun ⟨_, ended⟩ => explored_of_solve ended⟩

/-! ## Queries that have ended -/

/-- Calls for the query without limits return these solutions, each with the attempts made till
then, and after them the end, with the attempts made altogether. -/
def Ended (clauses : List Clause) (goals : List Term) (answers : List (Solution × Nat))
    (attempts : Nat) : Prop :=
  Calls ((KnowledgeBase.ofClauses clauses).query goals .unbounded)
    (answers.map answered ++ [(.exhausted, attempts)])

/-- The ledger of a query for these variables before its first attempt. -/
def Ledger.start (vars : List Symbol) : Ledger where
  names := .avoiding vars
  attempts := 0

theorem ended_iff {goals : List Term} {attempts : Nat} :
    Ended clauses goals answers attempts ↔
      ∃ last, last.attempts = attempts ∧
        Explored clauses (Term.varsAll goals) (.solve goals) .empty
          (.start (Term.varsAll goals)) answers last := by
  constructor
  · intro ended
    obtain ⟨depth, calls, beginning⟩ := (calls_query_iff clauses goals _).1 ended
    obtain ⟨last, found, final⟩ := Outcome.exists_final_of_isPrefix beginning
    have whole : solveQuery clauses goals depth = { answers, final := some last } := by
      rw [← found, ← final]
    refine ⟨last, ?_, explored_iff.2 ⟨depth, whole⟩⟩
    -- The report after the solutions has the attempts of the last ledger.
    rw [whole, Outcome.results, List.prefix_append_right_inj] at beginning
    have reported := beginning.mem List.mem_cons_self
    simpa [eq_comm] using (List.mem_replicate.1 reported).2
  · rintro ⟨last, rfl, explored⟩
    obtain ⟨depth, ended⟩ := explored_iff.1 explored
    have whole : solveQuery clauses goals depth = { answers, final := some last } := ended
    refine (calls_query_iff clauses goals _).2 ⟨depth, 1, ?_⟩
    rw [whole]
    exact List.prefix_rfl

/-- A query that ends has these answers and no others. -/
theorem Ended.unique {goals : List Term} {answers' : List (Solution × Nat)}
    {attempts attempts' : Nat} (ended : Ended clauses goals answers attempts)
    (ended' : Ended clauses goals answers' attempts') :
    answers = answers' ∧ attempts = attempts' := by
  obtain ⟨last, rfl, explored⟩ := ended_iff.1 ended
  obtain ⟨last', rfl, explored'⟩ := ended_iff.1 ended'
  obtain ⟨depth, found⟩ := explored.exists_depth
  obtain ⟨depth', found'⟩ := explored'.exists_depth
  have deep := Task.run_of_le (Nat.le_max_left depth depth') found
  have deep' := Task.run_of_le (Nat.le_max_right depth depth') found'
  obtain ⟨rfl, final⟩ := Outcome.mk.inj (deep.symm.trans deep')
  obtain rfl := Option.some.inj final
  exact ⟨rfl, rfl⟩

end HornLogic
