import HornLogic.Proofs.Search.Recursive
import HornLogic.Proofs.Unification.Growth

/-!
# The search refines the recursive search

A search without limits keeps one trail and a stack of half-used choice points, and stops at every
solution to go on later. It does what the recursive search does, which has its own bindings in
every branch.

`Follows` ties the two together. From a state in which the search is about to solve some goals
under bindings `s`, it makes turns that report the answers of the recursive search, with the same
numbers of attempts. If the recursive search comes to its end, these turns lead to a state in which
the search goes on below with the same ledger. The bindings may then still hold what the last
branch added to `s`, but nothing else has happened to them, so that the rollback to the mark of a
choice point gives back exactly the bindings that it was pushed under. If the recursive search is
broken off at its depth, the turns are at least as many as that depth.

The last point makes the correspondence exact in both directions. Whatever the recursive search
reports at some depth is seen in some number of turns, and this number is as large as one likes if
the depth and the number of calls are (`exists_seen_eq_results`). So calls of `Search.next` return
a list exactly if it is the beginning of what the recursive search reports (`calls_query_iff`).
-/

namespace HornLogic

namespace Search

/-- The search with given bindings, ledger, stack and phase. -/
def positioned (search : Search) (s : Bindings) (ledger : Ledger) (stack : List ChoicePoint)
    (phase : Phase) : Search :=
  { search with bindings := s, names := ledger.names, stack, phase, steps := ledger.attempts }

variable {search : Search} {s : Bindings} {ledger : Ledger} {stack : List ChoicePoint}

/-! ## The turns of a search without limits -/

theorem turn_enter_nil (search : Search) (s : Bindings) (ledger : Ledger)
    (stack : List ChoicePoint) (depth : Nat) :
    (search.positioned s ledger stack (.enter [] depth)).turn.search =
      search.positioned s ledger stack .resume ∧
    (search.positioned s ledger stack (.enter [] depth)).turn.seen =
      [(.solution (s.answer search.queryVars), ledger.attempts)] :=
  ⟨rfl, rfl⟩

theorem turn_enter_cons (unlimited : search.limits = .unbounded) (s : Bindings) (ledger : Ledger)
    (stack : List ChoicePoint) (goal : Term) (rest : List Term) (depth : Nat) :
    (search.positioned s ledger stack (.enter (goal :: rest) depth)).turn.search =
      search.positioned s ledger
        ({ goal, rest, depth, untried := search.offer (s.walk goal), mark := s.mark } :: stack)
        .resume ∧
    (search.positioned s ledger stack (.enter (goal :: rest) depth)).turn.seen = [] := by
  have noError : search.limits.checkDepth depth = none := by
    rw [unlimited]
    rfl
  constructor
  · simp only [Search.positioned, turn, enter, noError]
  · simp only [Search.positioned, turn, enter, noError, Turn.seen]
    rfl

theorem turn_resume_untried_nil (search : Search) (s : Bindings) (ledger : Ledger)
    (stack : List ChoicePoint) (point : ChoicePoint) (untried : point.untried = []) :
    (search.positioned s ledger (point :: stack) .resume).turn.search =
      search.positioned (s.rollback point.mark) ledger stack .resume ∧
    (search.positioned s ledger (point :: stack) .resume).turn.seen = [] := by
  constructor
  · simp only [Search.positioned, turn, resume, untried]
  · simp only [Search.positioned, turn, resume, untried, Turn.seen]
    rfl

/-- The state in which the attempt with a clause leaves the search. -/
def attempted (search : Search) (s : Bindings) (ledger : Ledger) (stack : List ChoicePoint)
    (point : ChoicePoint) (clause : Clause) : Search :=
  let unification := s.unify point.goal (ledger.variant clause).head
  search.positioned unification.bindings (ledger.next clause) stack <|
    match unification.conflict with
    | some _ => .resume
    | none => .enter ((ledger.variant clause).body ++ point.rest) (point.depth + 1)

theorem turn_resume_untried_cons (unlimited : search.limits = .unbounded) (s : Bindings)
    (ledger : Ledger) (stack : List ChoicePoint) (point : ChoicePoint) {clause : Clause}
    {clauses : List Clause} (untried : point.untried = clause :: clauses) :
    (search.positioned s ledger (point :: stack) .resume).turn.search =
      search.attempted (s.rollback point.mark) ledger ({ point with untried := clauses } :: stack)
        point clause ∧
    (search.positioned s ledger (point :: stack) .resume).turn.seen = [] := by
  have noError : search.limits.checkSteps (ledger.attempts + 1) = none := by
    rw [unlimited]
    rfl
  simp only [Search.positioned, turn, resume, untried, attempt, noError, Turn.seen, attempted,
    Ledger.variant, Ledger.next]
  cases ((s.rollback point.mark).unify point.goal
    (ledger.names.renameClause clause).1.head).conflict with
  | some conflict => exact ⟨rfl, rfl⟩
  | none => exact ⟨rfl, rfl⟩

/-! ## The simulation -/

/-- The turns of the search from a state bring about the outcome: they report its answers. If it
has ended, they lead back to the stack, with the bindings grown from `s`; if it was broken off,
they are no fewer than the depth. -/
def Follows (search : Search) (depth : Nat) (s : Bindings) (stack : List ChoicePoint)
    (state : Search) (outcome : Outcome) : Prop :=
  ∃ turns, state.seen turns = outcome.results 0 ∧
    match outcome.final with
    | some ledger => ∃ s', Bindings.Grows (fun _ => True) s s' ∧
        state.after turns = search.positioned s' ledger stack .resume
    | none => depth ≤ turns

variable {depth : Nat} {state : Search} {outcome : Outcome}

theorem Follows.of_turn {next : Search} (follows : search.Follows depth s stack next outcome)
    (turn : state.turn.search = next ∧ state.turn.seen = []) :
    search.Follows (depth + 1) s stack state outcome := by
  obtain ⟨turns, seen, rest⟩ := follows
  obtain ⟨rfl, silent⟩ := turn
  refine ⟨turns + 1, ?_, ?_⟩
  · show state.turn.seen ++ state.turn.search.seen turns = _
    rw [silent, seen]
    rfl
  · cases ended : outcome.final with
    | some ledger =>
      rw [ended] at rest
      exact rest
    | none =>
      rw [ended] at rest
      exact Nat.succ_le_succ rest

theorem Follows.of_succ (follows : search.Follows (depth + 1) s stack state outcome) :
    search.Follows depth s stack state outcome := by
  obtain ⟨turns, seen, rest⟩ := follows
  refine ⟨turns, seen, ?_⟩
  cases ended : outcome.final with
  | some ledger =>
    rw [ended] at rest
    exact rest
  | none =>
    rw [ended] at rest
    exact Nat.le_of_succ_le rest

theorem results_zero (outcome : Outcome) : outcome.results 0 = outcome.answers.map answered := by
  unfold Outcome.results
  cases outcome.final <;> simp

/-- One search after another: what follows the first one may start wherever that one ended. -/
theorem Follows.andThen {first : Outcome} {next : Ledger → Outcome} {inner : List ChoicePoint}
    {s₁ : Bindings} (follows : search.Follows depth s₁ inner state first)
    (goesOn : ∀ ledger s₂, Bindings.Grows (fun _ => True) s₁ s₂ →
      search.Follows depth s stack (search.positioned s₂ ledger inner .resume) (next ledger)) :
    search.Follows depth s stack state (first.andThen next) := by
  obtain ⟨turns, seen, rest⟩ := follows
  cases ended : first.final with
  | none =>
    rw [Outcome.andThen_of_none ended]
    refine ⟨turns, seen, ?_⟩
    rw [ended] at rest ⊢
    exact rest
  | some ledger =>
    rw [ended] at rest
    obtain ⟨s₂, grows, after⟩ := rest
    obtain ⟨more, seenLater, restLater⟩ := goesOn ledger s₂ grows
    refine ⟨turns + more, ?_, ?_⟩
    · rw [seen_add, seen, after, seenLater, results_zero, results_zero, results_zero,
        Outcome.answers_andThen_of_some ended, List.map_append]
    · rw [Outcome.final_andThen_of_some ended, after_add, after]
      cases endedLater : (next ledger).final with
      | some final =>
        rw [endedLater] at restLater
        exact restLater
      | none =>
        rw [endedLater] at restLater
        exact Nat.le_trans restLater (Nat.le_add_left more turns)

/-- Trying clauses at a choice point does what trying them recursively does, if solving does. -/
theorem follows_tryEach (unlimited : search.limits = .unbounded)
    {solveRest : List Term → Bindings → Ledger → Outcome}
    (solves : ∀ goals s ledger stack level, search.Follows depth s stack
      (search.positioned s ledger stack (.enter goals level)) (solveRest goals s ledger))
    (goal : Term) (rest : List Term) (level : Nat) (clauses : List Clause) (ledger : Ledger)
    {s' : Bindings} (grows : Bindings.Grows (fun _ => True) s s') :
    search.Follows depth s stack
      (search.positioned s' ledger
        ({ goal, rest, depth := level, untried := clauses, mark := s.mark } :: stack) .resume)
      (tryEach (tryClause solveRest goal rest s) clauses ledger) := by
  induction clauses generalizing ledger s' with
  | nil =>
    -- The mark of the popped choice point gives back the bindings it was pushed under.
    have popped : search.Follows depth s stack (search.positioned s ledger stack .resume)
        { final := some ledger } :=
      ⟨0, rfl, s, .refl, rfl⟩
    have turn := turn_resume_untried_nil search s' ledger stack
      { goal, rest, depth := level, untried := [], mark := s.mark } rfl
    rw [grows.rollback] at turn
    exact (popped.of_turn turn).of_succ
  | cons clause clauses ih =>
    -- So does its mark when it goes on with the next clause.
    have turn := turn_resume_untried_cons unlimited s' ledger stack
      { goal, rest, depth := level, untried := clause :: clauses, mark := s.mark } rfl
    rw [grows.rollback] at turn
    refine (Follows.of_turn ?_ turn).of_succ
    have growsAttempt := Bindings.unify_grows_any s goal (ledger.variant clause).head
    simp only [attempted, tryEach]
    cases outcome : (s.unify goal (ledger.variant clause).head).conflict with
    | some conflict =>
      rw [tryClause_of_conflict outcome]
      exact ih (ledger.next clause) growsAttempt
    | none =>
      rw [tryClause_of_success outcome]
      -- The branch returns to this choice point, whatever it added to the bindings.
      exact (solves _ _ _ _ _).andThen fun ledger s₂ growsBranch =>
        ih ledger (growsAttempt.trans growsBranch)

/-- Solving goals does what solving them recursively does. -/
theorem follows_solve (search : Search) (unlimited : search.limits = .unbounded)
    {clauses : List Clause} (offers : search.offer = fun goal => clauses.filter (·.suits goal))
    (depth : Nat) (goals : List Term) (s : Bindings) (ledger : Ledger) (stack : List ChoicePoint)
    (level : Nat) :
    search.Follows depth s stack (search.positioned s ledger stack (.enter goals level))
      (solve clauses search.queryVars depth goals s ledger) := by
  induction depth generalizing goals s ledger stack level with
  | zero => exact ⟨0, rfl, Nat.le_refl 0⟩
  | succ depth ih =>
    cases goals with
    | nil =>
      obtain ⟨next, seen⟩ := turn_enter_nil search s ledger stack level
      refine ⟨1, ?_, s, .refl, next⟩
      show Turn.seen _ ++ [] = _
      rw [seen]
      rfl
    | cons goal rest =>
      -- The choice point is pushed, and nothing was added to the bindings yet.
      have turn := turn_enter_cons unlimited s ledger stack goal rest level
      rw [offers] at turn
      exact (follows_tryEach unlimited ih goal rest level _ ledger .refl).of_turn turn

/-! ## The whole query -/

/-- With no choice point left to go on from, the search reports the end at every turn. -/
theorem seen_positioned_nil (search : Search) (s : Bindings) (ledger : Ledger) (turns : Nat) :
    (search.positioned s ledger [] .resume).seen turns =
      List.replicate turns (.exhausted, ledger.attempts) := by
  cases turns with
  | zero => rfl
  | succ turns =>
    have later : (search.positioned s ledger [] .finished).seen turns =
        List.replicate turns (.exhausted, ledger.attempts) := seen_of_finished rfl turns
    show (Report.exhausted, ledger.attempts) ::
      (search.positioned s ledger [] .finished).seen turns = _
    rw [later]
    rfl

/-- When only the goals of the query are left to solve, what the recursive search reports is seen
in some number of turns. -/
theorem Follows.exists_seen_eq (follows : search.Follows depth s [] state outcome) (calls : Nat) :
    ∃ turns, min depth calls ≤ turns ∧ state.seen turns = outcome.results calls := by
  obtain ⟨turns, seen, rest⟩ := follows
  cases ended : outcome.final with
  | none =>
    rw [ended] at rest
    refine ⟨turns, Nat.le_trans (Nat.min_le_left _ _) rest, ?_⟩
    rw [seen]
    simp only [Outcome.results, ended]
  | some ledger =>
    rw [ended] at rest
    obtain ⟨s', -, after⟩ := rest
    refine ⟨turns + calls, by omega, ?_⟩
    rw [seen_add, seen, after, seen_positioned_nil, results_zero]
    simp only [Outcome.results, ended]

end Search

variable (clauses : List Clause) (goals : List Term)

/-- What the recursive search reports is seen in some number of turns. -/
theorem exists_seen_eq_results (depth calls : Nat) :
    ∃ turns, min depth calls ≤ turns ∧
      ((KnowledgeBase.ofClauses clauses).query goals .unbounded).seen turns =
        (solveQuery clauses goals depth).results calls := by
  have offers : (KnowledgeBase.ofClauses clauses).matching =
      fun goal => clauses.filter (·.suits goal) :=
    funext (KnowledgeBase.matching_ofClauses clauses)
  exact (Search.follows_solve ((KnowledgeBase.ofClauses clauses).query goals .unbounded) rfl offers
    depth goals .empty { names := .avoiding (Term.varsAll goals), attempts := 0 } []
    0).exists_seen_eq calls

/-- Without limits, calls of `next` return just what the recursive search reports: its solutions
in its order, each with the number of attempts made till then, and the end when it has ended. -/
theorem calls_query_iff (results : List (Report × Nat)) :
    Calls ((KnowledgeBase.ofClauses clauses).query goals .unbounded) results ↔
      ∃ depth calls, results <+: (solveQuery clauses goals depth).results calls := by
  rw [Search.calls_iff]
  constructor
  · rintro ⟨turns, isPrefix⟩
    obtain ⟨more, le, seen⟩ := exists_seen_eq_results clauses goals turns turns
    refine ⟨turns, turns, ?_⟩
    rw [← seen]
    exact isPrefix.trans (Search.seen_isPrefix _ (by omega))
  · rintro ⟨depth, calls, isPrefix⟩
    obtain ⟨turns, -, seen⟩ := exists_seen_eq_results clauses goals depth calls
    refine ⟨turns, ?_⟩
    rw [seen]
    exact isPrefix

end HornLogic
