import HornLogic.Proofs.Search.Soundness
import HornLogic.Proofs.Unification.Depth

/-!
# No answer is missing

When a search for some goals has ended, each instance of the goals that is provable is an instance
of one of the solutions.

Suppose an assignment solves the present bindings and makes the goals provable. The first goal is
then an instance of the head of some clause, which is offered since it has the predicate of the
goal, and tried since the search ends. The attempt renames the clause by names that are not in use.
So the assignment can be changed at these names to make the goal equal to the renamed head, with
nothing changed that matters for the bindings and the goals. Unification finds the most general such
assignment, and the search goes on with the body, whose instances are provable
(`exists_answer_of_provable`).

What this needs of names is that all variables of the bindings and of the goals are in use, which
attempts preserve since they count the variables of the renamed clause as used (`Covers`).
-/

namespace HornLogic

/-! ## Variables in use -/

/-- Names that are in use stay in use from one ledger to the other. -/
def Ledger.Keeps (ledger ledger' : Ledger) : Prop :=
  ∀ x, ledger.names.Used x → ledger'.names.Used x

namespace Ledger

variable {ledger ledger' ledger'' : Ledger}

theorem Keeps.refl (ledger : Ledger) : ledger.Keeps ledger := fun _ used => used

theorem Keeps.trans (keeps : ledger.Keeps ledger') (later : ledger'.Keeps ledger'') :
    ledger.Keeps ledger'' :=
  fun x used => later x (keeps x used)

theorem Keeps.covers (keeps : ledger.Keeps ledger') {t : Term} (covers : ledger.names.Covers t) :
    ledger'.names.Covers t :=
  fun x occurs => keeps x (covers x occurs)

theorem Keeps.all (keeps : ledger.Keeps ledger') {s : Bindings} (all : s.All ledger.names.Covers) :
    s.All ledger'.names.Covers :=
  all.imp fun _ => keeps.covers

theorem keeps_next (ledger : Ledger) (clause : Clause) : ledger.Keeps (ledger.next clause) :=
  fun _ used => used.renameClause clause

theorem covers_head (ledger : Ledger) (clause : Clause) :
    (ledger.next clause).names.Covers (ledger.variant clause).head :=
  ledger.names.covers_head_renameClause clause

theorem covers_body (ledger : Ledger) (clause : Clause) {goal : Term}
    (member : goal ∈ (ledger.variant clause).body) : (ledger.next clause).names.Covers goal :=
  ledger.names.covers_body_renameClause clause member

theorem app_head_variant (ledger : Ledger) (clause : Clause) :
    Term.app (ledger.variant clause).head.name (ledger.variant clause).head.args =
      (ledger.variant clause).head := by
  rw [variant, NameSupply.renameClause_fst, Clause.head_instantiate, Term.instantiate_app,
    Term.name_app, Term.args_app]

end Ledger

/-! ## Searches that have ended -/

section Ended

variable {attempt : Clause → Ledger → Outcome}

/-- Each of the clauses was tried, and its attempt came to an end, if trying them did. -/
theorem exists_attempt_of_ended
    (keeps : ∀ clause ledger ledger', (attempt clause ledger).final = some ledger' →
      ledger.Keeps ledger')
    {clauses : List Clause} {ledger final : Ledger}
    (ended : (tryEach attempt clauses ledger).final = some final) {clause : Clause}
    (member : clause ∈ clauses) :
    ∃ before after, ledger.Keeps before ∧ (attempt clause before).final = some after ∧
      (attempt clause before).answers ⊆ (tryEach attempt clauses ledger).answers := by
  induction clauses generalizing ledger with
  | nil => exact absurd member List.not_mem_nil
  | cons first clauses ih =>
    rw [tryEach] at ended ⊢
    obtain ⟨next, endedFirst, endedRest, answers⟩ := Outcome.exists_of_final_andThen ended
    rw [answers]
    rcases List.mem_cons.1 member with rfl | inRest
    · exact ⟨ledger, next, .refl ledger, endedFirst, List.subset_append_left _ _⟩
    · obtain ⟨before, after, keepsLater, endedLater, subset⟩ := ih endedRest inRest
      exact ⟨before, after, (keeps first ledger next endedFirst).trans keepsLater, endedLater,
        List.subset_append_of_subset_right _ subset⟩

theorem tryEach_keeps
    (keeps : ∀ clause ledger ledger', (attempt clause ledger).final = some ledger' →
      ledger.Keeps ledger')
    {clauses : List Clause} {ledger final : Ledger}
    (ended : (tryEach attempt clauses ledger).final = some final) : ledger.Keeps final := by
  induction clauses generalizing ledger with
  | nil =>
    obtain rfl : ledger = final := by simpa [tryEach] using ended
    exact .refl _
  | cons first clauses ih =>
    rw [tryEach] at ended
    obtain ⟨next, endedFirst, endedRest, -⟩ := Outcome.exists_of_final_andThen ended
    exact (keeps first ledger next endedFirst).trans (ih endedRest)

end Ended

theorem tryClause_keeps {solveRest : List Term → Bindings → Ledger → Outcome}
    (keeps : ∀ goals s ledger ledger', (solveRest goals s ledger).final = some ledger' →
      ledger.Keeps ledger')
    (goal : Term) (rest : List Term) (s : Bindings) (clause : Clause) (ledger ledger' : Ledger)
    (ended : (tryClause solveRest goal rest s clause ledger).final = some ledger') :
    ledger.Keeps ledger' := by
  cases outcome : (s.unify goal (ledger.variant clause).head).conflict with
  | some conflict =>
    rw [tryClause_of_conflict outcome] at ended
    obtain rfl : ledger.next clause = ledger' := by simpa using ended
    exact ledger.keeps_next clause
  | none =>
    rw [tryClause_of_success outcome] at ended
    exact (ledger.keeps_next clause).trans (keeps _ _ _ _ ended)

/-- A search hands on a ledger in which every name in use is still in use. -/
theorem solve_keeps (clauses : List Clause) (vars : List Symbol) (depth : Nat) (goals : List Term)
    (s : Bindings) (ledger ledger' : Ledger)
    (ended : (solve clauses vars depth goals s ledger).final = some ledger') :
    ledger.Keeps ledger' := by
  induction depth generalizing goals s ledger ledger' with
  | zero => simp [solve] at ended
  | succ depth ih =>
    cases goals with
    | nil =>
      obtain rfl : ledger = ledger' := by simpa [solve] using ended
      exact .refl _
    | cons goal rest =>
      rw [solve] at ended
      exact tryEach_keeps (tryClause_keeps ih goal rest s) ended

/-! ## Provable instances are found -/

/-- An assignment that agrees on the names in use solves the same bindings. -/
theorem Bindings.SolvedBy.congr {s : Bindings} {θ θ' : Symbol → Term} (solved : s.SolvedBy θ)
    (indexed : s.Indexed) {supply : NameSupply} (all : s.All supply.Covers)
    (agree : ∀ x, supply.Used x → θ' x = θ x) : s.SolvedBy θ' := by
  intro x t found
  have coversVar := all.var_of_lookup indexed found
  have coversTerm := all.lookup found
  calc θ' x = θ x := agree x (coversVar x (by simp))
    _ = t.instantiate θ := solved x t found
    _ = t.instantiate θ' :=
      Term.instantiate_congr fun y occurs => (agree y (coversTerm y occurs)).symm

/-- The predicate of a term is that of its instances, unless the term is a variable. -/
theorem Term.predicate?_instantiate {t : Term} {predicate : Predicate}
    (known : t.predicate? = some predicate) (θ : Symbol → Term) :
    (t.instantiate θ).predicate? = some predicate := by
  cases t with
  | atom name => rwa [instantiate_atom]
  | var x => simp [predicate?] at known
  | compound functor args =>
    rw [instantiate_compound, predicate?, List.length_map]
    exact known

/-- Bindings resolve a term to one of the predicate of what it walks to. -/
theorem Bindings.Acyclic.predicate?_resolve {s : Bindings} (acyclic : s.Acyclic) (t : Term) :
    (s.resolve t).predicate? = (s.walk t).predicate? := by
  rw [← acyclic.resolve_walk]
  cases walked : s.walk t with
  | atom name => rw [resolve_atom]
  | var x => rw [resolve_var, value_of_unbound (acyclic.lookup_of_walk walked)]
  | compound functor args => simp [Term.predicate?]

theorem Clause.suits_of_instantiate_eq {clause : Clause} {goal : Term} {θ ρ : Symbol → Term}
    (same : goal.instantiate θ = (clause.instantiate ρ).head) : clause.suits goal = true := by
  unfold suits
  cases known : goal.predicate? with
  | none => rfl
  | some predicate =>
    have own := Term.predicate?_instantiate known θ
    rw [same, clause.predicate?_head_instantiate] at own
    simp [own]

/-- An assignment may be changed at names that are not in use. -/
theorem NameSupply.Covers.instantiate_eq {supply : NameSupply} {t : Term} (covers : supply.Covers t)
    {θ θ' : Symbol → Term} (agree : ∀ x, supply.Used x → θ' x = θ x) :
    t.instantiate θ' = t.instantiate θ :=
  Term.instantiate_congr fun x occurs => agree x (covers x occurs)

/-- An attempt succeeds if the goal and the head of the clause have a common instance, even one
that the bindings leave open. The assignment is changed at the new names only. -/
theorem exists_assignment_of_attempt {s : Bindings} {ledger : Ledger} {goal : Term}
    (acyclic : s.Acyclic) (all : s.All ledger.names.Covers) (covers : ledger.names.Covers goal)
    {θ ρ : Symbol → Term} (solved : s.SolvedBy θ) {clause : Clause}
    (head : (clause.instantiate ρ).head = goal.instantiate θ) :
    (s.unify goal (ledger.variant clause).head).conflict = none ∧
      ∃ θ' : Symbol → Term, (∀ x, ledger.names.Used x → θ' x = θ x) ∧
        (ledger.variant clause).instantiate θ' = clause.instantiate ρ ∧
        (s.unify goal (ledger.variant clause).head).bindings.SolvedBy θ' := by
  obtain ⟨θ', agree, renamed⟩ := ledger.names.exists_instance_renameClause clause ρ θ
  have solved' : s.SolvedBy θ' := solved.congr acyclic.indexed all agree
  have equal : goal.instantiate θ' = (ledger.variant clause).head.instantiate θ' := by
    calc goal.instantiate θ' = goal.instantiate θ := covers.instantiate_eq agree
      _ = (clause.instantiate ρ).head := head.symm
      _ = ((ledger.variant clause).instantiate θ').head := congrArg Clause.head renamed.symm
      _ = (ledger.variant clause).head.instantiate θ' := by
        rw [Clause.head_instantiate, ledger.app_head_variant]
  have success := acyclic.unify_conflict_eq_none_iff.2 ⟨θ', solved', equal⟩
  exact ⟨success, θ', agree, renamed, (acyclic.solvedBy_unify_iff success θ').2 ⟨solved', equal⟩⟩

variable {clauses : List Clause}

/-- The recursive search, if it has ended, has for every assignment that solves the bindings and
makes the goals provable an answer of which it is an instance. -/
theorem exists_answer_of_provable {vars : List Symbol} {depth : Nat} {goals : List Term}
    {s : Bindings} {ledger final : Ledger} (acyclic : s.Acyclic) (all : s.All ledger.names.Covers)
    (covers : ∀ goal ∈ goals, ledger.names.Covers goal)
    (ended : (solve clauses vars depth goals s ledger).final = some final) {θ : Symbol → Term}
    (solved : s.SolvedBy θ) (provable : ∀ goal ∈ goals, Provable clauses (goal.instantiate θ)) :
    ∃ found ∈ (solve clauses vars depth goals s ledger).answers,
      ∃ (s' : Bindings) (θ' : Symbol → Term), found.1 = s'.answer vars ∧ s'.SolvedBy θ' ∧
        ∀ x, ledger.names.Used x → θ' x = θ x := by
  induction depth generalizing goals s ledger final θ with
  | zero => simp [solve] at ended
  | succ depth ih =>
    cases goals with
    | nil => exact ⟨_, List.mem_cons_self, s, θ, rfl, solved, fun _ _ => rfl⟩
    | cons goal rest =>
      rw [solve] at ended ⊢
      obtain ⟨clause, member, ρ, head, body⟩ :=
        (provable goal List.mem_cons_self).exists_clause
      have suits : clause.suits (s.walk goal) = true :=
        Clause.suits_of_instantiate_eq ((solved.instantiate_walk goal).trans head.symm)
      -- The clause that makes the goal provable was tried, and its branch came to an end.
      obtain ⟨before, after, keeps, endedClause, subset⟩ :=
        exists_attempt_of_ended (tryClause_keeps (solve_keeps clauses vars depth) goal rest s) ended
          (List.mem_filter.2 ⟨member, suits⟩)
      obtain ⟨success, θ₁, agree, renamed, solvedNext⟩ := exists_assignment_of_attempt acyclic
        (keeps.all all) (keeps.covers (covers goal List.mem_cons_self)) solved head
      -- What is left to solve is provable under the changed assignment.
      have keepsNext := keeps.trans (before.keeps_next clause)
      have grows := Bindings.unify_grows NameSupply.Covers.arg
        (keepsNext.covers (covers goal List.mem_cons_self)) (before.covers_head clause)
        (keepsNext.all all)
      have coversNext : ∀ t ∈ (before.variant clause).body ++ rest,
          (before.next clause).names.Covers t := by
        intro t waiting
        rcases List.mem_append.1 waiting with inBody | inRest
        · exact before.covers_body clause inBody
        · exact keepsNext.covers (covers t (List.mem_cons_of_mem _ inRest))
      have provableNext : ∀ t ∈ (before.variant clause).body ++ rest,
          Provable clauses (t.instantiate θ₁) := by
        intro t waiting
        rcases List.mem_append.1 waiting with inBody | inRest
        · refine body _ ?_
          rw [← renamed, Clause.body_instantiate]
          exact List.mem_map_of_mem inBody
        · have covered := keeps.covers (covers t (List.mem_cons_of_mem _ inRest))
          rw [covered.instantiate_eq agree]
          exact provable t (List.mem_cons_of_mem _ inRest)
      rw [tryClause_of_success success] at endedClause subset
      obtain ⟨found, inAnswers, s', θ', shown, solved', agree'⟩ :=
        ih (grows.acyclic acyclic) (grows.all (keepsNext.all all)) coversNext endedClause solvedNext
          provableNext
      refine ⟨found, subset inAnswers, s', θ', shown, solved', ?_⟩
      intro x used
      rw [agree' x (keepsNext x used), agree x (keeps x used)]

/-! ## Exhausted queries -/

/-- If the calls for a query return solutions and then the end, every provable instance of the
goals is an instance of one of these solutions. -/
theorem exists_solution_of_exhausted {goals : List Term} {limits : Limits}
    {answers : List (Solution × Nat)} {attempts : Nat}
    (calls : Calls ((KnowledgeBase.ofClauses clauses).query goals limits)
      (answers.map answered ++ [(.exhausted, attempts)]))
    {θ : Symbol → Term} (provable : ∀ goal ∈ goals, Provable clauses (goal.instantiate θ)) :
    ∃ found ∈ answers, ∃ ρ : Symbol → Term, ∀ x ∈ Term.varsAll goals,
      ∃ t, found.1.get? x = some t ∧ θ x = t.instantiate ρ := by
  obtain ⟨depth, final, rfl, ended⟩ := calls.exists_depth_of_exhausted
  have reserved (x : Symbol) (asked : x ∈ Term.varsAll goals) :
      (NameSupply.avoiding (Term.varsAll goals)).Used x := .inl asked
  have covers : ∀ goal ∈ goals, (NameSupply.avoiding (Term.varsAll goals)).Covers goal :=
    fun goal member x occurs => reserved x (Term.mem_varsAll.2 ⟨goal, member, occurs⟩)
  obtain ⟨found, member, s, ρ, shown, solved, agree⟩ := exists_answer_of_provable
    Bindings.acyclic_empty (Bindings.all_empty _) covers ended (Bindings.solvedBy_empty θ) provable
  refine ⟨found, member, ρ, fun x asked => ⟨s.value x, ?_, ?_⟩⟩
  · rw [shown]
    exact s.value_answer asked
  · rw [← agree x (reserved x asked)]
    exact (solved.instantiate_valueWithin s.size x).symm

open Family in
/-- That Tom is a grandparent of Ann is provable, so the family has a solution that says so. -/
theorem exists_solution_tom :
    let goals := [grandparent (.var "G") (person "ann")]
    let answers : List (Solution × Nat) :=
      [(⟨[("G", person "pam")]⟩, 6), (⟨[("G", person "tom")]⟩, 13)]
    Calls ((KnowledgeBase.ofClauses Family.clauses).query goals .unbounded)
        (answers.map answered ++ [(.exhausted, 43)]) ∧
      Provable Family.clauses (grandparent (person "tom") (person "ann")) ∧
      ∃ found ∈ answers, ∃ ρ : Symbol → Term, ∀ x ∈ Term.varsAll goals,
        ∃ t, found.1.get? x = some t ∧ person "tom" = t.instantiate ρ := by
  intro goals answers
  have calls : Calls ((KnowledgeBase.ofClauses Family.clauses).query goals .unbounded)
      (answers.map answered ++ [(.exhausted, 43)]) :=
    Search.calls_iff.2 ⟨120, by decide +kernel⟩
  have bob : Provable Family.clauses (parent (person "tom") (person "bob")) :=
    .of_fact (show fact (parent (person "tom") (person "bob")) ∈ _ by decide +kernel) rfl
  have ann : Provable Family.clauses (parent (person "bob") (person "ann")) :=
    .of_fact (show fact (parent (person "bob") (person "ann")) ∈ _ by decide +kernel) rfl
  have tom : Provable Family.clauses (grandparent (person "tom") (person "ann")) :=
    .resolve (rule (grandparent (.var "X") (.var "Y"))
        [parent (.var "X") (.var "Z"), parent (.var "Z") (.var "Y")])
      (fun x => if x = "X" then person "tom" else if x = "Y" then person "ann" else person "bob")
      (by decide +kernel) (List.forall_mem_cons.2 ⟨bob, List.forall_mem_singleton.2 ann⟩)
  exact ⟨calls, tom, exists_solution_of_exhausted calls (θ := fun _ => person "tom")
    (List.forall_mem_singleton.2 tom)⟩

end HornLogic
