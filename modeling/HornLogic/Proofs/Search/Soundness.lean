import HornLogic.Family
import HornLogic.Proofs.Provability
import HornLogic.Proofs.Search.Limited
import HornLogic.Proofs.Unification.MostGeneral

/-!
# Answers are right

Every goal of a query is provable when its variables are given the values of a solution.

The recursive search finds an answer under some last bindings, which have grown from those it
started with. Read as equations, bindings that grow keep the equations they had. So an assignment
that solves the last bindings makes each selected goal equal to the head of the clause it was
resolved with, and the goals that were solved along the way are provable under it, from the last one
back to the first (`exists_bindings_of_answer`). The values of the variables under the last bindings
are such an assignment.
-/

namespace HornLogic

/-! ## One answer of the recursive search -/

theorem exists_attempt_of_mem {attempt : Clause → Ledger → Outcome} {clauses : List Clause}
    {ledger : Ledger} {found : Solution × Nat}
    (member : found ∈ (tryEach attempt clauses ledger).answers) :
    ∃ clause ∈ clauses, ∃ ledger', found ∈ (attempt clause ledger').answers := by
  induction clauses generalizing ledger with
  | nil => simp [tryEach] at member
  | cons clause clauses ih =>
    rw [tryEach] at member
    cases ended : (attempt clause ledger).final with
    | none =>
      rw [Outcome.andThen_of_none ended] at member
      exact ⟨clause, List.mem_cons_self, ledger, member⟩
    | some ledger' =>
      rw [Outcome.answers_andThen_of_some ended, List.mem_append] at member
      rcases member with first | later
      · exact ⟨clause, List.mem_cons_self, ledger, first⟩
      · obtain ⟨other, inRest, before, inOther⟩ := ih later
        exact ⟨other, List.mem_cons_of_mem _ inRest, before, inOther⟩

/-- An answer found with a clause was found after its head was unified with the goal. -/
theorem exists_success_of_mem {solveRest : List Term → Bindings → Ledger → Outcome} {goal : Term}
    {rest : List Term} {s : Bindings} {clause : Clause} {ledger : Ledger} {found : Solution × Nat}
    (member : found ∈ (tryClause solveRest goal rest s clause ledger).answers) :
    (s.unify goal (ledger.variant clause).head).conflict = none ∧
      found ∈ (solveRest ((ledger.variant clause).body ++ rest)
        (s.unify goal (ledger.variant clause).head).bindings (ledger.next clause)).answers := by
  cases outcome : (s.unify goal (ledger.variant clause).head).conflict with
  | some conflict =>
    rw [tryClause_of_conflict outcome] at member
    simp at member
  | none =>
    rw [tryClause_of_success outcome] at member
    exact ⟨rfl, member⟩

variable {clauses : List Clause}

/-- An answer shows the values under bindings whose solutions all make the goals provable. -/
theorem exists_bindings_of_answer {vars : List Symbol} {depth : Nat} {goals : List Term}
    {s : Bindings} {ledger : Ledger} (acyclic : s.Acyclic) {found : Solution × Nat}
    (member : found ∈ (solve clauses vars depth goals s ledger).answers) :
    ∃ s', Bindings.Grows (fun _ => True) s s' ∧ found.1 = s'.answer vars ∧
      ∀ θ, s'.SolvedBy θ → ∀ goal ∈ goals, Provable clauses (goal.instantiate θ) := by
  induction depth generalizing goals s ledger with
  | zero => simp [solve] at member
  | succ depth ih =>
    cases goals with
    | nil =>
      have last : found = (s.answer vars, ledger.attempts) := by simpa [solve] using member
      refine ⟨s, .refl, by rw [last], ?_⟩
      intro θ _ goal none
      exact absurd none List.not_mem_nil
    | cons goal rest =>
      rw [solve] at member
      obtain ⟨clause, offered, before, inClause⟩ := exists_attempt_of_mem member
      obtain ⟨success, inRest⟩ := exists_success_of_mem inClause
      have growsFirst := Bindings.unify_grows_any s goal (before.variant clause).head
      obtain ⟨s', grows, shown, provable⟩ := ih (growsFirst.acyclic acyclic) inRest
      refine ⟨s', growsFirst.trans grows, shown, ?_⟩
      intro θ solved other waiting
      have waits (t : Term) (inGoals : t ∈ (before.variant clause).body ++ rest) :
          Provable clauses (t.instantiate θ) := provable θ solved t inGoals
      rcases List.mem_cons.1 waiting with rfl | inRest
      -- The first goal is equal to the head of the clause, the others are solved later on.
      · have solvedFirst := grows.solvedBy (growsFirst.acyclic acyclic) solved
        have equal := ((acyclic.solvedBy_unify_iff success θ).1 solvedFirst).2
        rw [equal]
        refine .of_instance (List.mem_of_mem_filter offered) _ _ fun t inBody => ?_
        exact waits t (List.mem_append_left rest inBody)
      · exact waits other (List.mem_append_right _ inRest)

/-! ## Solutions of a query -/

/-- The solution shows for each variable its value under the bindings. -/
theorem Bindings.value_answer (s : Bindings) {vars : List Symbol} {x : Symbol} (member : x ∈ vars) :
    (s.answer vars).get? x = some (s.value x) := by
  unfold Solution.get? Bindings.answer
  induction vars with
  | nil => exact absurd member List.not_mem_nil
  | cons y vars ih =>
    rw [List.map_cons, List.lookup_cons]
    by_cases same : x = y
    · subst same
      simp [resolve_eq_instantiate]
    · have inRest : x ∈ vars := (List.mem_cons.1 member).resolve_left same
      have miss : (x == y) = false := by simpa using same
      rw [miss]
      exact ih inRest

/-- The solution gives the variables that it shows their values. -/
theorem Bindings.instantiate_value_answer (s : Bindings) {vars : List Symbol} {t : Term}
    (shown : ∀ x ∈ t.occurrences, x ∈ vars) :
    t.instantiate (s.answer vars).value = s.resolve t := by
  refine Term.instantiate_congr fun x occurs => ?_
  rw [Solution.value, s.value_answer (shown x occurs)]
  rfl

/-- The goals of a query are provable with the values of any solution that is returned, and so are
all their further instances. -/
theorem provable_of_solution {goals : List Term} {limits : Limits} {results : List (Report × Nat)}
    (calls : Calls ((KnowledgeBase.ofClauses clauses).query goals limits) results)
    {answer : Solution} {attempts : Nat} (returned : (.solution answer, attempts) ∈ results)
    {goal : Term} (asked : goal ∈ goals) :
    Provable clauses (goal.instantiate answer.value) ∧
      ∀ τ, Provable clauses ((goal.instantiate answer.value).instantiate τ) := by
  obtain ⟨depth, member⟩ := calls.exists_depth_of_solution returned
  obtain ⟨s, grows, shown, provable⟩ := exists_bindings_of_answer Bindings.acyclic_empty member
  have acyclic := grows.acyclic Bindings.acyclic_empty
  -- On the variables of the goals the solution is the same as the bindings.
  have values : goal.instantiate answer.value = goal.instantiate s.value := by
    refine Term.instantiate_congr fun x occurs => ?_
    have known : answer.get? x = some (s.value x) := by
      rw [show answer = _ from shown]
      exact s.value_answer (Term.mem_varsAll.2 ⟨goal, asked, occurs⟩)
    rw [Solution.value, known]
    rfl
  have first : Provable clauses (goal.instantiate answer.value) := by
    rw [values]
    exact provable s.value acyclic.solvedBy_value goal asked
  exact ⟨first, first.instantiate⟩

open Family in
/-- The second solution that the family has for a grandparent of Ann is right. -/
theorem provable_grandparent_of_ann :
    let query := (KnowledgeBase.ofClauses Family.clauses).query
      [grandparent (.var "G") (person "ann")] .unbounded
    let results : List (Report × Nat) :=
      [(.solution ⟨[("G", person "pam")]⟩, 6), (.solution ⟨[("G", person "tom")]⟩, 13)]
    Calls query results ∧
      Provable Family.clauses (grandparent (person "tom") (person "ann")) := by
  intro query results
  have calls : Calls query results := Search.calls_iff.2 ⟨60, by decide +kernel⟩
  have right := provable_of_solution calls (List.mem_cons_of_mem _ List.mem_cons_self)
    List.mem_cons_self
  have instance_eq : (grandparent (.var "G") (person "ann")).instantiate
      (Solution.value ⟨[("G", person "tom")]⟩) = grandparent (person "tom") (person "ann") := by
    decide +kernel
  exact ⟨calls, instance_eq ▸ right.1⟩

end HornLogic
