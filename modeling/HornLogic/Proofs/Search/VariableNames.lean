import HornLogic.Proofs.Search.Twins

/-!
# Names of variables do not matter

The names of variables enter a search everywhere. The variables of the goals are reserved, the fresh
names of a clause are made from those that it was written with, and a variable is bound and looked
up by name. Still nothing depends on them but the names in the solutions. If each clause is written
with other variables, and the goals are asked with other variables, calls return the same number of
solutions, the same errors and the same end, after the same numbers of attempts (`Renamed`).

The two searches are `Twins` from the beginning, with a dictionary that has the variables of the
goals. The fresh names are added to it in pairs, whatever numbers they get on either side.
-/

namespace HornLogic

/-- The second results are the first ones under other names, the same for all of them. The variables
of the goals have the names that are given for them. -/
def Renamed (goals : List Term) (ρ : Symbol → Symbol) (results results' : List (Report × Nat)) :
    Prop :=
  ∃ π : Equiv.Perm Symbol, (∀ x ∈ Term.varsAll goals, π x = ρ x) ∧
    results' = results.map fun (report, attempts) => (report.rename π, attempts)

theorem Renamed.of_sameResult {skips : Prop} (noSkips : ¬ skips) {goals : List Term}
    {ρ : Symbol → Symbol} {dict : Dictionary} {results results' : List (Report × Nat)}
    (agree : ∀ x ∈ Term.varsAll goals, dict.perm x = ρ x)
    (same : List.Forall₂ (SameResult skips dict) results results') :
    Renamed goals ρ results results' := by
  refine ⟨dict.perm, agree, ?_⟩
  induction same with
  | nil => rfl
  | cons first _ ih =>
    rw [List.map_cons, ← ih]
    exact congrArg (List.cons · _) (Prod.ext first.report (first.steps_eq noSkips).symm)

/-- Clauses that are alike suit the same goals, under whatever names. -/
theorem Clause.Alike.suits_rename {c d : Clause} (alike : c.Alike d) (ρ : Symbol → Symbol)
    (goal : Term) : d.suits (goal.rename ρ) = c.suits goal := by
  obtain ⟨ρ', -, head, -⟩ := alike
  simp only [Clause.suits, Term.predicate?_rename, head]

theorem offered_of_alike {clauses clauses' : List Clause}
    (alike : List.Forall₂ Clause.Alike clauses clauses') (ρ : Symbol → Symbol) (goal : Term) :
    Offered False goal (clauses.filter (·.suits goal))
      (clauses'.filter (·.suits (goal.rename ρ))) := by
  induction alike with
  | nil => exact .nil
  | @cons c d clauses clauses' first _ ih =>
    have same := first.suits_rename ρ goal
    cases suits : c.suits goal with
    | true =>
      rw [List.filter_cons_of_pos suits, List.filter_cons_of_pos (same.trans suits)]
      exact .alike first ih
    | false =>
      rw [List.filter_cons_of_neg (by simp [suits]),
        List.filter_cons_of_neg (by simp [same, suits])]
      exact ih

/-- If every clause is written with other variables, each in its own way, and so are the goals, then
calls return the same as before, under other names, with the same numbers of attempts. This holds
under all limits, and in both directions: neither search reports anything that the other one does
not report. -/
theorem calls_query_rename {clauses clauses' : List Clause}
    (alike : List.Forall₂ Clause.Alike clauses clauses') (goals : List Term) (limits : Limits)
    {ρ : Symbol → Symbol}
    (inj : ∀ x ∈ Term.varsAll goals, ∀ y ∈ Term.varsAll goals, ρ x = ρ y → x = y) :
    let search := (KnowledgeBase.ofClauses clauses).query goals limits
    let search' := (KnowledgeBase.ofClauses clauses').query (goals.map (Term.rename ρ)) limits
    (∀ results, Calls search results → ∃ results',
      Calls search' results' ∧ Renamed goals ρ results results') ∧
    ∀ results', Calls search' results' → ∃ results,
      Calls search results ∧ Renamed goals ρ results results' := by
  intro search search'
  obtain ⟨π, agree⟩ := Dictionary.exists_perm inj
  have renamed : goals.map (Term.rename ρ) = goals.map (Term.rename π) := by
    refine List.map_congr_left fun goal member => Term.rename_congr fun x occurs => ?_
    exact (agree x (Term.mem_varsAll.2 ⟨goal, member, occurs⟩)).symm
  have offered (π : Equiv.Perm Symbol) (t : Term) :
      Offered False t ((KnowledgeBase.ofClauses clauses).matching t)
        ((KnowledgeBase.ofClauses clauses').matching (t.rename π)) := by
    rw [KnowledgeBase.matching_ofClauses, KnowledgeBase.matching_ofClauses]
    exact offered_of_alike alike π t
  constructor
  · intro results calls
    obtain ⟨results', dict, calls', kept, same⟩ := Calls.exists_of_offered
      (KnowledgeBase.ofClauses clauses').matching goals limits π False.elim offered calls
    refine ⟨results', ?_, .of_sameResult id (fun x asked => ?_) same⟩
    · show Calls ((KnowledgeBase.ofClauses clauses').query (goals.map (Term.rename ρ)) limits) _
      rw [renamed]
      exact calls'
    · exact (kept x asked).trans (agree x asked)
  · intro results' calls'
    have calls' : Calls
        ((KnowledgeBase.ofClauses clauses').query (goals.map (Term.rename π)) limits) results' :=
      renamed ▸ calls'
    obtain ⟨results, dict, calls, kept, same⟩ := Calls.exists_of_offered'
      (KnowledgeBase.ofClauses clauses').matching goals limits π False.elim offered calls'
    exact ⟨results, calls, .of_sameResult id (fun x asked => (kept x asked).trans (agree x asked))
      same⟩

/-- The fact `p(Y, f(Z))` is written as `p(Z#0, f(X))`, and `p(A, B)` is asked as `p(Z#0, B)`. Now
`Z#0` is reserved, so the fresh names get other numbers. -/
theorem calls_query_rename_p :
    let fact : Clause := .ofParts "p" [.var "Y", .app "f" [.var "Z"]] []
    let fact' : Clause := .ofParts "p" [.var "Z#0", .app "f" [.var "X"]] []
    let goals : List Term := [.app "p" [.var "A", .var "B"]]
    let ρ : Symbol → Symbol := fun x => if x = "A" then "Z#0" else x
    let results : List (Report × Nat) :=
      [(.solution { bindings := [("A", .var "Y#0"), ("B", .app "f" [.var "Z#1"])] }, 1)]
    let results' : List (Report × Nat) :=
      [(.solution { bindings := [("Z#0", .var "Z#1"), ("B", .app "f" [.var "X#2"])] }, 1)]
    Calls ((KnowledgeBase.ofClauses [fact]).query goals .unbounded) results ∧
      Calls ((KnowledgeBase.ofClauses [fact']).query (goals.map (Term.rename ρ)) .unbounded)
        results' ∧
      (∃ others, Calls ((KnowledgeBase.ofClauses [fact']).query
        (goals.map (Term.rename ρ)) .unbounded) others ∧ Renamed goals ρ results others) ∧
      ∃ others, Calls ((KnowledgeBase.ofClauses [fact]).query goals .unbounded) others ∧
        Renamed goals ρ others results' := by
  intro fact fact' goals ρ results results'
  have alike : fact.Alike fact' :=
    ⟨fun x => if x = "Y" then "Z#0" else "X", by decide +kernel, by decide +kernel,
      by decide +kernel⟩
  have calls : Calls ((KnowledgeBase.ofClauses [fact]).query goals .unbounded) results :=
    Search.calls_iff.2 ⟨3, by decide +kernel⟩
  have calls' : Calls ((KnowledgeBase.ofClauses [fact']).query (goals.map (Term.rename ρ))
      .unbounded) results' :=
    Search.calls_iff.2 ⟨3, by decide +kernel⟩
  obtain ⟨there, back⟩ := calls_query_rename (.cons alike .nil) goals .unbounded
    (show ∀ x ∈ Term.varsAll goals, ∀ y ∈ Term.varsAll goals, ρ x = ρ y → x = y by
      decide +kernel)
  exact ⟨calls, calls', there results calls, back results' calls'⟩

end HornLogic
