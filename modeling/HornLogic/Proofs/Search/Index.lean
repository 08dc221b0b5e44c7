import HornLogic.Proofs.Search.Twins

/-!
# What the index changes

A search could do without the index and try all clauses for every goal. It would give the same
solutions in the same order, exceed a depth limit at the same place and end when the search with the
index ends. The index saves attempts with clauses that clash with the goal at once. As these
attempts take up fresh names, the names in the solutions differ, but only by a renaming of
the variables that are not in the query (`calls_query_scan`).
-/

namespace HornLogic

/-- The search for the goals that tries all clauses for each of them, in order. -/
def Search.scan (clauses : List Clause) (goals : List Term) (limits : Limits) : Search :=
  .start (fun _ => clauses) goals limits

/-- The second results are the first ones after a renaming of variables, the same for all of
them, that leaves the variables of the goals alone. They took as many attempts or more. -/
def SameUpToNames (goals : List Term) (results results' : List (Report × Nat)) : Prop :=
  ∃ π : Equiv.Perm Symbol, (∀ x ∈ Term.varsAll goals, π x = x) ∧
    List.Forall₂ (fun result result' => result'.1 = result.1.rename π ∧ result.2 ≤ result'.2)
      results results'

theorem SameUpToNames.of_sameResult {skips : Prop} {goals : List Term} {dict : Dictionary}
    {results results' : List (Report × Nat)}
    (fixed : ∀ x ∈ Term.varsAll goals, dict.perm x = x)
    (same : List.Forall₂ (SameResult skips dict) results results') :
    SameUpToNames goals results results' :=
  ⟨dict.perm, fixed, same.imp fun _ _ same => ⟨same.report, same.steps⟩⟩

/-- To offer all clauses is to offer those that suit the goal and some that do not. -/
theorem offered_filter (goal : Term) (clauses : List Clause) :
    Offered True goal (clauses.filter (·.suits goal)) clauses := by
  induction clauses with
  | nil => exact .nil
  | cons clause clauses ih =>
    cases suits : clause.suits goal with
    | true =>
      rw [List.filter_cons_of_pos suits]
      exact .alike (.refl clause) ih
    | false =>
      rw [List.filter_cons_of_neg (by simp [suits])]
      exact .skipped trivial suits ih

theorem map_rename_refl (goals : List Term) :
    goals.map (Term.rename (Equiv.refl Symbol)) = goals :=
  List.map_id'' (fun _ => Term.rename_eq_self fun _ _ => rfl) goals

/-- Without a limit on attempts, with or without a limit on the depth: what calls return of a
query, calls return of the search that tries all clauses for every goal, and the other way round, up
to names and with no fewer attempts. A clause that the knowledge base does not offer for what a goal
walks to, under any bindings, does not unify with the goal, whatever its fresh names. -/
theorem calls_query_scan (clauses : List Clause) (goals : List Term) (maxDepth : Option Nat) :
    let kb := KnowledgeBase.ofClauses clauses
    let limits : Limits := { maxDepth }
    (∀ results, Calls (kb.query goals limits) results → ∃ results',
      Calls (.scan clauses goals limits) results' ∧ SameUpToNames goals results results') ∧
    (∀ results', Calls (.scan clauses goals limits) results' → ∃ results,
      Calls (kb.query goals limits) results ∧ SameUpToNames goals results results') ∧
    ∀ (s : Bindings) goal supply, ∀ clause ∈ clauses, clause ∉ kb.matching (s.walk goal) →
      (s.unify goal (NameSupply.renameClause supply clause).1.head).conflict ≠ none := by
  intro kb limits
  have offered (π : Equiv.Perm Symbol) (t : Term) : Offered True t (kb.matching t) clauses := by
    rw [KnowledgeBase.matching_ofClauses]
    exact offered_filter t clauses
  have same := map_rename_refl goals
  refine ⟨?_, ?_, ?_⟩
  · intro results calls
    obtain ⟨results', dict, calls', fixed, related⟩ :=
      Calls.exists_of_offered (fun _ => clauses) goals limits (Equiv.refl Symbol) (fun _ => rfl)
        offered calls
    rw [same] at calls'
    exact ⟨results', calls', .of_sameResult fixed related⟩
  · intro results' calls'
    rw [Search.scan, ← same] at calls'
    obtain ⟨results, dict, calls, fixed, related⟩ :=
      Calls.exists_of_offered' (fun _ => clauses) goals limits (Equiv.refl Symbol) (fun _ => rfl)
        offered calls'
    exact ⟨results, calls, .of_sameResult fixed related⟩
  · intro s goal supply clause member notOffered
    have unsuited : clause.suits (s.walk goal) = false := by
      rw [KnowledgeBase.matching_ofClauses, List.mem_filter] at notOffered
      simpa [member] using notOffered
    rw [Bindings.unify_clash_of_not_suits unsuited supply]
    exact nofun

/-- For `p(X)` the index passes over `q(Y)`. The search without it tries `q(Y)` in vain, which takes
up an attempt and the number 0, so that `X` gets a value of another name. -/
theorem calls_query_scan_q :
    let clauses : List Clause := [.ofParts "q" [.var "Y"] [], .ofParts "p" [.var "Z"] []]
    let goals : List Term := [.app "p" [.var "X"]]
    let results : List (Report × Nat) := [(.solution { bindings := [("X", .var "Z#0")] }, 1)]
    let results' : List (Report × Nat) := [(.solution { bindings := [("X", .var "Z#1")] }, 2)]
    Calls ((KnowledgeBase.ofClauses clauses).query goals {}) results ∧
      Calls (.scan clauses goals {}) results' ∧
      (∃ others, Calls (.scan clauses goals {}) others ∧ SameUpToNames goals results others) ∧
      (∃ others, Calls ((KnowledgeBase.ofClauses clauses).query goals {}) others ∧
        SameUpToNames goals others results') ∧
      ∀ supply : NameSupply, (Bindings.empty.unify (.app "p" [.var "X"])
        (supply.renameClause (.ofParts "q" [.var "Y"] [])).1.head).conflict ≠ none := by
  intro clauses goals results results'
  have calls : Calls ((KnowledgeBase.ofClauses clauses).query goals {}) results :=
    Search.calls_iff.2 ⟨3, by decide +kernel⟩
  have calls' : Calls (.scan clauses goals {}) results' :=
    Search.calls_iff.2 ⟨4, by decide +kernel⟩
  obtain ⟨indexed, scanned, passed⟩ := calls_query_scan clauses goals none
  refine ⟨calls, calls', indexed results calls, scanned results' calls', ?_⟩
  intro supply
  exact passed .empty (.app "p" [.var "X"]) supply _ List.mem_cons_self (by decide +kernel)

end HornLogic
