import HornLogic.Proofs.Search.Forests

/-!
# The order of goals

The order of goals decides what the search looks like. It decides which clauses are tried, with
which bindings, how many attempts are made, and whether the search ends at all. But if queries for
the same goals in two orders both end, they have the same solutions, each as often in one as in the
other. The solutions come in another order, and the names of their variables may be different
(`ended_goals_perm`).

The two search trees have little in common, and to permute the goals step by step would lead through
orders in which the search does not end. So the proof does not compare the searches. Both queries
have one solution for each proof forest, and the forests for one order are those for the other one,
with the trees permuted. The solutions for the same forest are instances of each other, since both
are most general (`MostGeneral.variant`).

The variables of the query have no special part in this. Where the value of one is another one, it
may be the other way round in the other order.
-/

namespace HornLogic

/-! ## Solutions of the same forest -/

/-- One renaming turns the values of the first solution into those of the second one. -/
def Solution.Variant (answer answer' : Solution) : Prop :=
  ∃ π : Equiv.Perm Symbol, ∀ x, answer'.get? x = (answer.get? x).map (Term.rename π)

variable {clauses : List Clause} {goals goals' : List Term}

/-- If two forests prove permuted goals under the same assignments, their most general solutions are
variants of each other. -/
theorem MostGeneral.variant {forest forest' : List ProofTree} {answer answer' : Solution}
    (perm : goals.Perm goals')
    (same : ∀ θ, Solves clauses forest' goals' θ ↔ Solves clauses forest goals θ)
    (first : MostGeneral clauses goals forest answer)
    (second : MostGeneral clauses goals' forest' answer') : answer.Variant answer' := by
  have asked_iff (x : Symbol) : x ∈ Term.varsAll goals' ↔ x ∈ Term.varsAll goals := by
    simp only [Term.mem_varsAll, perm.mem_iff]
  obtain ⟨ρ, forth⟩ := first.general _ ((same _).1 second.solves)
  obtain ⟨ρ', back⟩ := second.general _ ((same _).2 first.solves)
  obtain ⟨π, renamed⟩ :=
    exists_rename_of_instances forth fun x asked => back x ((asked_iff x).2 asked)
  refine ⟨π, fun x => ?_⟩
  by_cases asked : x ∈ Term.varsAll goals
  · rw [first.shown x asked, second.shown x ((asked_iff x).2 asked), renamed x asked]
    rfl
  · rw [first.hidden x asked, second.hidden x (mt (asked_iff x).1 asked)]
    rfl

/-- If the queries for some goals in two orders both end, they have the same solutions, each as
often in one as in the other, up to the names of variables. -/
theorem ended_goals_perm {answers answers' : List (Solution × Nat)} {attempts attempts' : Nat}
    (perm : goals.Perm goals') (ended : Ended clauses goals answers attempts)
    (ended' : Ended clauses goals' answers' attempts') :
    SameSolutions Solution.Variant answers answers' := by
  obtain ⟨forests, nodup, found, mem_iff⟩ := ended.exists_forests
  obtain ⟨forests', nodup', found', mem_iff'⟩ := ended'.exists_forests
  obtain ⟨φ, related⟩ := exists_rearrangement perm
  have same (forest : List ProofTree) (θ : Symbol → Term) :
      Solves clauses (φ forest) goals' θ ↔ Solves clauses forest goals θ := related _ forest
  have permForests : (forests'.map φ.symm).Perm forests := by
    refine (List.perm_ext_iff_of_nodup (nodup'.map φ.symm.injective) nodup).2 fun forest => ?_
    have moved : forest ∈ forests'.map φ.symm ↔ φ forest ∈ forests' := by
      rw [List.mem_map]
      constructor
      · rintro ⟨forest', member, rfl⟩
        rwa [φ.apply_symm_apply]
      · intro member
        exact ⟨φ forest, member, φ.symm_apply_apply forest⟩
    rw [moved, mem_iff, mem_iff']
    exact exists_congr (same forest)
  have foundMoved : List.Forall₂ (fun forest found => MostGeneral clauses goals' (φ forest) found.1)
      (forests'.map φ.symm) answers' := by
    rw [List.forall₂_map_left_iff]
    refine found'.imp fun forest' _ general => ?_
    rwa [φ.apply_symm_apply]
  exact .of_keys permForests found foundMoved fun forest _ _ first second =>
    first.variant perm (same forest) second

/-- The goals are asked in reverse order. The variable goal `G` is then not the first one but the
last one, and there are fewer attempts. The first two solutions change places, and the variable of
the third one has another name. -/
theorem ended_goals_perm_eq :
    let clauses : List Clause := [.ofParts "eq" [.var "E", .var "E"] [],
      .ofParts "p" [.atom "a"] [], .ofParts "p" [.var "Y"] [], .ofParts "q" [.atom "b"] [],
      .ofParts "q" [.var "Z"] []]
    let eq : Term := .app "eq" [.var "G", .app "p" [.var "X"]]
    let goals : List Term := [.var "G", eq, .app "q" [.var "X"]]
    let answers : List (Solution × Nat) :=
      [(⟨[("G", .app "p" [.atom "a"]), ("X", .atom "a")]⟩, 6),
        (⟨[("G", .app "p" [.atom "b"]), ("X", .atom "b")]⟩, 9),
        (⟨[("G", .app "p" [.var "Z#6"]), ("X", .var "Z#6")]⟩, 10)]
    let answers' : List (Solution × Nat) :=
      [(⟨[("X", .atom "b"), ("G", .app "p" [.atom "b"])]⟩, 4),
        (⟨[("X", .atom "a"), ("G", .app "p" [.atom "a"])]⟩, 7),
        (⟨[("X", .var "Y#4"), ("G", .app "p" [.var "Y#4"])]⟩, 8)]
    goals.Perm goals.reverse ∧ Ended clauses goals answers 14 ∧
      Ended clauses goals.reverse answers' 8 ∧
      SameSolutions Solution.Variant answers answers' := by
  intro clauses eq goals answers answers'
  have perm : goals.Perm goals.reverse := (List.reverse_perm goals).symm
  have ended : Ended clauses goals answers 14 := Search.calls_iff.2 ⟨60, by decide +kernel⟩
  have ended' : Ended clauses goals.reverse answers' 8 :=
    Search.calls_iff.2 ⟨60, by decide +kernel⟩
  exact ⟨perm, ended, ended', ended_goals_perm perm ended ended'⟩

end HornLogic
