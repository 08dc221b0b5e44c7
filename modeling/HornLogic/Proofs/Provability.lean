import HornLogic.Proofs.Names.Renaming
import HornLogic.Solution

/-!
# What follows from clauses

A term is `Provable` from some clauses if it is an instance of the head of one of them whose body
goals, instantiated in the same way, are provable too. This is the meaning of a logic program that
the answers of a search are measured against. It knows no order of clauses or goals, and no search.

The head counts as its name applied to its arguments, as resolution reads it: a head `f()` proves
the atom `f`.
-/

namespace HornLogic

/-- The term follows from the clauses. -/
inductive Provable (clauses : List Clause) : Term → Prop where
  | resolve (clause : Clause) (ρ : Symbol → Term) : clause ∈ clauses →
      (∀ goal ∈ clause.body, Provable clauses (goal.instantiate ρ)) →
      Provable clauses ((Term.app clause.head.name clause.head.args).instantiate ρ)

namespace Provable

variable {clauses : List Clause}

/-- An instance of the head of a clause is provable if the instances of the body goals are. The
instances may be taken of an instance of the clause. -/
theorem of_instance {clause : Clause} (member : clause ∈ clauses) (σ ρ : Symbol → Term)
    (body : ∀ goal ∈ (clause.instantiate σ).body, Provable clauses (goal.instantiate ρ)) :
    Provable clauses ((clause.instantiate σ).head.instantiate ρ) := by
  rw [Clause.head_instantiate, Term.instantiate_instantiate]
  refine .resolve clause _ member fun goal inBody => ?_
  rw [← Term.instantiate_instantiate]
  refine body _ ?_
  rw [Clause.body_instantiate]
  exact List.mem_map_of_mem inBody

/-- Every instance of a provable term is provable. -/
theorem instantiate {t : Term} (provable : Provable clauses t) (τ : Symbol → Term) :
    Provable clauses (t.instantiate τ) := by
  induction provable with
  | resolve clause ρ member _ ih =>
    rw [Term.instantiate_instantiate]
    refine .resolve clause _ member fun goal inBody => ?_
    rw [← Term.instantiate_instantiate]
    exact ih goal inBody

/-- A clause without goals proves its head. -/
theorem of_fact {clause : Clause} (member : clause ∈ clauses) (fact : clause.body = []) :
    Provable clauses (Term.app clause.head.name clause.head.args) := by
  have proved := resolve clause .var member (by simp [fact])
  rwa [Term.instantiate_self] at proved

/-- Whatever makes a term provable, it is a clause and values for its variables. -/
theorem exists_clause {t : Term} (provable : Provable clauses t) :
    ∃ clause ∈ clauses, ∃ ρ, (clause.instantiate ρ).head = t ∧
      ∀ goal ∈ (clause.instantiate ρ).body, Provable clauses goal := by
  cases provable with
  | resolve clause ρ member body =>
    refine ⟨clause, member, ρ, Clause.head_instantiate ρ clause, ?_⟩
    intro goal inBody
    rw [Clause.body_instantiate, List.mem_map] at inBody
    obtain ⟨source, inSource, rfl⟩ := inBody
    exact body source inSource

end Provable

/-- The value that a solution gives a variable; what the query does not mention stays. -/
def Solution.value (solution : Solution) (x : Symbol) : Term :=
  (solution.get? x).getD (.var x)

end HornLogic
