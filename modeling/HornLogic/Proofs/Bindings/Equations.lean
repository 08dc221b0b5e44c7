import HornLogic.Proofs.Bindings.Acyclic

/-!
# Bindings as equations

Each binding can be read as an equation between a variable and a term. An assignment of terms to
all variables solves the bindings if it solves every equation that a look-up finds (`SolvedBy`).
What bindings mean to a search is the set of their solutions.

A solution does not tell a term from what it walks or resolves to (`SolvedBy.instantiate_walk`,
`SolvedBy.instantiate_resolve`); this needs no assumption on the bindings. If they are acyclic, the
values of the variables are themselves a solution (`Acyclic.solvedBy_value`), and by the same law
each solution is an instance of this one.

A variable and a larger term in which it occurs have no common instance
(`Term.instantiate_ne_of_mem`), which is what the occurs check relies on.
-/

namespace HornLogic

namespace Term

/-- The value of a variable is no larger than an instance of a term it occurs in. -/
theorem size_le_instantiate {x : Symbol} (θ : Symbol → Term) {t : Term}
    (occurs : x ∈ t.occurrences) : (θ x).size ≤ (t.instantiate θ).size := by
  induction t with
  | atom name => simp at occurs
  | var name =>
    obtain rfl : x = name := by simpa using occurs
    simp
  | compound functor args ih =>
    rw [occurrences_compound, List.mem_flatMap] at occurs
    obtain ⟨arg, member, inArg⟩ := occurs
    have inArgs : arg.instantiate θ ∈ args.map (instantiate θ) := List.mem_map_of_mem member
    rw [instantiate_compound]
    exact Nat.le_trans (ih arg member inArg) (Nat.le_of_lt (size_lt_of_mem inArgs functor))

/-- No assignment makes a variable equal to a compound in which it occurs. -/
theorem instantiate_ne_of_mem {x : Symbol} {functor : Symbol} {args : List Term}
    (occurs : x ∈ (compound functor args).occurrences) (θ : Symbol → Term) :
    θ x ≠ (compound functor args).instantiate θ := by
  intro same
  rw [occurrences_compound, List.mem_flatMap] at occurs
  obtain ⟨arg, member, inArg⟩ := occurs
  have inArgs : arg.instantiate θ ∈ args.map (instantiate θ) := List.mem_map_of_mem member
  have smaller := size_lt_of_mem inArgs functor
  have larger := size_le_instantiate θ inArg
  rw [same, instantiate_compound] at larger
  omega

end Term

namespace Bindings

/-- The assignment makes every bound variable equal to its term. -/
def SolvedBy (s : Bindings) (θ : Symbol → Term) : Prop :=
  ∀ x t, s.lookup x = some t → θ x = t.instantiate θ

theorem solvedBy_empty (θ : Symbol → Term) : empty.SolvedBy θ := by
  intro x t found
  simp at found

/-- One more binding is one more equation. -/
theorem solvedBy_bind_iff {s : Bindings} (indexed : s.Indexed) {x : Symbol} {t : Term}
    (unbound : s.lookup x = none) (θ : Symbol → Term) :
    (s.bind x t).SolvedBy θ ↔ s.SolvedBy θ ∧ θ x = t.instantiate θ := by
  constructor
  · intro solved
    refine ⟨?_, solved x t (by simp [lookup_bind indexed])⟩
    intro y u found
    have different : y ≠ x := by
      rintro rfl
      simp [unbound] at found
    exact solved y u (by rw [lookup_bind indexed, if_neg different, found])
  · rintro ⟨solved, equation⟩ y u found
    rw [lookup_bind indexed] at found
    split at found
    · rename_i same
      subst same
      obtain rfl : t = u := by simpa using found
      exact equation
    · exact solved y u found

/-- A solution gives a variable an instance of its value. -/
theorem SolvedBy.instantiate_valueWithin {s : Bindings} {θ : Symbol → Term} (solved : s.SolvedBy θ)
    (links : Nat) (x : Symbol) : (s.valueWithin links x).instantiate θ = θ x := by
  induction links generalizing x with
  | zero => simp [valueWithin]
  | succ links ih =>
    cases found : s.lookup x with
    | none => simp [valueWithin, found]
    | some t =>
      calc (s.valueWithin (links + 1) x).instantiate θ
          = t.instantiate fun y => (s.valueWithin links y).instantiate θ := by
            rw [valueWithin, found]
            exact Term.instantiate_instantiate _ _ t
        _ = t.instantiate θ := by
            rw [funext ih]
        _ = θ x := (solved x t found).symm

/-- To a solution a term and the resolved term are the same. -/
theorem SolvedBy.instantiate_resolve {s : Bindings} {θ : Symbol → Term} (solved : s.SolvedBy θ)
    (t : Term) : (s.resolve t).instantiate θ = t.instantiate θ := by
  rw [resolve, Term.instantiate_instantiate]
  exact congrArg (Term.instantiate · t) (funext (solved.instantiate_valueWithin s.size))

theorem SolvedBy.instantiate_walk {s : Bindings} {θ : Symbol → Term} (solved : s.SolvedBy θ)
    (t : Term) : (s.walk t).instantiate θ = t.instantiate θ := by
  unfold walk
  generalize s.size = hops
  induction hops generalizing t with
  | zero => rfl
  | succ hops ih =>
    cases t with
    | atom name => rfl
    | compound functor args => rfl
    | var x =>
      cases found : s.lookup x with
      | none => rw [walkWithin_of_unbound found]
      | some u =>
        simp only [walkWithin, found]
        rw [ih u, Term.instantiate_var, solved x u found]

/-- The values of the variables solve acyclic bindings. -/
theorem Acyclic.solvedBy_value {s : Bindings} (acyclic : s.Acyclic) : s.SolvedBy s.value := by
  intro x t found
  rw [acyclic.value_of_lookup found, resolve_eq_instantiate]

end Bindings

end HornLogic
