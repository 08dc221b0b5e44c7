import HornLogic.Proofs.Unification.EquationOrder

/-!
# Resolving early or late

A resolved term has no bound variable left, so there is nothing to resolve in it a second time. What
is in it is what the occurs test finds, and a walk towards it may be made or left out. As more
equations are unified, what a term resolves to changes. But it makes no difference whether a
term is resolved before that or only afterwards (`resolve_early_or_late`).

The reason is that later bindings solve the earlier ones: their values satisfy every equation that a
look-up found before (`Acyclic.solvedBy_of_unifyEach`). To a solution a term and the resolved term
are the same.
-/

namespace HornLogic.Bindings

variable {s s' : Bindings}

/-- The values under bindings that solve the earlier ones do not tell a term from the one resolved
under the earlier ones. -/
theorem resolve_resolve_of_solvedBy (solved : s.SolvedBy s'.value) (t : Term) :
    s'.resolve (s.resolve t) = s'.resolve t :=
  solved.instantiate_resolve t

/-- A resolved term stays as it is. -/
theorem Acyclic.resolve_resolve (acyclic : s.Acyclic) (t : Term) :
    s.resolve (s.resolve t) = s.resolve t :=
  resolve_resolve_of_solvedBy acyclic.solvedBy_value t

/-- When equations have been unified one after another, the bindings from before still hold. -/
theorem Acyclic.solvedBy_of_unifyEach (acyclic : s.Acyclic) {equations : List (Term × Term)}
    (success : s.unifyEach equations = some s') : s.SolvedBy s'.value := by
  have decided := acyclic.decided_unifyEach equations
  rw [success] at decided
  cases decided with
  | solved acyclic' iff => exact ((iff _).1 acyclic'.solvedBy_value).1

/-- Under bindings in which no variable reaches itself, a resolved term has unbound variables only,
and resolving it again changes nothing. The occurs test finds just the variables in it, and walking
first leads to the same. After any equations have been unified, terms that were resolved before
resolve to the same as terms that were not. -/
theorem resolve_early_or_late (reached : s.Reached Unguarded) (noCycle : s.NoCycle) (t : Term) :
    (∀ x ∈ (s.resolve t).occurrences, s.lookup x = none) ∧
    s.resolve (s.resolve t) = s.resolve t ∧
    (∀ x, s.occurs x t = true ↔ x ∈ (s.resolve t).occurrences) ∧
    s.resolve (s.walk t) = s.resolve t ∧
    ∀ equations s', s.unifyEach equations = some s' →
      s'.resolve (s.resolve t) = s'.resolve t := by
  have acyclic := reached.acyclic_iff.2 noCycle
  refine ⟨fun x occurs => acyclic.lookup_of_mem_resolve occurs, acyclic.resolve_resolve t,
    fun x => s.occurs_iff x t, acyclic.resolve_walk t, ?_⟩
  intro equations s' success
  exact resolve_resolve_of_solvedBy (acyclic.solvedBy_of_unifyEach success) t

/-- With `X` bound to `f(Y)`, the term `g(X, Z)` resolves to `g(f(Y), Z)`. Both resolve to
`g(f(b), h(b))` when `Y` has been unified with `b` and `Z` with `h(Y)`. -/
theorem resolve_early_or_late_rebound :
    let t := Term.compound "g" [.var "X", .var "Z"]
    let equations : List (Term × Term) :=
      [(.var "Z", .compound "h" [.var "Y"]), (.atom "b", .var "Y")]
    ∃ s', rebound.unifyEach equations = some s' ∧
      rebound.resolve t = .compound "g" [.compound "f" [.var "Y"], .var "Z"] ∧
      s'.resolve t = .compound "g" [.compound "f" [.atom "b"], .compound "h" [.atom "b"]] ∧
      s'.resolve (rebound.resolve t) = s'.resolve t := by
  intro t equations
  have values : (rebound.unifyEach equations).map (resolve · t) =
      some (.compound "g" [.compound "f" [.atom "b"], .compound "h" [.atom "b"]]) := by
    decide +kernel
  obtain ⟨s', success, value⟩ := Option.map_eq_some_iff.1 values
  obtain ⟨-, -, -, -, late⟩ := resolve_early_or_late reached_rebound noCycle_rebound t
  exact ⟨s', success, by decide +kernel, value, late equations s' success⟩

end HornLogic.Bindings
