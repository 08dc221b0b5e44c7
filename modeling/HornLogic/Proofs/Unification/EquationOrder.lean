import HornLogic.Proofs.Names.Translation
import HornLogic.Proofs.Unification.Outcome

/-!
# Equations in another order

A list of equations is solved by unifying the two sides of each, one after another, until one of
them fails (`unifyEach`). Which variables are bound, in which direction and in which order, depends
on the order of the equations and on their sides. But whether all of them unify does not, and the
bindings that come of it resolve every term to the same up to the names of variables
(`unifyEach_rearranged`).

All that the bindings have to do with the equations are their solutions: those of the bindings at
the start that solve all equations (`Acyclic.decided_unifyEach`). Two acyclic bindings with the
same solutions are solved by the values of each other. So what a term resolves to under the one is
an instance of what it resolves to under the other, and the other way round, and this leaves
only a renaming (`Acyclic.exists_rename_of_solvedBy`).
-/

namespace HornLogic.Bindings

/-! ## Bindings with the same solutions -/

variable {s s' : Bindings}

/-- If each of two bindings is solved by the values under the other, a renaming turns what terms
resolve to under the first into what they resolve to under the second. -/
theorem Acyclic.exists_rename_of_solvedBy (acyclic : s.Acyclic) (solved : s.SolvedBy s'.value)
    (solved' : s'.SolvedBy s.value) :
    ∃ ρ : Symbol → Symbol, ∀ t, s'.resolve t = (s.resolve t).rename ρ := by
  -- There and back again an unbound variable is what it was, so it was a variable in between.
  have isVar (x : Symbol) (unbound : s.lookup x = none) : ∃ y, s'.value x = .var y := by
    have back : (s'.value x).instantiate s.value = .var x := by
      rw [← value_of_unbound unbound]
      exact solved'.instantiate_valueWithin s'.size x
    exact Term.eq_var_of_instantiate_eq_var back
  choose! ρ named using isVar
  refine ⟨ρ, fun t => ?_⟩
  calc s'.resolve t
      = (s.resolve t).instantiate s'.value := (solved.instantiate_resolve t).symm
    _ = (s.resolve t).rename ρ := by
      refine Term.instantiate_congr fun x occurs => ?_
      exact named x (acyclic.lookup_of_mem_resolve occurs)

/-! ## Solving equations -/

/-- Unifies the sides of the equations one after another. There are no bindings after a failure. -/
def unifyEach (s : Bindings) : List (Term × Term) → Option Bindings
  | [] => some s
  | (t, u) :: equations =>
    let unification := s.unify t u
    if unification.succeeded then unification.bindings.unifyEach equations else none

/-- The assignment makes the sides of each equation equal. -/
def Equalizes (θ : Symbol → Term) (equations : List (Term × Term)) : Prop :=
  ∀ equation ∈ equations, equation.1.instantiate θ = equation.2.instantiate θ

theorem equalizes_cons {θ : Symbol → Term} {equation : Term × Term}
    {equations : List (Term × Term)} : Equalizes θ (equation :: equations) ↔
      equation.1.instantiate θ = equation.2.instantiate θ ∧ Equalizes θ equations :=
  List.forall_mem_cons

/-- What unifying one equation after another decides: the bindings afterwards have the solutions of
the bindings before that solve all equations, and there are none if one of them fails. -/
inductive Decided (s : Bindings) (equations : List (Term × Term)) : Option Bindings → Prop where
  | solved {s' : Bindings} : s'.Acyclic →
      (∀ θ, s'.SolvedBy θ ↔ s.SolvedBy θ ∧ Equalizes θ equations) →
      Decided s equations (some s')
  | unsolvable : (∀ θ, s.SolvedBy θ → ¬ Equalizes θ equations) → Decided s equations none

theorem Acyclic.decided_unifyEach (acyclic : s.Acyclic) (equations : List (Term × Term)) :
    Decided s equations (s.unifyEach equations) := by
  induction equations generalizing s with
  | nil => exact .solved acyclic fun θ => by simp [Equalizes]
  | cons equation equations ih =>
    obtain ⟨t, u⟩ := equation
    rw [unifyEach]
    cases outcome : (s.unify t u).conflict with
    | some conflict =>
      rw [if_neg (by simp [Unification.succeeded, outcome])]
      refine .unsolvable fun θ solved all => ?_
      exact acyclic.instantiate_ne_of_conflict outcome solved (equalizes_cons.1 all).1
    | none =>
      rw [if_pos (Unification.succeeded_iff.2 outcome)]
      have first := acyclic.solvedBy_unify_iff outcome
      have rest := ih (acyclic.bindings_unify t u)
      generalize (s.unify t u).bindings.unifyEach equations = result at rest
      cases rest with
      | solved acyclic' iff =>
        refine .solved acyclic' fun θ => ?_
        rw [iff θ, first θ, equalizes_cons, and_assoc]
      | unsolvable never =>
        refine .unsolvable fun θ solved all => ?_
        obtain ⟨equal, later⟩ := equalizes_cons.1 all
        exact never θ ((first θ).2 ⟨solved, equal⟩) later

/-! ## Another order and other sides -/

/-- The same equations in any order, and any of them with its sides swapped. -/
def Rearranged (equations equations' : List (Term × Term)) : Prop :=
  ∃ reordered, equations.Perm reordered ∧
    List.Forall₂ (fun equation equation' => equation' = equation ∨ equation' = equation.swap)
      reordered equations'

theorem Rearranged.equalizes_iff {equations equations' : List (Term × Term)}
    (rearranged : Rearranged equations equations') (θ : Symbol → Term) :
    Equalizes θ equations ↔ Equalizes θ equations' := by
  obtain ⟨reordered, perm, sides⟩ := rearranged
  have order : Equalizes θ equations ↔ Equalizes θ reordered := by
    simp only [Equalizes, perm.mem_iff]
  rw [order]
  clear order perm
  induction sides with
  | nil => rfl
  | cons side _ ih =>
    rw [equalizes_cons, equalizes_cons]
    refine and_congr ?_ ih
    rcases side with rfl | rfl
    · rfl
    · exact eq_comm

/-- Under bindings in which no variable reaches itself, equations that are unified one after another
all unify or do not, in whatever order they stand and with whatever sides. If they do, each of the
two results resolves every term to what the other one does, up to a renaming of variables. -/
theorem unifyEach_rearranged (reached : s.Reached Unguarded) (noCycle : s.NoCycle)
    {equations equations' : List (Term × Term)} (rearranged : Rearranged equations equations') :
    (s.unifyEach equations = none ∧ s.unifyEach equations' = none) ∨
    ∃ s₁ s₂, s.unifyEach equations = some s₁ ∧ s.unifyEach equations' = some s₂ ∧
      ∃ ρ ρ' : Symbol → Symbol, ∀ t, s₂.resolve t = (s₁.resolve t).rename ρ ∧
        s₁.resolve t = (s₂.resolve t).rename ρ' := by
  have acyclic := reached.acyclic_iff.2 noCycle
  have first := acyclic.decided_unifyEach equations
  have second := acyclic.decided_unifyEach equations'
  have same := rearranged.equalizes_iff
  generalize s.unifyEach equations = result at first ⊢
  generalize s.unifyEach equations' = result' at second ⊢
  cases first with
  | unsolvable never =>
    cases second with
    | unsolvable => exact .inl ⟨rfl, rfl⟩
    | solved acyclic₂ iff₂ =>
      obtain ⟨solved, all⟩ := (iff₂ _).1 acyclic₂.solvedBy_value
      exact absurd ((same _).2 all) (never _ solved)
  | @solved s₁ acyclic₁ iff₁ =>
    cases second with
    | unsolvable never =>
      obtain ⟨solved, all⟩ := (iff₁ _).1 acyclic₁.solvedBy_value
      exact absurd ((same _).1 all) (never _ solved)
    | @solved s₂ acyclic₂ iff₂ =>
      have solutions (θ : Symbol → Term) : s₁.SolvedBy θ ↔ s₂.SolvedBy θ := by
        rw [iff₁ θ, iff₂ θ, same θ]
      have solved₁ := (solutions _).2 acyclic₂.solvedBy_value
      have solved₂ := (solutions _).1 acyclic₁.solvedBy_value
      obtain ⟨ρ, forth⟩ := acyclic₁.exists_rename_of_solvedBy solved₁ solved₂
      obtain ⟨ρ', back⟩ := acyclic₂.exists_rename_of_solvedBy solved₂ solved₁
      exact .inr ⟨s₁, s₂, rfl, rfl, ρ, ρ', fun t => ⟨forth t, back t⟩⟩

/-- The equations `Z = W` and `f(Z) = X`, where `X` is bound to `f(Y)`, leave `Y` unbound if they
are solved in this order, and `Z` if they are solved in the other one with the sides swapped. -/
theorem unifyEach_rearranged_rebound :
    let equations : List (Term × Term) :=
      [(.var "Z", .var "W"), (.compound "f" [.var "Z"], .var "X")]
    let equations' : List (Term × Term) :=
      [(.var "X", .compound "f" [.var "Z"]), (.var "W", .var "Z")]
    (rebound.unifyEach equations).map (resolve · (.var "X")) = some (.compound "f" [.var "Y"]) ∧
    (rebound.unifyEach equations').map (resolve · (.var "X")) = some (.compound "f" [.var "Z"]) ∧
      ∃ s₁ s₂, rebound.unifyEach equations = some s₁ ∧ rebound.unifyEach equations' = some s₂ ∧
        ∃ ρ ρ' : Symbol → Symbol, ∀ t, s₂.resolve t = (s₁.resolve t).rename ρ ∧
          s₁.resolve t = (s₂.resolve t).rename ρ' := by
  intro equations equations'
  have rearranged : Rearranged equations equations' :=
    ⟨equations.reverse, (List.reverse_perm _).symm, .cons (.inr rfl) (.cons (.inr rfl) .nil)⟩
  have value : (rebound.unifyEach equations).map (resolve · (.var "X")) =
      some (.compound "f" [.var "Y"]) := by decide +kernel
  have value' : (rebound.unifyEach equations').map (resolve · (.var "X")) =
      some (.compound "f" [.var "Z"]) := by decide +kernel
  refine ⟨value, value', ?_⟩
  rcases unifyEach_rearranged reached_rebound noCycle_rebound rearranged with failed | solved
  · rw [failed.1] at value
    contradiction
  · exact solved

end HornLogic.Bindings
