import HornLogic.Proofs.Unification.Growth

/-!
# Unification is most general

Unifying two terms under acyclic bindings adds one equation to them, no more and no less. If it
succeeds, an assignment solves the new bindings exactly if it solves the old ones and makes the
two terms equal. If it meets a conflict, no solution of the bindings makes the terms equal. Both
halves are in `Decides`. The one conflict that says nothing is `Conflict.tooDeep`, with which
`Depth` deals.

Soundness of a search uses the first half from left to right, completeness uses it from right to
left together with the second half.
-/

namespace HornLogic.Bindings

/-- The attempt adds exactly the given equation to the bindings, or rightly finds that it has no
solution together with them. -/
structure Decides (s : Bindings) (equation : (Symbol → Term) → Prop) (attempt : Attempt) :
    Prop where
  solvedBy_iff : attempt.conflict = none →
    ∀ θ, attempt.bindings.SolvedBy θ ↔ s.SolvedBy θ ∧ equation θ
  unsolvable : ∀ conflict, attempt.conflict = some conflict → conflict ≠ .tooDeep →
    ∀ θ, s.SolvedBy θ → ¬ equation θ

variable {s : Bindings}

/-- An attempt that adds nothing is right if the equation holds of all solutions anyway. -/
theorem Decides.of_always {equation : (Symbol → Term) → Prop}
    (always : ∀ θ, s.SolvedBy θ → equation θ) : Decides s equation { bindings := s } where
  solvedBy_iff := fun _ θ => ⟨fun solved => ⟨solved, always θ solved⟩, fun solved => solved.1⟩
  unsolvable := fun _ conflict => by simp at conflict

/-- An attempt that fails is right if the equation holds of no solution. -/
theorem Decides.of_never {equation : (Symbol → Term) → Prop} {s' : Bindings} (conflict : Conflict)
    (never : ∀ θ, s.SolvedBy θ → ¬ equation θ) :
    Decides s equation { bindings := s', conflict := some conflict } where
  solvedBy_iff := fun success => by simp at success
  unsolvable := fun _ _ _ => never

theorem Decides.congr {equation equation' : (Symbol → Term) → Prop} {attempt : Attempt}
    (decides : Decides s equation attempt)
    (same : ∀ θ, s.SolvedBy θ → (equation θ ↔ equation' θ)) : Decides s equation' attempt where
  solvedBy_iff := by
    intro success θ
    rw [decides.solvedBy_iff success θ]
    exact and_congr_right (same θ)
  unsolvable := by
    intro conflict failed real θ solved holds
    exact decides.unsolvable conflict failed real θ solved ((same θ solved).2 holds)

/-- A variable that the occurs check finds in the other term is never equal to it. -/
theorem Acyclic.ne_of_occurs (acyclic : s.Acyclic) {x : Symbol} {b : Term}
    (different : s.walk b ≠ .var x) (present : s.occurs x (s.walk b) = true) {θ : Symbol → Term}
    (solved : s.SolvedBy θ) : θ x ≠ (s.walk b).instantiate θ := by
  rw [occurs_iff] at present
  rw [← solved.instantiate_resolve]
  cases walked : s.walk b with
  | atom name => simp [walked] at present
  | var y =>
    -- A walk ends at an unbound variable, in whose value only itself occurs.
    rw [walked, resolve_var, value_of_unbound (acyclic.lookup_of_walk walked)] at present
    obtain rfl : x = y := by simpa using present
    exact absurd walked different
  | compound f args =>
    rw [walked, resolve_compound] at present
    rw [resolve_compound]
    exact Term.instantiate_ne_of_mem present θ

/-- Unifying arguments pair by pair adds the equations of all pairs. -/
theorem unifyArgs_decides {unifyPair : Term → Term → Bindings → Attempt}
    (grows : ∀ t u s, Grows (fun _ => True) s (unifyPair t u s).bindings)
    (pair : ∀ t u s, s.Acyclic →
      Decides s (fun θ => t.instantiate θ = u.instantiate θ) (unifyPair t u s))
    {ts us : List Term} (lengths : ts.length = us.length) (acyclic : s.Acyclic) :
    Decides s (fun θ => ts.map (Term.instantiate θ) = us.map (Term.instantiate θ))
      (unifyArgs unifyPair ts us s) := by
  induction ts generalizing us s with
  | nil =>
    obtain rfl : us = [] := List.eq_nil_of_length_eq_zero lengths.symm
    exact .of_always fun θ _ => rfl
  | cons t ts ih =>
    obtain ⟨u, us, rfl⟩ := List.exists_cons_of_length_eq_add_one lengths.symm
    have first := pair t u s acyclic
    have growsFirst := grows t u s
    rcases result : unifyPair t u s with ⟨s', _ | conflict⟩
    · rw [result] at first growsFirst
      rw [unifyArgs_cons_of_none result]
      -- The other pairs are unified under the bindings that the first pair has left.
      have later := ih (by simpa using lengths) (growsFirst.acyclic acyclic)
      have firstIff := first.solvedBy_iff rfl
      constructor
      · intro success θ
        rw [later.solvedBy_iff success θ, firstIff θ]
        simp only [List.map_cons, List.cons.injEq]
        exact and_assoc
      · intro conflict failed real θ solved equal
        simp only [List.map_cons, List.cons.injEq] at equal
        exact later.unsolvable conflict failed real θ ((firstIff θ).2 ⟨solved, equal.1⟩) equal.2
    · rw [result] at first
      rw [unifyArgs_cons_of_some result]
      constructor
      · intro success
        simp at success
      · intro conflict' failed real θ solved equal
        simp only [List.map_cons, List.cons.injEq] at equal
        exact first.unsolvable conflict' failed real θ solved equal.1

/-- An attempt to unify two terms adds the equation between them. -/
theorem unifyWithin_decides (depth : Nat) (t u : Term) (acyclic : s.Acyclic) :
    Decides s (fun θ => t.instantiate θ = u.instantiate θ) (unifyWithin depth t u s) := by
  induction depth generalizing t u s with
  | zero =>
    exact ⟨fun success => by simp [unifyWithin] at success,
      fun conflict failed real => by simp [unifyWithin, Ne.symm real] at failed⟩
  | succ depth ih =>
    -- It is enough to decide the equation between the walked terms.
    suffices walked : Decides s (fun θ => (s.walk t).instantiate θ = (s.walk u).instantiate θ)
        (unifyWithin (depth + 1) t u s) from
      walked.congr fun θ solved => by rw [solved.instantiate_walk, solved.instantiate_walk]
    have step := unifyStep_unifyWithin depth t u s
    generalize unifyWithin (depth + 1) t u s = attempt at step ⊢
    cases step with
    | same x walkT walkU => exact .of_always fun θ _ => by rw [walkT, walkU]
    | atom a walkT walkU => exact .of_always fun θ _ => by rw [walkT, walkU]
    | clash never => exact .of_never _ fun θ _ => never θ
    | refuse a b x sides walked different present =>
      refine .of_never _ fun θ solved equal => ?_
      have distinct := acyclic.ne_of_occurs different present solved
      rcases sides with ⟨rfl, rfl⟩ | ⟨rfl, rfl⟩
      · rw [walked] at equal
        exact distinct (by simpa using equal)
      · rw [walked] at equal
        exact distinct (by simpa using equal.symm)
    | bind a b x sides walked absent =>
      have unbound := acyclic.lookup_of_walk walked
      refine ⟨fun _ θ => ?_, fun conflict failed => by simp at failed⟩
      rw [solvedBy_bind_iff acyclic.indexed unbound]
      rcases sides with ⟨rfl, rfl⟩ | ⟨rfl, rfl⟩
      · rw [walked, Term.instantiate_var]
      · rw [walked, Term.instantiate_var, eq_comm]
    | compound f ts us walkT walkU lengths =>
      have args := unifyArgs_decides (unifyWithin_grows_any depth)
        (fun t u s acyclic => ih t u acyclic) lengths acyclic
      refine args.congr fun θ _ => ?_
      rw [walkT, walkU, Term.instantiate_compound, Term.instantiate_compound]
      simp

/-- If two terms unify, the solutions afterwards are those before that make the terms equal. -/
theorem Acyclic.solvedBy_unify_iff (acyclic : s.Acyclic) {t u : Term}
    (success : (s.unify t u).conflict = none) (θ : Symbol → Term) :
    (s.unify t u).bindings.SolvedBy θ ↔ s.SolvedBy θ ∧ t.instantiate θ = u.instantiate θ := by
  rw [unify, conflict_conclude] at success
  rw [unify, bindings_conclude, success]
  exact (unifyWithin_decides _ t u acyclic).solvedBy_iff success θ

/-- The values after a success solve the bindings before, and make the two terms equal. -/
theorem Acyclic.solvedBy_value_unify (acyclic : s.Acyclic) {t u : Term}
    (success : (s.unify t u).conflict = none) :
    s.SolvedBy (s.unify t u).bindings.value ∧
      (s.unify t u).bindings.resolve t = (s.unify t u).bindings.resolve u :=
  (acyclic.solvedBy_unify_iff success _).1 (acyclic.bindings_unify t u).solvedBy_value

end HornLogic.Bindings
