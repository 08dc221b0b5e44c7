import HornLogic.Proofs.Bindings.Cycles
import HornLogic.Proofs.Unification.Evaluation

/-!
# What comes of a unification

Under bindings without a cycle, whatever their history, a unification has one of two outcomes.

Either it succeeds. Then the two terms and the bindings together have a solution, and the new
bindings are the most general one: they make the terms equal, what was bound before holds under
them, and every other solution is an instance of them (`MostGeneralUnifier`).

Or it fails. Then there is no solution. The attempt may have made bindings before the conflict, at
any depth. These stand at the end of its trail, so that a rollback takes them away, and the bindings
are what they were before.
-/

namespace HornLogic

theorem Unification.succeeded_iff {unification : Unification} :
    unification.succeeded = true ↔ unification.conflict = none :=
  Option.isNone_iff_eq_none

theorem Unification.failed_iff {unification : Unification} :
    unification.succeeded = false ↔ ∃ conflict, unification.conflict = some conflict := by
  rw [Unification.succeeded, Option.isNone_eq_false_iff, Option.isSome_iff_exists]

namespace Bindings

variable {s s' : Bindings}

/-! ## Success -/

/-- The second bindings are most general among those that make the two terms equal and under which
the first bindings hold. -/
structure MostGeneralUnifier (s : Bindings) (t u : Term) (s' : Bindings) : Prop where
  equal : s'.resolve t = s'.resolve u
  kept : ∀ x v, s.lookup x = some v → s'.resolve (.var x) = s'.resolve v
  /-- Every other solution is an instance. -/
  general : ∀ θ, s.SolvedBy θ → t.instantiate θ = u.instantiate θ →
    ∀ v, (s'.resolve v).instantiate θ = v.instantiate θ

theorem Acyclic.mostGeneralUnifier_unify (acyclic : s.Acyclic) {t u : Term}
    (success : (s.unify t u).conflict = none) :
    MostGeneralUnifier s t u (s.unify t u).bindings where
  equal := (acyclic.solvedBy_value_unify success).2
  kept := by
    intro x v found
    rw [resolve_var]
    exact (acyclic.solvedBy_value_unify success).1 x v found
  general := by
    intro θ solved equal
    have solvedNow := (acyclic.solvedBy_unify_iff success θ).2 ⟨solved, equal⟩
    exact solvedNow.instantiate_resolve

/-- Under bindings in which no variable reaches itself, two terms unify if and only if some
assignment satisfies all bindings and makes the terms equal. The bindings that come of it are then
a most general unifier. -/
theorem unify_mostGeneral (reached : s.Reached Unguarded) (noCycle : s.NoCycle) (t u : Term) :
    ((s.unify t u).succeeded = true ↔ ∃ θ, s.SolvedBy θ ∧ t.instantiate θ = u.instantiate θ) ∧
      ((s.unify t u).succeeded = true → MostGeneralUnifier s t u (s.unify t u).bindings) := by
  have acyclic := reached.acyclic_iff.2 noCycle
  rw [Unification.succeeded_iff]
  exact ⟨acyclic.unify_conflict_eq_none_iff, acyclic.mostGeneralUnifier_unify⟩

/-- `X`, which is bound to `f(Y)` by an entry that shadows another, unifies with `f(g(Z))`. -/
theorem unify_mostGeneral_rebound :
    let u := Term.compound "f" [.compound "g" [.var "Z"]]
    (rebound.unify (.var "X") u).succeeded = true ∧
      MostGeneralUnifier rebound (.var "X") u (rebound.unify (.var "X") u).bindings ∧
      ∃ θ, rebound.SolvedBy θ ∧ θ "X" = u.instantiate θ := by
  intro u
  have success : (rebound.unify (.var "X") u).succeeded = true := by decide +kernel
  obtain ⟨iff, unifier⟩ := unify_mostGeneral reached_rebound noCycle_rebound (.var "X") u
  exact ⟨success, unifier success, iff.1 success⟩

/-! ## Failure -/

/-- What was added stands at the end of the trail. -/
theorem Grows.entries_eq {P : Term → Prop} (grows : Grows P s s') :
    s'.entries = s.entries ++ s'.entriesSince s.mark := by
  have kept : s.trail = s'.trail.extract 0 s.size := by
    rw [← congrArg trail grows.rollback, trail_rollback]
    exact congrArg _ (Nat.min_eq_right grows.size_le)
  have below : s.size ≤ s'.trail.size := grows.size_le
  have whole : s'.trail = s.trail ++ s'.trail.extract s.size s'.trail.size := by
    rw [kept, Array.extract_append_extract, Nat.min_eq_left (Nat.zero_le _), Nat.max_eq_right below,
      Array.extract_size]
  calc s'.entries
      = (s.trail ++ s'.trail.extract s.size s'.trail.size).toList.map
          fun binding => (binding.var, binding.term) := by rw [← whole, entries]
    _ = s.entries ++ s'.entriesSince s.mark := by
      rw [Array.toList_append, List.map_append]
      rfl

theorem made_conclude (mark : Mark) (attempt : Attempt) :
    (conclude mark attempt).made = attempt.bindings.entriesSince mark := by
  rcases attempt with ⟨s, _ | conflict⟩ <;> rfl

/-- The attempt comes to an end by the rules, and what it has made stands at the end of its
trail. -/
theorem Acyclic.exists_unifies (acyclic : s.Acyclic) (t u : Term) :
    ∃ s', Unifies t u s { bindings := s', conflict := (s.unify t u).conflict } ∧
      s'.entries = s.entries ++ (s.unify t u).made := by
  have inBound := acyclic.unify_not_tooDeep t u
  rw [unify, conflict_conclude] at inBound
  have unifies := (unifies_iff_eq_unifyWithin _ t u acyclic inBound _).2 rfl
  refine ⟨(unifyWithin (s.unifyDepth t u) t u s).bindings, ?_, ?_⟩
  · rw [unify, conflict_conclude]
    exact unifies
  · rw [unify, made_conclude]
    exact (unifyWithin_grows_any _ t u s).entries_eq

/-- If two terms do not unify under bindings in which no variable reaches itself, the attempt has
ended in a conflict after it made some bindings, any number of them and at any depth. None of them
is left: the trail is entry by entry what it was, and every look-up finds what it found before. -/
theorem unify_leaves_no_trace (reached : s.Reached Unguarded) (noCycle : s.NoCycle) {t u : Term}
    (failed : (s.unify t u).succeeded = false) :
    (∃ s' conflict, Unifies t u s { bindings := s', conflict := some conflict } ∧
      s'.entries = s.entries ++ (s.unify t u).made) ∧
    (s.unify t u).bindings.trail = s.trail ∧
    ∀ x, (s.unify t u).bindings.lookup x = s.lookup x := by
  obtain ⟨conflict, outcome⟩ := Unification.failed_iff.1 failed
  obtain ⟨s', unifies, entries⟩ := (reached.acyclic_iff.2 noCycle).exists_unifies t u
  rw [outcome] at unifies
  have restored := unify_bindings_of_conflict outcome
  exact ⟨⟨s', conflict, unifies, entries⟩, congrArg trail restored,
    fun x => congrArg (lookup · x) restored⟩

/-- The arguments of `p(Z, g(X), b)` and `p(W, g(f(c)), d)` unify up to the last one. `Z` and `Y`
have been bound by then, and are unbound again. -/
theorem unify_leaves_no_trace_rebound :
    let t := Term.compound "p" [.var "Z", .compound "g" [.var "X"], .atom "b"]
    let u := Term.compound "p"
      [.var "W", .compound "g" [.compound "f" [.atom "c"]], .atom "d"]
    (rebound.unify t u).succeeded = false ∧
      (rebound.unify t u).made = [("Z", .var "W"), ("Y", .atom "c")] ∧
      (rebound.unify t u).bindings.trail = rebound.trail ∧
      (rebound.unify t u).bindings.lookup "Y" = none := by
  intro t u
  have failed : (rebound.unify t u).succeeded = false := by decide +kernel
  obtain ⟨-, trail, lookup⟩ := unify_leaves_no_trace reached_rebound noCycle_rebound failed
  exact ⟨failed, by decide +kernel, trail, (lookup "Y").trans (by decide +kernel)⟩

end Bindings

end HornLogic
