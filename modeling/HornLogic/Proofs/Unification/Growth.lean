import HornLogic.Proofs.Bindings.Equations
import HornLogic.Proofs.Unification.Level

/-!
# How unification changes bindings

Unification only ever adds entries, each of which binds what one term walks to to what another
term walks to, after the occurs check. `Grows P s s'` says that `s'` comes from `s` in this way by
entries for terms with the property `P`. All that a search needs to know of the bindings after
a unification follows from this: a rollback to the mark of `s` gives back `s` exactly
(`Grows.rollback`), acyclic bindings stay acyclic and lose no entry (`Grows.acyclic`,
`Grows.lookup`), and a property of terms that passes to parts of terms is kept (`Grows.all`).

One level of unification can do six things with the two walked terms, and `UnifyStep` lists them.
Proofs about unification go through its cases and never open the definition.
-/

namespace HornLogic.Bindings

/-! ## Growth -/

/-- The second bindings come from the first by entries that unification may add for terms with
the property. -/
inductive Grows (P : Term → Prop) (s : Bindings) : Bindings → Prop where
  | refl : Grows P s s
  /-- What `t` walks to was bound to what `u` walks to. -/
  | bind {s' : Bindings} {t u : Term} {x : Symbol} : Grows P s s' → P t → P u →
      s'.walk t = .var x → s'.occurs x (s'.walk u) = false → Grows P s (s'.bind x (s'.walk u))

variable {P : Term → Prop} {s s' s'' : Bindings}

theorem Grows.trans (grows : Grows P s s') (grows' : Grows P s' s'') : Grows P s s'' := by
  induction grows' with
  | refl => exact grows
  | bind _ left right walked absent ih => exact ih.bind left right walked absent

theorem Grows.size_le (grows : Grows P s s') : s.size ≤ s'.size := by
  induction grows with
  | refl => exact Nat.le_refl _
  | bind _ _ _ _ _ ih =>
    rw [size_bind]
    omega

theorem Grows.rollback (grows : Grows P s s') : s'.rollback s.mark = s := by
  induction grows with
  | refl => exact rollback_mark s
  | bind grows _ _ _ _ ih =>
    have below : s.mark.position ≤ _ := grows.size_le
    rw [rollback_bind below]
    exact ih

/-- Going back to where the bindings came from, or further, takes away all that was added. -/
theorem Grows.rollback_of_le (grows : Grows P s s') {mark : Mark}
    (le : mark.position ≤ s.size) : s'.rollback mark = s.rollback mark := by
  rw [← rollback_rollback (show mark.position ≤ s.mark.position from le), grows.rollback]

/-- The property of the unified terms carries over to all that is bound. -/
theorem Grows.all (grows : Grows P s s') (all : s.All P) : s'.All P := by
  induction grows with
  | refl => exact all
  | bind _ left right walked _ ih =>
    have var := ih.walk left
    rw [walked] at var
    exact ih.bind var (ih.walk right)

theorem Grows.acyclic (grows : Grows P s s') (acyclic : s.Acyclic) : s'.Acyclic := by
  induction grows with
  | refl => exact acyclic
  | bind _ _ _ walked absent ih => exact ih.bind (ih.lookup_of_walk walked) absent

/-- What was bound stays bound to the same term. -/
theorem Grows.lookup (grows : Grows P s s') (acyclic : s.Acyclic) {x : Symbol} {t : Term}
    (found : s.lookup x = some t) : s'.lookup x = some t := by
  induction grows with
  | refl => exact found
  | @bind s' _ _ y grows _ _ walked _ ih =>
    have acyclic' := grows.acyclic acyclic
    have unbound := acyclic'.lookup_of_walk walked
    rw [lookup_bind acyclic'.indexed]
    split
    · rename_i same
      rw [same, unbound] at ih
      contradiction
    · exact ih

/-- The equations only become more. -/
theorem Grows.solvedBy (grows : Grows P s s') (acyclic : s.Acyclic) {θ : Symbol → Term}
    (solved : s'.SolvedBy θ) : s.SolvedBy θ :=
  fun x t found => solved x t (grows.lookup acyclic found)

/-! ## The cases of a unification -/

/-- What one level of unification makes of two terms, by what they walk to. -/
inductive UnifyStep (depth : Nat) (t u : Term) (s : Bindings) : Attempt → Prop where
  | same (x : Symbol) : s.walk t = .var x → s.walk u = .var x →
      UnifyStep depth t u s { bindings := s }
  /-- One is a variable that does not occur in the other. -/
  | bind (a b : Term) (x : Symbol) : a = t ∧ b = u ∨ a = u ∧ b = t → s.walk a = .var x →
      s.occurs x (s.walk b) = false → UnifyStep depth t u s { bindings := s.bind x (s.walk b) }
  /-- One is a variable that occurs in the other. -/
  | refuse (a b : Term) (x : Symbol) : a = t ∧ b = u ∨ a = u ∧ b = t → s.walk a = .var x →
      s.walk b ≠ .var x → s.occurs x (s.walk b) = true →
      UnifyStep depth t u s { bindings := s, conflict := some (.occurs x (s.walk b)) }
  | atom (a : Symbol) : s.walk t = .atom a → s.walk u = .atom a →
      UnifyStep depth t u s { bindings := s }
  /-- Both are compounds that agree in functor and number of arguments. -/
  | compound (f : Symbol) (ts us : List Term) : s.walk t = .compound f ts →
      s.walk u = .compound f us → ts.length = us.length →
      UnifyStep depth t u s (unifyArgs (unifyWithin depth) ts us s)
  /-- Both are no variables, and no assignment makes them equal. -/
  | clash : (∀ θ, (s.walk t).instantiate θ ≠ (s.walk u).instantiate θ) →
      UnifyStep depth t u s { bindings := s, conflict := some .clash }

private theorem unifyStep_bindIfAbsent (depth : Nat) {t u a b : Term} {x : Symbol}
    (sides : a = t ∧ b = u ∨ a = u ∧ b = t) (walked : s.walk a = .var x)
    (different : s.walk b ≠ .var x) :
    UnifyStep depth t u s (s.bindIfAbsent x (s.walk b)) := by
  unfold bindIfAbsent
  split
  · rename_i present
    exact .refuse a b x sides walked different present
  · rename_i absent
    exact .bind a b x sides walked (by simpa using absent)

/-- Terms that clash are different under every assignment. -/
theorem instantiate_ne_of_not_agree {t u : Term} (left : t.isVar = false) (right : u.isVar = false)
    (disagree : ¬ Agree t u) (θ : Symbol → Term) : t.instantiate θ ≠ u.instantiate θ := by
  cases t with
  | var x => simp [Term.isVar] at left
  | atom a =>
    cases u with
    | var y => simp [Term.isVar] at right
    | atom b => simpa [Agree] using disagree
    | compound g us => simp
  | compound f ts =>
    cases u with
    | var y => simp [Term.isVar] at right
    | atom b => simp
    | compound g us =>
      intro equal
      simp only [Term.instantiate_compound, Term.compound.injEq] at equal
      exact disagree ⟨equal.1, by simpa using congrArg List.length equal.2⟩

theorem unifyStep_unifyWithin (depth : Nat) (t u : Term) (s : Bindings) :
    UnifyStep depth t u s (unifyWithin (depth + 1) t u s) := by
  cases level s t u with
  | same x walkT walkU =>
    rw [unifyWithin_same depth walkT walkU]
    exact .same x walkT walkU
  | left x walkT different =>
    rw [unifyWithin_left depth walkT different]
    exact unifyStep_bindIfAbsent depth (.inl ⟨rfl, rfl⟩) walkT different
  | right x nonvar walkU =>
    have different : s.walk t ≠ .var x := by
      intro walkT
      simp [walkT, Term.isVar] at nonvar
    rw [unifyWithin_right depth nonvar walkU]
    exact unifyStep_bindIfAbsent depth (.inr ⟨rfl, rfl⟩) walkU different
  | atom a walkT walkU =>
    rw [unifyWithin_atom depth walkT walkU]
    exact .atom a walkT walkU
  | compound f ts us walkT walkU lengths =>
    rw [unifyWithin_compound depth walkT walkU lengths]
    exact .compound f ts us walkT walkU lengths
  | clash left right disagree =>
    rw [unifyWithin_clash depth left right disagree]
    exact .clash (instantiate_ne_of_not_agree left right disagree)

/-! ## Lists of arguments -/

theorem unifyArgs_cons_of_none {unifyPair : Term → Term → Bindings → Attempt} {t u : Term}
    (unified : unifyPair t u s = { bindings := s' }) (ts us : List Term) :
    unifyArgs unifyPair (t :: ts) (u :: us) s = unifyArgs unifyPair ts us s' := by
  rw [unifyArgs, unified]

theorem unifyArgs_cons_of_some {unifyPair : Term → Term → Bindings → Attempt} {t u : Term}
    {conflict : Conflict} (failed : unifyPair t u s = { bindings := s', conflict := some conflict })
    (ts us : List Term) :
    unifyArgs unifyPair (t :: ts) (u :: us) s =
      { bindings := s', conflict := some conflict } := by
  rw [unifyArgs, failed]

/-- Unifying lists of arguments grows the bindings if unifying a pair does. -/
theorem unifyArgs_grows {unifyPair : Term → Term → Bindings → Attempt}
    (pair : ∀ t u s, P t → P u → s.All P → Grows P s (unifyPair t u s).bindings)
    {ts us : List Term} (left : ∀ t ∈ ts, P t) (right : ∀ u ∈ us, P u) (all : s.All P) :
    Grows P s (unifyArgs unifyPair ts us s).bindings := by
  induction ts generalizing us s with
  | nil => cases us <;> exact .refl
  | cons t ts ih =>
    cases us with
    | nil => exact .refl
    | cons u us =>
      have first := pair t u s (left t (by simp)) (right u (by simp)) all
      rcases result : unifyPair t u s with ⟨s', _ | conflict⟩
      · rw [result] at first
        rw [unifyArgs_cons_of_none result]
        have later : Grows P s' (unifyArgs unifyPair ts us s').bindings :=
          ih (fun t member => left t (List.mem_cons_of_mem _ member))
            (fun u member => right u (List.mem_cons_of_mem _ member)) (first.all all)
        exact first.trans later
      · rw [result] at first
        rw [unifyArgs_cons_of_some result]
        exact first

/-! ## The whole unification -/

/-- An attempt to unify terms with a property that passes to arguments grows the bindings by
terms with this property, whether or not it comes to a conflict. -/
theorem unifyWithin_grows (closed : ∀ f args, P (.compound f args) → ∀ arg ∈ args, P arg)
    (depth : Nat) {t u : Term} (left : P t) (right : P u) (all : s.All P) :
    Grows P s (unifyWithin depth t u s).bindings := by
  induction depth generalizing t u s with
  | zero => exact .refl
  | succ depth ih =>
    have walkedT := all.walk left
    have walkedU := all.walk right
    have step := unifyStep_unifyWithin depth t u s
    generalize unifyWithin (depth + 1) t u s = attempt at step ⊢
    cases step with
    | same => exact .refl
    | atom => exact .refl
    | clash => exact .refl
    | refuse => exact .refl
    | bind a b x sides walked absent =>
      rcases sides with ⟨rfl, rfl⟩ | ⟨rfl, rfl⟩
      · exact Grows.refl.bind left right walked absent
      · exact Grows.refl.bind right left walked absent
    | compound f ts us walkT walkU _ =>
      -- The arguments are parts of the terms or of what stands on the trail.
      rw [walkT] at walkedT
      rw [walkU] at walkedU
      exact unifyArgs_grows (fun t u s left right all => ih left right all)
        (closed f ts walkedT) (closed f us walkedU) all

theorem unifyWithin_grows_any (depth : Nat) (t u : Term) (s : Bindings) :
    Grows (fun _ => True) s (unifyWithin depth t u s).bindings :=
  unifyWithin_grows (fun _ _ _ _ _ => trivial) depth trivial trivial fun _ _ => ⟨trivial, trivial⟩

/-- A unification that meets a conflict leaves the bindings exactly as they were. -/
theorem unify_bindings_of_conflict {t u : Term} {conflict : Conflict}
    (failed : (s.unify t u).conflict = some conflict) : (s.unify t u).bindings = s := by
  have grows := unifyWithin_grows_any (s.unifyDepth t u) t u s
  rw [unify, conflict_conclude] at failed
  rw [unify, bindings_conclude, failed]
  -- What the attempt added before the conflict is rolled back.
  exact grows.rollback

/-- Unification grows the bindings, by nothing if it meets a conflict. -/
theorem unify_grows (closed : ∀ f args, P (.compound f args) → ∀ arg ∈ args, P arg) {t u : Term}
    (left : P t) (right : P u) (all : s.All P) : Grows P s (s.unify t u).bindings := by
  cases outcome : (s.unify t u).conflict with
  | some conflict =>
    rw [unify_bindings_of_conflict outcome]
    exact .refl
  | none =>
    have grows := unifyWithin_grows closed (s.unifyDepth t u) left right all
    rw [unify, conflict_conclude] at outcome
    rw [unify, bindings_conclude, outcome]
    exact grows

theorem unify_grows_any (s : Bindings) (t u : Term) :
    Grows (fun _ => True) s (s.unify t u).bindings :=
  unify_grows (fun _ _ _ _ _ => trivial) trivial trivial fun _ _ => ⟨trivial, trivial⟩

theorem Acyclic.bindings_unify (acyclic : s.Acyclic) (t u : Term) :
    (s.unify t u).bindings.Acyclic :=
  (unify_grows_any s t u).acyclic acyclic

end HornLogic.Bindings
