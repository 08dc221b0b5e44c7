import HornLogic.Proofs.Names.Translation
import HornLogic.Proofs.Unification.Growth

/-!
# Bindings under other names

Nothing that is done with bindings looks at a name, except to compare it with another name. So if
bindings are `Translated` by a permutation of names, everything computed from them is: what a term
walks to and resolves to, whether a variable occurs in it, and what comes of a unification,
conflicts and the bindings made included (`Translated.unify`).

The trails need not be alike entry by entry. What counts is what each variable is bound to, and
size and load, which bound the recursions.

Names that the bindings do not mention may be translated in any way: a dictionary can be extended
without harm (`Translated.extend`).
-/

namespace HornLogic

/-- The conflict under other names. -/
def Conflict.rename (ρ : Symbol → Symbol) : Conflict → Conflict
  | .clash => .clash
  | .occurs x t => .occurs (ρ x) (t.rename ρ)
  | .tooDeep => .tooDeep

theorem Term.rename_eq_var_iff (π : Equiv.Perm Symbol) {t : Term} {x : Symbol} :
    t.rename π = .var (π x) ↔ t = .var x := by
  cases t <;> simp

namespace Bindings

/-- The second bindings bind the counterpart of each variable to the counterpart of its term. -/
structure Translated (π : Equiv.Perm Symbol) (s s' : Bindings) : Prop where
  indexed : s.Indexed
  indexed' : s'.Indexed
  size : s'.size = s.size
  load : s'.load = s.load
  lookup : ∀ x, s'.lookup (π x) = (s.lookup x).map (Term.rename π)

/-- The two attempts got to corresponding bindings and conflicts. -/
structure TranslatedAttempt (π : Equiv.Perm Symbol) (attempt attempt' : Attempt) : Prop where
  bindings : attempt.bindings.Translated π attempt'.bindings
  conflict : attempt'.conflict = attempt.conflict.map (Conflict.rename π)

theorem translated_empty (π : Equiv.Perm Symbol) : empty.Translated π empty where
  indexed := indexed_empty
  indexed' := indexed_empty
  size := rfl
  load := rfl
  lookup x := by simp

variable {π : Equiv.Perm Symbol} {s s' : Bindings}

namespace Translated

theorem bind (translated : s.Translated π s') (x : Symbol) (t : Term) :
    (s.bind x t).Translated π (s'.bind (π x) (t.rename π)) where
  indexed := translated.indexed.bind x t
  indexed' := translated.indexed'.bind (π x) (t.rename π)
  size := by rw [size_bind, size_bind, translated.size]
  load := by rw [load_bind, load_bind, translated.load, Term.size_rename]
  lookup y := by
    rw [lookup_bind translated.indexed', lookup_bind translated.indexed, translated.lookup]
    by_cases same : y = x
    · rw [if_pos same, if_pos (congrArg π same), Option.map_some]
    · rw [if_neg same, if_neg fun equal => same (π.injective equal)]

/-- The bindings mention names of the dictionary only, so they are translated by a larger one. -/
theorem extend {dict more : Dictionary} (translated : s.Translated dict.perm s')
    (extension : more.Extends dict) (all : s.All dict.Covers) : s.Translated more.perm s' where
  indexed := translated.indexed
  indexed' := translated.indexed'
  size := translated.size
  load := translated.load
  lookup x := by
    have known {y : Symbol} {t : Term} (found : s.lookup y = some t) : y ∈ dict.names :=
      all.var_of_lookup translated.indexed found y (by simp)
    cases found : s.lookup x with
    | some t =>
      rw [extension.2 x (known found), translated.lookup, found, Option.map_some, Option.map_some,
        extension.rename_eq (all.lookup found)]
    | none =>
      rw [Option.map_none, Option.eq_none_iff_forall_ne_some]
      -- What is bound there would be the counterpart of a bound variable, and that one is `x`.
      intro t' found'
      obtain ⟨y, same⟩ := dict.perm.surjective (more.perm x)
      rw [← same, translated.lookup, Option.map_eq_some_iff] at found'
      obtain ⟨t, foundY, -⟩ := found'
      rw [← extension.2 y (known foundY)] at same
      rw [more.perm.injective same, found] at foundY
      contradiction

/-! ## Walking, resolving and the occurs test -/

theorem walkWithin (translated : s.Translated π s') (hops : Nat) (t : Term) :
    s'.walkWithin hops (t.rename π) = (s.walkWithin hops t).rename π := by
  induction hops generalizing t with
  | zero => cases t <;> simp [Bindings.walkWithin]
  | succ hops ih =>
    cases t with
    | atom name => simp [Bindings.walkWithin]
    | compound functor args => simp [Bindings.walkWithin]
    | var x =>
      rw [Term.rename_var, Bindings.walkWithin, Bindings.walkWithin, translated.lookup]
      cases s.lookup x with
      | none => simp
      | some t => exact ih t

theorem walk (translated : s.Translated π s') (t : Term) :
    s'.walk (t.rename π) = (s.walk t).rename π := by
  rw [Bindings.walk, Bindings.walk, translated.size, translated.walkWithin]

theorem valueWithin (translated : s.Translated π s') (links : Nat) (x : Symbol) :
    s'.valueWithin links (π x) = (s.valueWithin links x).rename π := by
  induction links generalizing x with
  | zero => simp [Bindings.valueWithin]
  | succ links ih =>
    rw [Bindings.valueWithin, Bindings.valueWithin, translated.lookup]
    cases s.lookup x with
    | none => simp
    | some t =>
      show (t.rename π).instantiate (s'.valueWithin links) =
        (t.instantiate (s.valueWithin links)).rename π
      rw [Term.instantiate_rename, Term.rename_instantiate]
      exact Term.instantiate_congr fun y _ => ih y

theorem resolve (translated : s.Translated π s') (t : Term) :
    s'.resolve (t.rename π) = (s.resolve t).rename π := by
  rw [Bindings.resolve, Bindings.resolve, translated.size, Term.instantiate_rename,
    Term.rename_instantiate]
  exact Term.instantiate_congr fun x _ => translated.valueWithin s.size x

theorem occurs (translated : s.Translated π s') (x : Symbol) (t : Term) :
    s'.occurs (π x) (t.rename π) = s.occurs x t := by
  rw [Bool.eq_iff_iff, occurs_iff, occurs_iff, translated.resolve, Term.occurrences_rename,
    List.mem_map_of_injective π.injective]

/-! ## Unification -/

theorem bindIfAbsent (translated : s.Translated π s') (x : Symbol) (t : Term) :
    TranslatedAttempt π (s.bindIfAbsent x t) (s'.bindIfAbsent (π x) (t.rename π)) := by
  unfold Bindings.bindIfAbsent
  rw [translated.occurs]
  cases s.occurs x t with
  | true => exact ⟨translated, rfl⟩
  | false => exact ⟨translated.bind x t, rfl⟩

theorem unifyArgs {unifyPair : Term → Term → Bindings → Attempt}
    (pair : ∀ t u {s s' : Bindings}, s.Translated π s' →
      TranslatedAttempt π (unifyPair t u s) (unifyPair (t.rename π) (u.rename π) s'))
    (translated : s.Translated π s') (ts us : List Term) :
    TranslatedAttempt π (Bindings.unifyArgs unifyPair ts us s)
      (Bindings.unifyArgs unifyPair (ts.map (Term.rename π)) (us.map (Term.rename π)) s') := by
  induction ts generalizing us s s' with
  | nil => cases us <;> exact ⟨translated, rfl⟩
  | cons t ts ih =>
    cases us with
    | nil => exact ⟨translated, rfl⟩
    | cons u us =>
      have first := pair t u translated
      rw [List.map_cons, List.map_cons]
      rcases result : unifyPair t u s with ⟨next, _ | conflict⟩
      · rcases result' : unifyPair (t.rename π) (u.rename π) s' with ⟨next', conflict'⟩
        rw [result, result'] at first
        obtain ⟨translatedNext, rfl⟩ := first
        rw [unifyArgs_cons_of_none result, unifyArgs_cons_of_none result']
        exact ih translatedNext us
      · rcases result' : unifyPair (t.rename π) (u.rename π) s' with ⟨next', conflict'⟩
        rw [result, result'] at first
        obtain ⟨translatedNext, rfl⟩ := first
        rw [unifyArgs_cons_of_some result, unifyArgs_cons_of_some result']
        exact ⟨translatedNext, rfl⟩

theorem agree_rename_iff (t u : Term) : Agree (t.rename π) (u.rename π) ↔ Agree t u := by
  cases t <;> cases u <;> simp [Agree]

theorem unifyWithin (translated : s.Translated π s') (depth : Nat) (t u : Term) :
    TranslatedAttempt π (Bindings.unifyWithin depth t u s)
      (Bindings.unifyWithin depth (t.rename π) (u.rename π) s') := by
  induction depth generalizing t u s s' with
  | zero => exact ⟨translated, rfl⟩
  | succ depth ih =>
    have walkedT := translated.walk t
    have walkedU := translated.walk u
    cases level s t u with
    | same x walkT walkU =>
      rw [walkT, Term.rename_var] at walkedT
      rw [walkU, Term.rename_var] at walkedU
      rw [unifyWithin_same depth walkT walkU, unifyWithin_same depth walkedT walkedU]
      exact ⟨translated, rfl⟩
    | left x walkT different =>
      have different' : s'.walk (u.rename π) ≠ .var (π x) := by
        rw [walkedU, Ne, Term.rename_eq_var_iff]
        exact different
      rw [walkT, Term.rename_var] at walkedT
      rw [unifyWithin_left depth walkT different, unifyWithin_left depth walkedT different',
        walkedU]
      exact translated.bindIfAbsent x _
    | right x nonvar walkU =>
      have nonvar' : (s'.walk (t.rename π)).isVar = false := by
        rw [walkedT, Term.isVar_rename]
        exact nonvar
      rw [walkU, Term.rename_var] at walkedU
      rw [unifyWithin_right depth nonvar walkU, unifyWithin_right depth nonvar' walkedU, walkedT]
      exact translated.bindIfAbsent x _
    | atom a walkT walkU =>
      rw [walkT, Term.rename_atom] at walkedT
      rw [walkU, Term.rename_atom] at walkedU
      rw [unifyWithin_atom depth walkT walkU, unifyWithin_atom depth walkedT walkedU]
      exact ⟨translated, rfl⟩
    | compound f ts us walkT walkU lengths =>
      rw [walkT, Term.rename_compound] at walkedT
      rw [walkU, Term.rename_compound] at walkedU
      rw [unifyWithin_compound depth walkT walkU lengths,
        unifyWithin_compound depth walkedT walkedU (by simpa using lengths)]
      exact translated.unifyArgs (fun t u _ _ translated => ih translated t u) ts us
    | clash left right disagree =>
      have left' : (s'.walk (t.rename π)).isVar = false := by
        rw [walkedT, Term.isVar_rename]
        exact left
      have right' : (s'.walk (u.rename π)).isVar = false := by
        rw [walkedU, Term.isVar_rename]
        exact right
      have disagree' : ¬ Agree (s'.walk (t.rename π)) (s'.walk (u.rename π)) := by
        rw [walkedT, walkedU, agree_rename_iff]
        exact disagree
      rw [unifyWithin_clash depth left right disagree,
        unifyWithin_clash depth left' right' disagree']
      exact ⟨translated, rfl⟩

/-- Unification under other names makes the same of it under other names. -/
theorem unify (translated : s.Translated π s') (t u : Term) :
    (s.unify t u).bindings.Translated π (s'.unify (t.rename π) (u.rename π)).bindings ∧
      (s'.unify (t.rename π) (u.rename π)).conflict =
        (s.unify t u).conflict.map (Conflict.rename π) := by
  have depth : s'.unifyDepth (t.rename π) (u.rename π) = s.unifyDepth t u := by
    simp [unifyDepth, translated.load]
  have attempts := translated.unifyWithin (s.unifyDepth t u) t u
  have conflicts : (s'.unify (t.rename π) (u.rename π)).conflict =
      (s.unify t u).conflict.map (Conflict.rename π) := by
    rw [Bindings.unify, Bindings.unify, conflict_conclude, conflict_conclude, depth]
    exact attempts.conflict
  refine ⟨?_, conflicts⟩
  cases outcome : (s.unify t u).conflict with
  | some conflict =>
    -- Both leave the bindings as they were.
    rw [outcome, Option.map_some] at conflicts
    rw [unify_bindings_of_conflict outcome, unify_bindings_of_conflict conflicts]
    exact translated
  | none =>
    rw [outcome, Option.map_none] at conflicts
    rw [Bindings.unify, conflict_conclude] at outcome conflicts
    rw [Bindings.unify, Bindings.unify, bindings_conclude, bindings_conclude, outcome, conflicts,
      depth]
    exact attempts.bindings

end Translated

end Bindings

end HornLogic
