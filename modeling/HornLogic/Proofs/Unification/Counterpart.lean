import HornLogic.Proofs.Names.Translation
import HornLogic.Proofs.Unification.Depth

/-!
# Unification sees resolved terms only

What comes of a unification depends on what the two terms resolve to, and on nothing else in
the bindings. Let there be two bindings, of whatever size and history, and let terms under the first
ones have `Counterpart`s under the second ones, which resolve to the same up to a renaming of
variables. If two terms unify then their counterparts do, and all terms that had counterparts
have them still (`Counterpart.unify`).

Both unifications go through the same cases. A walk ends at the outermost symbol of the resolved
term, so the walks from counterparts end at the same atom, at the same functor, or at unbound
variables that correspond. A new binding replaces its variable in all resolved terms at once
(`Acyclic.resolve_bind`), on both sides in the same way.

The two attempts work with different bounds on the depth, so nothing can be said if one of them uses
its bound up, which acyclic bindings never make it do.
-/

namespace HornLogic.Bindings

/-! ## One more binding -/

/-- A new binding replaces its variable in resolved terms. -/
theorem Acyclic.resolve_bind {s : Bindings} (acyclic : s.Acyclic) {x : Symbol} {t : Term}
    (unbound : s.lookup x = none) (absent : s.occurs x t = false) (v : Term) :
    (s.bind x t).resolve v =
      (s.resolve v).instantiate fun y => if y = x then s.resolve t else .var y := by
  have found (y : Symbol) : (s.bind x t).lookup y = if y = x then some t else s.lookup y :=
    lookup_bind acyclic.indexed x t y
  induction v using (acyclic.bind unbound absent).induct with
  | atom name => simp
  | unbound y unboundNow =>
    rw [found] at unboundNow
    have different : y ≠ x := by
      intro same
      simp [same] at unboundNow
    rw [if_neg different] at unboundNow
    rw [resolve_var, resolve_var, value_of_unbound unboundNow, Term.instantiate_var,
      if_neg different, value_of_unbound]
    rw [found, if_neg different, unboundNow]
  | bound y u foundNow ih =>
    rw [resolve_var, (acyclic.bind unbound absent).value_of_lookup foundNow, ih, resolve_var]
    rw [found] at foundNow
    by_cases same : y = x
    · -- The variable does not occur in what its own term resolves to.
      rw [if_pos same] at foundNow
      obtain rfl := Option.some.inj foundNow
      rw [same, value_of_unbound unbound, Term.instantiate_var, if_pos rfl]
      refine Eq.trans (Term.instantiate_congr fun z occurs => ?_) (Term.instantiate_self _)
      have other : z ≠ x := by
        rintro rfl
        rw [← occurs_iff, absent] at occurs
        contradiction
      rw [if_neg other]
    · rw [if_neg same] at foundNow
      rw [acyclic.value_of_lookup foundNow]
  | compound functor args ih =>
    simp only [resolve_compound, Term.instantiate_compound, List.map_map, Term.compound.injEq,
      true_and]
    exact List.map_congr_left ih

/-! ## Counterparts -/

/-- The second term resolves under the second bindings to what the first one resolves to under the
first bindings, under other names. -/
def Counterpart (π : Equiv.Perm Symbol) (s s' : Bindings) (t t' : Term) : Prop :=
  s'.resolve t' = (s.resolve t).rename π

variable {π : Equiv.Perm Symbol} {s s' : Bindings} {t t' u u' : Term}

namespace Counterpart

theorem symm (pair : Counterpart π s s' t t') : Counterpart π.symm s' s t' t := by
  unfold Counterpart at pair ⊢
  rw [pair, Term.rename_symm]

section Walks

variable (acyclic : s.Acyclic) (acyclic' : s'.Acyclic) (pair : Counterpart π s s' t t')
include acyclic acyclic' pair

theorem walk : Counterpart π s s' (s.walk t) (s'.walk t') := by
  unfold Counterpart
  rw [acyclic'.resolve_walk, acyclic.resolve_walk]
  exact pair

theorem walk_eq_var {x : Symbol} (walked : s.walk t = .var x) : s'.walk t' = .var (π x) := by
  have resolved : s'.resolve (s'.walk t') = .var (π x) := by
    rw [pair.walk acyclic acyclic', walked, resolve_var,
      value_of_unbound (acyclic.lookup_of_walk walked), Term.rename_var]
  cases walked' : s'.walk t' with
  | atom name => simp [walked'] at resolved
  | compound functor args => simp [walked'] at resolved
  | var y =>
    rw [walked', resolve_var, value_of_unbound (acyclic'.lookup_of_walk walked')] at resolved
    exact resolved

theorem walk_eq_atom {name : Symbol} (walked : s.walk t = .atom name) :
    s'.walk t' = .atom name := by
  have resolved : s'.resolve (s'.walk t') = .atom name := by
    rw [pair.walk acyclic acyclic', walked, resolve_atom, Term.rename_atom]
  cases walked' : s'.walk t' with
  | atom other =>
    rw [walked', resolve_atom] at resolved
    exact resolved
  | compound functor args => simp [walked'] at resolved
  | var y =>
    rw [walked', resolve_var, value_of_unbound (acyclic'.lookup_of_walk walked')] at resolved
    contradiction

/-- Where a term walks to a compound its counterpart does, and the arguments are counterparts. -/
theorem walk_eq_compound {functor : Symbol} {args : List Term}
    (walked : s.walk t = .compound functor args) :
    ∃ args', s'.walk t' = .compound functor args' ∧
      List.Forall₂ (Counterpart π s s') args args' := by
  have resolved : s'.resolve (s'.walk t') =
      .compound functor ((args.map s.resolve).map (Term.rename π)) := by
    rw [pair.walk acyclic acyclic', walked, resolve_compound, Term.rename_compound]
  cases walked' : s'.walk t' with
  | atom other => simp [walked'] at resolved
  | compound functor' args' =>
    rw [walked', resolve_compound] at resolved
    obtain ⟨rfl, same⟩ := Term.compound.inj resolved
    refine ⟨args', rfl, ?_⟩
    rw [List.map_map, eq_comm, ← List.forall₂_eq_eq_eq, List.forall₂_map_left_iff,
      List.forall₂_map_right_iff] at same
    exact same.imp fun _ _ equal => equal.symm
  | var y =>
    rw [walked', resolve_var, value_of_unbound (acyclic'.lookup_of_walk walked')] at resolved
    contradiction

theorem isVar_walk (notVar : (s.walk t).isVar = false) : (s'.walk t').isVar = false := by
  rw [Bool.eq_false_iff, Ne, Term.isVar_iff]
  rintro ⟨x, walked'⟩
  rw [pair.symm.walk_eq_var acyclic' acyclic walked'] at notVar
  contradiction

theorem agree (pair' : Counterpart π s s' u u') (agree : Agree (s.walk t) (s.walk u)) :
    Agree (s'.walk t') (s'.walk u') := by
  rcases agree.exists_shape with ⟨a, walkT, walkU⟩ | ⟨f, ts, us, walkT, walkU, lengths⟩
  · rw [pair.walk_eq_atom acyclic acyclic' walkT, pair'.walk_eq_atom acyclic acyclic' walkU]
    rfl
  · obtain ⟨ts', walkT', left⟩ := pair.walk_eq_compound acyclic acyclic' walkT
    obtain ⟨us', walkU', right⟩ := pair'.walk_eq_compound acyclic acyclic' walkU
    rw [walkT', walkU']
    exact ⟨rfl, left.length_eq.symm.trans (lengths.trans right.length_eq)⟩

end Walks

theorem occurs_eq (pair : Counterpart π s s' t t') (x : Symbol) :
    s'.occurs (π x) t' = s.occurs x t := by
  rw [Bool.eq_iff_iff, occurs_iff, occurs_iff, pair, Term.occurrences_rename,
    List.mem_map_of_injective π.injective]

/-- What are counterparts are counterparts after corresponding variables were bound. -/
theorem bind (acyclic : s.Acyclic) (acyclic' : s'.Acyclic) (pair : Counterpart π s s' t t')
    {x : Symbol} (unbound : s.lookup x = none) (unbound' : s'.lookup (π x) = none)
    (bound : Counterpart π s s' u u') (absent : s.occurs x u = false) :
    Counterpart π (s.bind x u) (s'.bind (π x) u') t t' := by
  have absent' : s'.occurs (π x) u' = false := (bound.occurs_eq x).trans absent
  show (s'.bind (π x) u').resolve t' = ((s.bind x u).resolve t).rename π
  rw [acyclic.resolve_bind unbound absent, acyclic'.resolve_bind unbound' absent', pair, bound,
    Term.instantiate_rename, Term.rename_instantiate]
  refine Term.instantiate_congr fun y _ => ?_
  by_cases same : y = x
  · rw [if_pos same, if_pos (congrArg π same)]
  · rw [if_neg same, if_neg fun equal => same (π.injective equal), Term.rename_var]

end Counterpart

/-! ## Unification -/

/-- Both attempts succeed or neither does. If they do, all counterparts are counterparts still. -/
structure CounterpartAttempt (π : Equiv.Perm Symbol) (s s' : Bindings)
    (attempt attempt' : Attempt) : Prop where
  success_iff : attempt.conflict = none ↔ attempt'.conflict = none
  kept : attempt.conflict = none → ∀ t t', Counterpart π s s' t t' →
    Counterpart π attempt.bindings attempt'.bindings t t'

theorem counterpartAttempt_same (π : Equiv.Perm Symbol) (s s' : Bindings) :
    CounterpartAttempt π s s' { bindings := s } { bindings := s' } :=
  ⟨Iff.rfl, fun _ _ _ pair => pair⟩

theorem counterpartAttempt_failed {attempt attempt' : Attempt} {conflict conflict' : Conflict}
    (failed : attempt.conflict = some conflict) (failed' : attempt'.conflict = some conflict') :
    CounterpartAttempt π s s' attempt attempt' := by
  constructor
  · rw [failed, failed']
    simp
  · intro success
    rw [failed] at success
    contradiction

theorem Counterpart.bindIfAbsent (acyclic : s.Acyclic) (acyclic' : s'.Acyclic)
    (pair : Counterpart π s s' t t') {x : Symbol} (unbound : s.lookup x = none)
    (unbound' : s'.lookup (π x) = none) :
    CounterpartAttempt π s s' (s.bindIfAbsent x t) (s'.bindIfAbsent (π x) t') := by
  unfold Bindings.bindIfAbsent
  rw [pair.occurs_eq]
  cases absent : s.occurs x t with
  | true => exact counterpartAttempt_failed rfl rfl
  | false => exact ⟨Iff.rfl, fun _ _ _ other =>
      other.bind acyclic acyclic' unbound unbound' pair absent⟩

theorem unifyArgs_counterpart {unifyPair unifyPair' : Term → Term → Bindings → Attempt}
    (grows : ∀ t u s, Grows (fun _ => True) s (unifyPair t u s).bindings)
    (grows' : ∀ t u s, Grows (fun _ => True) s (unifyPair' t u s).bindings)
    (pair : ∀ {s s' t t' u u'}, s.Acyclic → s'.Acyclic → Counterpart π s s' t t' →
      Counterpart π s s' u u' → (unifyPair t u s).conflict ≠ some .tooDeep →
      (unifyPair' t' u' s').conflict ≠ some .tooDeep →
      CounterpartAttempt π s s' (unifyPair t u s) (unifyPair' t' u' s'))
    {ts ts' us us' : List Term} (acyclic : s.Acyclic) (acyclic' : s'.Acyclic)
    (left : List.Forall₂ (Counterpart π s s') ts ts')
    (right : List.Forall₂ (Counterpart π s s') us us')
    (notDeep : (unifyArgs unifyPair ts us s).conflict ≠ some .tooDeep)
    (notDeep' : (unifyArgs unifyPair' ts' us' s').conflict ≠ some .tooDeep) :
    CounterpartAttempt π s s' (unifyArgs unifyPair ts us s) (unifyArgs unifyPair' ts' us' s') := by
  induction ts generalizing ts' us us' s s' with
  | nil =>
    cases left
    cases right with
    | nil => exact counterpartAttempt_same π s s'
    | cons => exact counterpartAttempt_failed rfl rfl
  | cons t ts ih =>
    cases left with
    | @cons _ t' _ ts' pairT left =>
      cases right with
      | nil => exact counterpartAttempt_failed rfl rfl
      | @cons u u' us us' pairU right =>
        have first := pair acyclic acyclic' pairT pairU
        have growth := grows t u s
        have growth' := grows' t' u' s'
        rcases result : unifyPair t u s with ⟨next, _ | conflict⟩ <;>
          rcases result' : unifyPair' t' u' s' with ⟨next', _ | conflict'⟩ <;>
          rw [result, result'] at first <;> rw [result] at growth <;> rw [result'] at growth'
        · rw [unifyArgs_cons_of_none result] at notDeep ⊢
          rw [unifyArgs_cons_of_none result'] at notDeep' ⊢
          have kept := (first nofun nofun).kept rfl
          have rest := ih (growth.acyclic acyclic) (growth'.acyclic acyclic') (left.imp kept)
            (right.imp kept) notDeep notDeep'
          exact ⟨rest.success_iff, fun success v v' other =>
            rest.kept success v v' (kept v v' other)⟩
        · rw [unifyArgs_cons_of_some result'] at notDeep'
          have both := (first nofun notDeep').success_iff.1 rfl
          contradiction
        · rw [unifyArgs_cons_of_some result] at notDeep
          have both := (first notDeep nofun).success_iff.2 rfl
          contradiction
        · rw [unifyArgs_cons_of_some result, unifyArgs_cons_of_some result']
          exact counterpartAttempt_failed rfl rfl

theorem unifyWithin_counterpart {depth depth' : Nat} (acyclic : s.Acyclic) (acyclic' : s'.Acyclic)
    (left : Counterpart π s s' t t') (right : Counterpart π s s' u u')
    (notDeep : (unifyWithin depth t u s).conflict ≠ some .tooDeep)
    (notDeep' : (unifyWithin depth' t' u' s').conflict ≠ some .tooDeep) :
    CounterpartAttempt π s s' (unifyWithin depth t u s) (unifyWithin depth' t' u' s') := by
  induction depth generalizing depth' s s' t t' u u' with
  | zero => exact absurd rfl notDeep
  | succ depth ih =>
    cases depth' with
    | zero => exact absurd rfl notDeep'
    | succ depth' =>
      cases level s t u with
      | same x walkT walkU =>
        rw [unifyWithin_same depth walkT walkU,
          unifyWithin_same depth' (left.walk_eq_var acyclic acyclic' walkT)
            (right.walk_eq_var acyclic acyclic' walkU)]
        exact counterpartAttempt_same π s s'
      | left x walkT different =>
        have walkT' := left.walk_eq_var acyclic acyclic' walkT
        have different' : s'.walk u' ≠ .var (π x) := by
          intro walkU'
          apply different
          rw [right.symm.walk_eq_var acyclic' acyclic walkU', Equiv.symm_apply_apply]
        rw [unifyWithin_left depth walkT different, unifyWithin_left depth' walkT' different']
        exact (right.walk acyclic acyclic').bindIfAbsent acyclic acyclic'
          (acyclic.lookup_of_walk walkT) (acyclic'.lookup_of_walk walkT')
      | right x nonvar walkU =>
        have walkU' := right.walk_eq_var acyclic acyclic' walkU
        rw [unifyWithin_right depth nonvar walkU,
          unifyWithin_right depth' (left.isVar_walk acyclic acyclic' nonvar) walkU']
        exact (left.walk acyclic acyclic').bindIfAbsent acyclic acyclic'
          (acyclic.lookup_of_walk walkU) (acyclic'.lookup_of_walk walkU')
      | atom a walkT walkU =>
        rw [unifyWithin_atom depth walkT walkU,
          unifyWithin_atom depth' (left.walk_eq_atom acyclic acyclic' walkT)
            (right.walk_eq_atom acyclic acyclic' walkU)]
        exact counterpartAttempt_same π s s'
      | compound f ts us walkT walkU lengths =>
        obtain ⟨ts', walkT', pairsT⟩ := left.walk_eq_compound acyclic acyclic' walkT
        obtain ⟨us', walkU', pairsU⟩ := right.walk_eq_compound acyclic acyclic' walkU
        have lengths' : ts'.length = us'.length :=
          pairsT.length_eq.symm.trans (lengths.trans pairsU.length_eq)
        rw [unifyWithin_compound depth walkT walkU lengths] at notDeep ⊢
        rw [unifyWithin_compound depth' walkT' walkU' lengths'] at notDeep' ⊢
        exact unifyArgs_counterpart (unifyWithin_grows_any depth) (unifyWithin_grows_any depth') ih
          acyclic acyclic' pairsT pairsU notDeep notDeep'
      | clash nonvarT nonvarU disagree =>
        have disagree' : ¬ Agree (s'.walk t') (s'.walk u') := fun agree =>
          disagree (left.symm.agree acyclic' acyclic right.symm agree)
        rw [unifyWithin_clash depth nonvarT nonvarU disagree,
          unifyWithin_clash depth' (left.isVar_walk acyclic acyclic' nonvarT)
            (right.isVar_walk acyclic acyclic' nonvarU) disagree']
        exact counterpartAttempt_failed rfl rfl

/-- Two terms unify exactly if their counterparts do, and then all counterparts are counterparts
still. -/
theorem Counterpart.unify (acyclic : s.Acyclic) (acyclic' : s'.Acyclic)
    (left : Counterpart π s s' t t') (right : Counterpart π s s' u u') :
    ((s.unify t u).conflict = none ↔ (s'.unify t' u').conflict = none) ∧
      ((s.unify t u).conflict = none → ∀ v v', Counterpart π s s' v v' →
        Counterpart π (s.unify t u).bindings (s'.unify t' u').bindings v v') := by
  have notDeep := acyclic.unify_not_tooDeep t u
  have notDeep' := acyclic'.unify_not_tooDeep t' u'
  simp only [Bindings.unify, conflict_conclude, bindings_conclude] at notDeep notDeep' ⊢
  have attempts := unifyWithin_counterpart acyclic acyclic' left right notDeep notDeep'
  refine ⟨attempts.success_iff, fun success v v' pair => ?_⟩
  rw [success, attempts.success_iff.1 success]
  exact attempts.kept success v v' pair

end HornLogic.Bindings
