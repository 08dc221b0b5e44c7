import HornLogic.Proofs.Names.Translation
import HornLogic.Proofs.Unification.Outcome

/-!
# What a unification adds

A unification that succeeds leaves the trail as it was and adds entries to it. How the two terms are
taken apart on the way does not show in them. They bind variables that were not bound, each of them
once, so no entry is shadowed (`Adds`). Moreover each of these variables occurs in one of the two
resolved terms, and nothing is added if the two resolved terms are the same
(`unify_adds_needed`).

The last two facts hold because the bindings are most general. An assignment that solves the old
bindings and makes the terms equal solves the new bindings too. If it leaves a variable alone that
was not bound, and puts this variable in the place of no other one, then the new bindings cannot
have bound the variable (`Grows.lookup_eq_none`). For a variable that occurs in neither of the two
terms there is such an assignment, and if the terms are the same there is one for all variables.
-/

namespace HornLogic.Bindings

variable {P : Term → Prop} {s s' : Bindings}

/-! ## Entries that were added -/

/-- The second bindings are the first ones and some entries more, each for a variable that was not
bound, and no two for the same one. -/
structure Adds (s s' : Bindings) (added : List Binding) : Prop where
  trail : s'.trail.toList = s.trail.toList ++ added
  unbound : ∀ entry ∈ added, s.lookup entry.var = none
  distinct : (added.map Binding.var).Nodup
  /-- Nothing is shadowed. -/
  unshadowing : ∀ entry ∈ added, entry.shadowed = none
  found : ∀ entry ∈ added, s'.lookup entry.var = some entry.term
  kept : ∀ x t, s.lookup x = some t → s'.lookup x = some t

theorem Adds.refl (s : Bindings) : Adds s s [] where
  trail := (List.append_nil _).symm
  unbound := nofun
  distinct := .nil
  unshadowing := nofun
  found := nofun
  kept _ _ found := found

/-- The index has no position for an unbound variable. -/
theorem Indexed.index_eq_none (indexed : s.Indexed) {x : Symbol} (unbound : s.lookup x = none) :
    s.index[x]? = none := by
  cases position : s.index[x]? with
  | none => rfl
  | some i =>
    obtain ⟨entry, atPosition, -⟩ := indexed x i position
    simp [lookup, position, atPosition] at unbound

theorem Adds.bind {added : List Binding} (adds : Adds s s' added) (indexed : s'.Indexed)
    {x : Symbol} (unbound : s'.lookup x = none) (t : Term) :
    ∃ entry : Binding, Adds s (s'.bind x t) (added ++ [entry]) := by
  have different (y : Symbol) (u : Term) (found : s'.lookup y = some u) : y ≠ x := by
    rintro rfl
    simp [unbound] at found
  have keptLater (y : Symbol) (u : Term) (found : s'.lookup y = some u) :
      (s'.bind x t).lookup y = some u := by
    rw [lookup_bind indexed, if_neg (different y u found), found]
  refine ⟨{ var := x, term := t, shadowed := s'.index[x]?, load := s'.load + t.size }, ?_⟩
  constructor
  · rw [trail_bind, Array.toList_push, adds.trail, List.append_assoc]
  · rw [List.forall_mem_append, List.forall_mem_singleton]
    refine ⟨adds.unbound, ?_⟩
    cases before : s.lookup x with
    | none => rfl
    | some u => exact absurd rfl (different x u (adds.kept x u before))
  · rw [List.map_append, List.map_singleton, List.nodup_append]
    refine ⟨adds.distinct, List.nodup_singleton x, ?_⟩
    intro y member z last
    obtain ⟨entry, inAdded, rfl⟩ := List.mem_map.1 member
    obtain rfl := List.mem_singleton.1 last
    exact different _ _ (adds.found entry inAdded)
  · rw [List.forall_mem_append, List.forall_mem_singleton]
    exact ⟨adds.unshadowing, indexed.index_eq_none unbound⟩
  · rw [List.forall_mem_append, List.forall_mem_singleton]
    refine ⟨fun entry member => keptLater _ _ (adds.found entry member), ?_⟩
    rw [lookup_bind indexed, if_pos rfl]
  · exact fun y u found => keptLater y u (adds.kept y u found)

/-- Whatever unification does, it adds entries for unbound variables. -/
theorem Grows.exists_adds (grows : Grows P s s') (acyclic : s.Acyclic) :
    ∃ added, Adds s s' added := by
  induction grows with
  | refl => exact ⟨[], .refl s⟩
  | @bind s' t u x grows _ _ walked _ ih =>
    obtain ⟨added, adds⟩ := ih
    have acyclic' := grows.acyclic acyclic
    obtain ⟨entry, more⟩ := adds.bind acyclic'.indexed (acyclic'.lookup_of_walk walked) (s'.walk u)
    exact ⟨_, more⟩

/-- Where nothing was added, nothing has changed, the index included. -/
theorem Grows.eq_of_adds_nil (grows : Grows P s s') (adds : Adds s s' []) : s' = s := by
  have sizes : s'.trail.size ≤ s.mark.position := by
    have lists := congrArg List.length adds.trail
    rw [List.append_nil, Array.length_toList, Array.length_toList] at lists
    exact Nat.le_of_eq lists
  calc s'
      = s'.rollback s.mark := (Bindings.rollback_of_le sizes).symm
    _ = s := grows.rollback

/-! ## Variables that stay unbound -/

/-- To resolve first and then to replace variables is an assignment that solves the bindings. -/
theorem Acyclic.solvedBy_value_instantiate (acyclic : s.Acyclic) (τ : Symbol → Term) :
    s.SolvedBy fun y => (s.value y).instantiate τ := by
  intro x t found
  calc (s.value x).instantiate τ
      = (t.instantiate s.value).instantiate τ := by
        rw [acyclic.value_of_lookup found, resolve_eq_instantiate]
    _ = t.instantiate fun y => (s.value y).instantiate τ := Term.instantiate_instantiate _ _ t

/-- Let such an assignment solve bindings that have grown from these. A variable that was not bound
is not bound then if it is put in its own place and in no other. -/
theorem Grows.lookup_eq_none (grows : Grows P s s') (acyclic : s.Acyclic) {τ : Symbol → Term}
    (solved : s'.SolvedBy fun y => (s.value y).instantiate τ) {x : Symbol}
    (unbound : s.lookup x = none) (own : ∀ z, τ z = .var x ↔ z = x) : s'.lookup x = none := by
  obtain ⟨rank, ranks'⟩ := (grows.acyclic acyclic).ranked
  have ranks : s.Ranks rank := fun y t found => ranks' y t (grows.lookup acyclic found)
  cases found : s'.lookup x with
  | none => rfl
  | some t =>
    have equation := solved x t found
    simp only [value_of_unbound unbound, Term.instantiate_var, (own x).2 rfl] at equation
    -- The term can only be a variable, and one that has had the value `x` before. So it leads back
    -- to `x`.
    obtain ⟨y, rfl⟩ := Term.eq_var_of_instantiate_eq_var equation.symm
    rw [Term.instantiate_var] at equation
    obtain ⟨z, value⟩ := Term.eq_var_of_instantiate_eq_var equation.symm
    rw [value, Term.instantiate_var, eq_comm, own] at equation
    have lower : rank y < rank x := ranks' x _ found y (by simp)
    have notHigher : rank x ≤ rank y := by
      have leads : x ∈ (s.value y).occurrences := by simp [value, equation]
      exact ranks.le_of_mem_valueWithin leads
    omega

/-- Terms that resolve to the same unify, and nothing is added. -/
theorem Acyclic.unify_of_resolve_eq (acyclic : s.Acyclic) {t u : Term}
    (same : s.resolve t = s.resolve u) :
    (s.unify t u).conflict = none ∧ (s.unify t u).bindings = s := by
  have solved : s.SolvedBy s.value := acyclic.solvedBy_value
  have success := acyclic.unify_conflict_eq_none_iff.2 ⟨s.value, solved, same⟩
  have grows := unify_grows_any s t u
  -- What solves the bindings already solves the new ones, so it can leave all variables alone.
  have solvedNow : (s.unify t u).bindings.SolvedBy fun y => (s.value y).instantiate .var := by
    simp only [Term.instantiate_self]
    exact (acyclic.solvedBy_unify_iff success _).2 ⟨solved, same⟩
  obtain ⟨added, adds⟩ := grows.exists_adds acyclic
  have nothing : added = [] := by
    rw [List.eq_nil_iff_forall_not_mem]
    intro entry member
    have unbound := grows.lookup_eq_none acyclic solvedNow (adds.unbound entry member)
      fun z => by rw [Term.var.injEq]
    simp [adds.found entry member] at unbound
  subst nothing
  exact ⟨success, grows.eq_of_adds_nil adds⟩

/-- A variable that occurs in neither of the resolved terms is not bound by unifying them. -/
theorem Acyclic.lookup_unify_of_not_mem (acyclic : s.Acyclic) {t u : Term}
    (success : (s.unify t u).conflict = none) {x : Symbol} (unbound : s.lookup x = none)
    (absent : x ∉ Term.varsAll [s.resolve t, s.resolve u]) :
    (s.unify t u).bindings.lookup x = none := by
  have grows := unify_grows_any s t u
  have acyclic' := acyclic.bindings_unify t u
  have solutions := acyclic.solvedBy_unify_iff success
  obtain ⟨solvedBefore, equal⟩ := (solutions _).1 acyclic'.solvedBy_value
  generalize (s.unify t u).bindings = s' at grows acyclic' solutions solvedBefore equal ⊢
  cases found : s'.lookup x with
  | none => rfl
  | some v =>
    -- The variables of the two terms get their new values, and all others stay as they are.
    let τ : Symbol → Term := fun z =>
      if z ∈ Term.varsAll [s.resolve t, s.resolve u] then s'.value z else .var z
    have solved : s'.SolvedBy fun y => (s.value y).instantiate τ := by
      refine (solutions _).2 ⟨acyclic.solvedBy_value_instantiate τ, ?_⟩
      have asNow (w : Term) (listed : s.resolve w ∈ [s.resolve t, s.resolve u]) :
          w.instantiate (fun y => (s.value y).instantiate τ) = s'.resolve w := by
        calc w.instantiate (fun y => (s.value y).instantiate τ)
            = (s.resolve w).instantiate τ := (Term.instantiate_instantiate _ _ w).symm
          _ = (s.resolve w).instantiate s'.value := by
            refine Term.instantiate_congr fun z occurs => if_pos ?_
            exact Term.mem_varsAll.2 ⟨_, listed, occurs⟩
          _ = s'.resolve w := solvedBefore.instantiate_resolve w
      rw [asNow t (by simp), asNow u (by simp)]
      exact equal
    rw [← found]
    refine grows.lookup_eq_none acyclic solved unbound fun z => ?_
    by_cases listed : z ∈ Term.varsAll [s.resolve t, s.resolve u]
    · have other : s'.value z ≠ .var x := by
        intro value
        have occurs : x ∈ (s'.resolve (.var z)).occurrences := by simp [value]
        simp [acyclic'.lookup_of_mem_resolve occurs] at found
      simp only [τ, if_pos listed, other, false_iff]
      rintro rfl
      exact absent listed
    · simp only [τ, if_neg listed, Term.var.injEq]

/-! ## Nothing that is not needed -/

/-- Under bindings in which no variable reaches itself, a unification that succeeds only adds
entries, for variables that were not bound and that occur in one of the resolved terms, and no two
for the same variable. So no entry is shadowed, and there are no more new entries than these terms
have variables. There are none exactly if the terms resolved to the same before. To unify the terms
again succeeds and changes nothing. -/
theorem unify_adds_needed (reached : s.Reached Unguarded) (noCycle : s.NoCycle) {t u : Term}
    (success : (s.unify t u).succeeded = true) :
    ∃ added, Adds s (s.unify t u).bindings added ∧
      (∀ entry ∈ added, entry.var ∈ Term.varsAll [s.resolve t, s.resolve u]) ∧
      added.length ≤ (Term.varsAll [s.resolve t, s.resolve u]).length ∧
      (added = [] ↔ s.resolve t = s.resolve u) ∧
      ((s.unify t u).bindings.unify t u).succeeded = true ∧
      ((s.unify t u).bindings.unify t u).bindings = (s.unify t u).bindings := by
  have acyclic := reached.acyclic_iff.2 noCycle
  have noConflict := Unification.succeeded_iff.1 success
  have grows := unify_grows_any s t u
  have equal := (acyclic.solvedBy_value_unify noConflict).2
  have again := (acyclic.bindings_unify t u).unify_of_resolve_eq equal
  obtain ⟨added, adds⟩ := grows.exists_adds acyclic
  have among : ∀ entry ∈ added, entry.var ∈ Term.varsAll [s.resolve t, s.resolve u] := by
    intro entry member
    by_contra absent
    have free := acyclic.lookup_unify_of_not_mem noConflict (adds.unbound entry member) absent
    simp [adds.found entry member] at free
  refine ⟨added, adds, among, ?_, ?_, Unification.succeeded_iff.2 again.1, again.2⟩
  · have subset : added.map Binding.var ⊆ Term.varsAll [s.resolve t, s.resolve u] := by
      intro x member
      obtain ⟨entry, inAdded, rfl⟩ := List.mem_map.1 member
      exact among entry inAdded
    simpa using (List.subperm_of_subset adds.distinct subset).length_le
  · constructor
    · rintro rfl
      rwa [grows.eq_of_adds_nil adds] at equal
    · intro same
      have trail := adds.trail
      rw [(acyclic.unify_of_resolve_eq same).2] at trail
      simpa using trail

/-- Under bindings for `X`, one of which shadows another, `g(X, Z)` and `g(f(W), W)` unify by two
new entries, and unify again without any. -/
theorem unify_adds_needed_rebound :
    let t := Term.compound "g" [.var "X", .var "Z"]
    let u := Term.compound "g" [.compound "f" [.var "W"], .var "W"]
    (rebound.unify t u).succeeded = true ∧
      (rebound.unify t u).bindings.entries =
        rebound.entries ++ [("Y", .var "W"), ("Z", .var "W")] ∧
      ∃ added, Adds rebound (rebound.unify t u).bindings added ∧
        ((rebound.unify t u).bindings.unify t u).bindings = (rebound.unify t u).bindings := by
  intro t u
  have success : (rebound.unify t u).succeeded = true := by decide +kernel
  obtain ⟨added, adds, -, -, -, -, again⟩ :=
    unify_adds_needed reached_rebound noCycle_rebound success
  exact ⟨success, by decide +kernel, added, adds, again⟩

end HornLogic.Bindings
