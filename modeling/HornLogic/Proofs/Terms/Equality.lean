import HornLogic.Proofs.Bindings.Cycles

/-!
# Equal terms

Two terms are compared constructor by constructor. For compounds this may be done as one expects:
the functors first, then the numbers of arguments, then the arguments pair by pair
(`sameAs_compound`). To compare terms decides whether they are equal, and a copy is equal to what it
was made from.

Unification goes through two terms in the same way, but it is about variables and bindings. If there
are no variables in the terms, it does nothing but compare them. It walks nowhere, so no matter what
the bindings are, it does not depend on them and adds nothing to them, not even on the way to a
conflict (`unify_of_isGround`).
-/

namespace HornLogic

namespace Term

variable {t : Term}

/-- Arguments are the same if there are as many on both sides and each pair is the same. -/
theorem sameAsAll_eq_all_zip (ts us : List Term) :
    sameAsAll ts us =
      (ts.length == us.length && (ts.zip us).all fun pair => pair.1.sameAs pair.2) := by
  induction ts generalizing us with
  | nil => cases us <;> simp [sameAsAll]
  | cons t ts ih =>
    cases us with
    | nil => simp [sameAsAll]
    | cons u us =>
      rw [sameAsAll, ih, List.zip_cons_cons, List.all_cons, Bool.and_left_comm]
      simp

theorem sameAs_compound (f g : Symbol) (ts us : List Term) :
    (compound f ts).sameAs (compound g us) = (f == g && (ts.length == us.length &&
      (ts.zip us).all fun pair => pair.1.sameAs pair.2)) := by
  rw [sameAs, sameAsAll_eq_all_zip]

theorem isGround_compound (functor : Symbol) (args : List Term) :
    (compound functor args).isGround = true ↔ ∀ arg ∈ args, arg.isGround = true := by
  simp [isGround_iff, occurrences_compound]

theorem isVar_of_isGround (ground : t.isGround = true) : t.isVar = false := by
  cases t with
  | var x => simp [isGround_iff] at ground
  | _ => rfl

end Term

namespace Bindings

variable {s : Bindings} {t u : Term}

/-! ## Unifying ground terms -/

theorem walk_of_isGround (s : Bindings) (ground : t.isGround = true) : s.walk t = t :=
  s.walk_of_not_var (Term.isVar_of_isGround ground)

theorem walk_ne_var_of_isGround (s : Bindings) (ground : t.isGround = true) (x : Symbol) :
    s.walk t ≠ .var x := by
  rw [s.walk_of_isGround ground]
  rintro rfl
  simp [Term.isGround_iff] at ground

theorem agree_self (notVar : t.isVar = false) : Agree t t := by
  cases t with
  | atom a => rfl
  | var x => simp [Term.isVar] at notVar
  | compound f ts => exact ⟨rfl, rfl⟩

/-- If each pair is only compared, the lists of arguments are only compared. -/
theorem unifyArgs_of_compared {unifyPair : Term → Term → Bindings → Attempt} {ts us : List Term}
    (compared : ∀ t ∈ ts, ∀ u ∈ us,
      unifyPair t u s = { bindings := s, conflict := if t = u then none else some .clash }) :
    unifyArgs unifyPair ts us s =
      { bindings := s, conflict := if ts = us then none else some .clash } := by
  induction ts generalizing us with
  | nil => cases us <;> simp [unifyArgs]
  | cons t ts ih =>
    cases us with
    | nil => simp [unifyArgs]
    | cons u us =>
      have first := compared t List.mem_cons_self u List.mem_cons_self
      have later := ih fun t inTs u inUs =>
        compared t (List.mem_cons_of_mem _ inTs) u (List.mem_cons_of_mem _ inUs)
      by_cases same : t = u
      · rw [if_pos same] at first
        rw [unifyArgs_cons_of_none first, later]
        simp [same]
      · rw [if_neg same] at first
        rw [unifyArgs_cons_of_some first]
        simp [same]

/-- Ground terms are only compared, if the depth is enough for the first one. -/
theorem unifyWithin_of_isGround {depth : Nat} (groundT : t.isGround = true)
    (groundU : u.isGround = true) (enough : t.size ≤ depth) :
    unifyWithin depth t u s =
      { bindings := s, conflict := if t = u then none else some .clash } := by
  induction depth generalizing t u with
  | zero =>
    have positive := t.size_pos
    omega
  | succ depth ih =>
    have stays := s.walk_of_isGround groundT
    have stays' := s.walk_of_isGround groundU
    cases level s t u with
    | same x walkT _ => exact absurd walkT (s.walk_ne_var_of_isGround groundT x)
    | left x walkT _ => exact absurd walkT (s.walk_ne_var_of_isGround groundT x)
    | right x _ walkU => exact absurd walkU (s.walk_ne_var_of_isGround groundU x)
    | atom a walkT walkU =>
      have same : t = u := by rw [← stays, walkT, ← stays', walkU]
      rw [unifyWithin_atom depth walkT walkU, if_pos same]
    | compound f ts us walkT walkU lengths =>
      rw [unifyWithin_compound depth walkT walkU lengths]
      obtain rfl : t = .compound f ts := stays.symm.trans walkT
      obtain rfl : u = .compound f us := stays'.symm.trans walkU
      rw [Term.isGround_compound] at groundT groundU
      have pairs : ∀ t ∈ ts, ∀ u ∈ us, unifyWithin depth t u s =
          { bindings := s, conflict := if t = u then none else some .clash } := by
        intro t inTs u inUs
        have smaller := Term.size_lt_of_mem inTs f
        exact ih (groundT t inTs) (groundU u inUs) (by omega)
      rw [unifyArgs_of_compared pairs]
      simp
    | clash left right disagree =>
      rw [unifyWithin_clash depth left right disagree, if_neg]
      rintro rfl
      exact disagree (agree_self left)

theorem size_le_unifyDepth (s : Bindings) (t u : Term) : t.size ≤ s.unifyDepth t u := by
  unfold unifyDepth
  generalize sum : t.size + u.size + s.load = m
  calc t.size ≤ m + 1 := by omega
    _ ≤ (3 * m + 1) * (m + 1) := Nat.le_mul_of_pos_left _ (Nat.succ_pos _)

/-- An attempt that has changed nothing has nothing to take back. -/
theorem conclude_unchanged (s : Bindings) (conflict : Option Conflict) :
    conclude s.mark { bindings := s, conflict } = { bindings := s, conflict, made := [] } := by
  have nothing : s.entriesSince s.mark = [] := by simp [entriesSince, mark]
  cases conflict with
  | none => simp [conclude, nothing]
  | some conflict => simp [conclude, nothing, rollback_mark]

/-- Under any bindings, ground terms unify if they are equal and clash if they are not, and no
binding is made. -/
theorem unify_of_isGround (s : Bindings) (groundT : t.isGround = true)
    (groundU : u.isGround = true) :
    s.unify t u =
      { bindings := s, conflict := if t = u then none else some .clash, made := [] } := by
  rw [unify, unifyWithin_of_isGround groundT groundU (s.size_le_unifyDepth t u)]
  exact conclude_unchanged s _

theorem noCycle_empty : empty.NoCycle :=
  Reached.empty.acyclic_iff.1 acyclic_empty

end Bindings

/-! ## Comparing, copying and unifying -/

/-- To compare two terms decides whether they are equal, and whether the first is equal to a copy of
the second. Compounds may be compared by their functors, the numbers of their arguments and then
pair by pair. And if both terms are ground, they are equal exactly if they unify under all bindings
in which no variable reaches itself and leave them as they are. Ground terms that are different
clash, under any bindings at all, and no binding is made before that. -/
theorem Term.sameAs_agrees_with_unify (a b : Term) :
    (a.sameAs b = true ↔ a = b) ∧ (a.sameAs b = true ↔ a = b.copy) ∧
    (∀ f g ts us, (compound f ts).sameAs (compound g us) =
      (f == g && (ts.length == us.length &&
        (ts.zip us).all fun pair => pair.1.sameAs pair.2))) ∧
    (a.isGround = true → b.isGround = true →
      (a.sameAs b = true ↔ ∀ s : Bindings, s.Reached Bindings.Unguarded → s.NoCycle →
        (s.unify a b).succeeded = true ∧ (s.unify a b).bindings = s) ∧
      ∀ s : Bindings, s.unify a b =
        { bindings := s, conflict := if a.sameAs b then none else some .clash, made := [] }) := by
  refine ⟨sameAs_iff a b, by rw [copy_eq, sameAs_iff], sameAs_compound, ?_⟩
  intro groundA groundB
  have unified (s : Bindings) : s.unify a b =
      { bindings := s, conflict := if a.sameAs b then none else some .clash, made := [] } := by
    simp only [sameAs_iff]
    exact s.unify_of_isGround groundA groundB
  refine ⟨?_, unified⟩
  constructor
  · intro same s _ _
    rw [unified, if_pos same]
    exact ⟨rfl, rfl⟩
  · intro unify
    -- One set of bindings is enough to tell, for instance none at all.
    obtain ⟨success, -⟩ := unify .empty .empty Bindings.noCycle_empty
    rw [unified] at success
    by_contra different
    rw [if_neg different] at success
    exact Bool.false_ne_true success

/-- The terms `f(g(), X)` and `f(g, X)`, in which `X` is an atom, are different. Bindings for the
variable `X` do not matter to them. -/
theorem Term.sameAs_agrees_with_unify_rebound :
    let a := compound "f" [.compound "g" [], .atom "X"]
    let b := compound "f" [.atom "g", .atom "X"]
    let s := Bindings.rebound
    a.isGround = true ∧ b.isGround = true ∧
      (s.unify a a).succeeded = true ∧ (s.unify a a).bindings = s ∧
      a ≠ b ∧ s.unify a b = { bindings := s, conflict := some .clash, made := [] } := by
  intro a b s
  have groundA : a.isGround = true := by decide +kernel
  have groundB : b.isGround = true := by decide +kernel
  have different : a.sameAs b = false := by decide +kernel
  obtain ⟨-, -, -, equal⟩ := sameAs_agrees_with_unify a a
  obtain ⟨iff, -, -, unequal⟩ := sameAs_agrees_with_unify a b
  obtain ⟨success, kept⟩ :=
    (equal groundA groundA).1.1 ((sameAs_iff a a).2 rfl) s Bindings.reached_rebound
      Bindings.noCycle_rebound
  have clash := (unequal groundA groundB).2 s
  rw [different] at clash
  exact ⟨groundA, groundB, success, kept, fun same => by simp [iff.2 same] at different, clash⟩

end HornLogic
