import Mathlib.Tactic.Ring
import HornLogic.Proofs.Unification.MostGeneral

/-!
# Unification is never too deep

Under acyclic bindings an attempt to unify never uses up its bound on the depth, so a conflict
always means that the terms have no common instance (`Acyclic.instantiate_ne_of_conflict`).

An attempt that goes `depth` levels down has walked to a compound on each level. So the bindings
made until then resolve the term to one of at least this height (`height_of_tooDeep`). The height
of a resolved term in turn is bounded. It is made up of the term and at most one term of the trail
for each entry, and there are not many entries, because each new one binds a variable that was not
bound before (`Grows.size_add_card_le`).
-/

namespace HornLogic

namespace Term

mutual

/-- How deep compounds are nested in the term. -/
def height : Term → Nat
  | .atom _ => 0
  | .var _ => 0
  | .compound _ args => heightAll args + 1

def heightAll : List Term → Nat
  | [] => 0
  | t :: ts => max t.height (heightAll ts)

end

theorem heightAll_le_iff {ts : List Term} {bound : Nat} :
    heightAll ts ≤ bound ↔ ∀ t ∈ ts, t.height ≤ bound := by
  induction ts with
  | nil => simp [heightAll]
  | cons t ts ih => simp [heightAll, ih]

theorem height_lt_of_mem {t : Term} {args : List Term} (member : t ∈ args) (functor : Symbol) :
    t.height < (compound functor args).height :=
  Nat.lt_succ_of_le (heightAll_le_iff.1 (Nat.le_refl _) t member)

/-- An instance is higher than the term by no more than the values of its variables are high. -/
theorem height_instantiate_le {σ : Symbol → Term} {bound : Nat} {t : Term}
    (values : ∀ x ∈ t.occurrences, (σ x).height ≤ bound) :
    (t.instantiate σ).height ≤ t.height + bound := by
  induction t with
  | atom name => simp [height]
  | var name => simpa [height] using values
  | compound functor args ih =>
    have inArgs : heightAll (args.map (instantiate σ)) ≤ heightAll args + bound := by
      rw [heightAll_le_iff]
      intro u member
      obtain ⟨arg, inList, rfl⟩ := List.mem_map.1 member
      have inArg := ih arg inList fun x occurs =>
        values x (mem_occurrences_of_mem_args inList occurs)
      have atMost := heightAll_le_iff.1 (Nat.le_refl (heightAll args)) arg inList
      omega
    rw [instantiate_compound, height, height]
    omega

theorem height_le_size (t : Term) : t.height ≤ t.size := by
  induction t with
  | atom name => simp [height]
  | var name => simp [height]
  | compound functor args ih =>
    have inArgs : heightAll args ≤ sizeAll args := by
      rw [heightAll_le_iff]
      exact fun arg member => Nat.le_trans (ih arg member) (size_le_sizeAll member)
    rw [height, size]
    omega

theorem length_occurrences_le (t : Term) : t.occurrences.length ≤ t.size := by
  induction t with
  | atom name => simp
  | var name => simp [occurrences, size]
  | compound functor args ih =>
    have inArgs : (args.flatMap occurrences).length ≤ sizeAll args := by
      induction args with
      | nil => simp
      | cons arg args tail =>
        have first := ih arg (by simp)
        have later := tail fun u member => ih u (by simp [member])
        rw [List.flatMap_cons, List.length_append, sizeAll]
        omega
    rw [occurrences_compound, size]
    omega

end Term

namespace Bindings

variable {s s' : Bindings}

/-! ## The height of a resolved term -/

/-- Every link of a chain adds the height of at most one term of the trail. -/
theorem height_valueWithin_le {bound : Nat} (low : s.All fun t => t.height ≤ bound) (links : Nat)
    (x : Symbol) : (s.valueWithin links x).height ≤ links * bound := by
  induction links generalizing x with
  | zero => simp [valueWithin, Term.height]
  | succ links ih =>
    cases found : s.lookup x with
    | none => simp [valueWithin, found, Term.height]
    | some t =>
      have term : t.height ≤ bound := low.lookup found
      have instantiated := Term.height_instantiate_le (t := t) fun y _ => ih y
      simp only [valueWithin, found]
      rw [Nat.succ_mul]
      omega

theorem height_resolve_le {bound : Nat} (low : s.All fun t => t.height ≤ bound) (t : Term) :
    (s.resolve t).height ≤ t.height + s.size * bound :=
  Term.height_instantiate_le fun x _ => height_valueWithin_le low s.size x

/-- Bindings grown from `s` resolve a term and what it walks to under `s` to the same. -/
theorem Grows.resolve_walk {P : Term → Prop} (grows : Grows P s s') (acyclic : s.Acyclic)
    (t : Term) : s'.resolve (s.walk t) = s'.resolve t := by
  have solved := grows.solvedBy acyclic (grows.acyclic acyclic).solvedBy_value
  exact solved.instantiate_walk t

/-! ## An attempt that is too deep -/

/-- If the attempt on some pair of arguments is too deep, the bindings that it leaves resolve one
of the left arguments to a term of at least this height. -/
theorem exists_height_of_unifyArgs {unifyPair : Term → Term → Bindings → Attempt} {depth : Nat}
    (grows : ∀ t u s, Grows (fun _ => True) s (unifyPair t u s).bindings)
    (pair : ∀ t u s, s.Acyclic → (unifyPair t u s).conflict = some .tooDeep →
      depth ≤ ((unifyPair t u s).bindings.resolve t).height)
    {ts us : List Term} (acyclic : s.Acyclic)
    (deep : (unifyArgs unifyPair ts us s).conflict = some .tooDeep) :
    ∃ t ∈ ts, depth ≤ ((unifyArgs unifyPair ts us s).bindings.resolve t).height := by
  induction ts generalizing us s with
  | nil => cases us <;> simp [unifyArgs] at deep
  | cons t ts ih =>
    cases us with
    | nil => simp [unifyArgs] at deep
    | cons u us =>
      have first := pair t u s acyclic
      have growsFirst := grows t u s
      rcases result : unifyPair t u s with ⟨s', _ | conflict⟩
      · rw [result] at growsFirst
        rw [unifyArgs_cons_of_none result] at deep ⊢
        obtain ⟨v, member, high⟩ := ih (growsFirst.acyclic acyclic) deep
        exact ⟨v, List.mem_cons_of_mem _ member, high⟩
      · rw [result] at first
        rw [unifyArgs_cons_of_some result] at deep ⊢
        exact ⟨t, List.mem_cons_self, first deep⟩

/-- An attempt that uses up its depth leaves bindings that resolve the term to one that is as
high. -/
theorem height_of_tooDeep (depth : Nat) (t u : Term) (acyclic : s.Acyclic)
    (deep : (unifyWithin depth t u s).conflict = some .tooDeep) :
    depth ≤ ((unifyWithin depth t u s).bindings.resolve t).height := by
  induction depth generalizing t u s with
  | zero => exact Nat.zero_le _
  | succ depth ih =>
    have grows := unifyWithin_grows_any (depth + 1) t u s
    rw [← grows.resolve_walk acyclic]
    have step := unifyStep_unifyWithin depth t u s
    generalize unifyWithin (depth + 1) t u s = attempt at step deep ⊢
    cases step with
    | same => simp at deep
    | atom => simp at deep
    | clash => simp at deep
    | refuse => simp at deep
    | bind => simp at deep
    | compound f ts us walkT _ _ =>
      -- Only arguments can be too deep, and the compound is higher than each of them.
      obtain ⟨arg, member, high⟩ := exists_height_of_unifyArgs (unifyWithin_grows_any depth)
        (fun t u s acyclic deep => ih t u acyclic deep) acyclic deep
      rw [walkT, resolve_compound]
      exact Nat.lt_of_le_of_lt high (Term.height_lt_of_mem (List.mem_map_of_mem member) f)

/-! ## The number of new entries -/

/-- The terms that unification can meet: not too high, and with variables of a finite set. -/
def Confined (bound : Nat) (vars : Finset Symbol) (t : Term) : Prop :=
  t.height ≤ bound ∧ ∀ x ∈ t.occurrences, x ∈ vars

theorem Confined.arg {bound : Nat} {vars : Finset Symbol} (f : Symbol) (args : List Term)
    (confined : Confined bound vars (.compound f args)) (arg : Term) (member : arg ∈ args) :
    Confined bound vars arg := by
  refine ⟨?_, fun x occurs => confined.2 x (Term.mem_occurrences_of_mem_args member occurs)⟩
  have lower := Term.height_lt_of_mem member f
  have atMost := confined.1
  omega

def unboundAmong (s : Bindings) (vars : Finset Symbol) : Finset Symbol :=
  {x ∈ vars | s.lookup x = none}

/-- Every new entry uses up a variable that was not bound. -/
theorem Grows.size_add_card_le {bound : Nat} {vars : Finset Symbol}
    (grows : Grows (Confined bound vars) s s') (acyclic : s.Acyclic)
    (all : s.All (Confined bound vars)) :
    s'.size + (s'.unboundAmong vars).card ≤ s.size + (s.unboundAmong vars).card := by
  induction grows with
  | refl => exact Nat.le_refl _
  | @bind s' t u x grows left _ walked _ ih =>
    have acyclic' := grows.acyclic acyclic
    have confined := (grows.all all).walk left
    rw [walked] at confined
    have member : x ∈ s'.unboundAmong vars := by
      rw [unboundAmong, Finset.mem_filter]
      exact ⟨confined.2 x (by simp), acyclic'.lookup_of_walk walked⟩
    -- The variable that is bound is the only one that stops being unbound.
    have erased : (s'.bind x (s'.walk u)).unboundAmong vars = (s'.unboundAmong vars).erase x := by
      ext y
      simp only [unboundAmong, Finset.mem_filter, Finset.mem_erase, lookup_bind acyclic'.indexed]
      by_cases same : y = x <;> simp [same]
    have positive : 0 < (s'.unboundAmong vars).card := Finset.card_pos.2 ⟨x, member⟩
    rw [size_bind, erased, Finset.card_erase_of_mem member]
    omega

/-- The variables of the trail and of the terms on it. -/
def trailOccurrences (s : Bindings) : List Symbol :=
  s.trail.toList.flatMap fun entry => entry.var :: entry.term.occurrences

theorem Loaded.length_trailOccurrences_le (loaded : s.Loaded) :
    s.trailOccurrences.length ≤ s.size + s.load := by
  rw [loaded, size, trailOccurrences, ← Array.length_toList]
  induction s.trail.toList with
  | nil => exact Nat.le_refl _
  | cons entry entries ih =>
    have first := entry.term.length_occurrences_le
    simp only [List.flatMap_cons, List.length_append, List.length_cons, List.map_cons,
      List.sum_cons]
    omega

/-- The number of symbols in two terms and on the trail. -/
def weight (s : Bindings) (t u : Term) : Nat := t.size + u.size + s.load

/-- The variables of two terms and of the trail. -/
def varsWith (s : Bindings) (t u : Term) : Finset Symbol :=
  (t.occurrences ++ u.occurrences ++ s.trailOccurrences).toFinset

variable (t u : Term)

theorem confined_left : Confined (s.weight t u) (s.varsWith t u) t := by
  have height := t.height_le_size
  refine ⟨by unfold weight; omega, fun x occurs => ?_⟩
  simp [varsWith, occurs]

theorem confined_right : Confined (s.weight t u) (s.varsWith t u) u := by
  have height := u.height_le_size
  refine ⟨by unfold weight; omega, fun x occurs => ?_⟩
  simp [varsWith, occurs]

theorem Loaded.all_confined (loaded : s.Loaded) :
    s.All (Confined (s.weight t u) (s.varsWith t u)) := by
  intro entry member
  have size := loaded.size_le member
  have height := entry.term.height_le_size
  have inTrail (x : Symbol) (occurs : x ∈ entry.var :: entry.term.occurrences) :
      x ∈ s.varsWith t u :=
    List.mem_toFinset.2 (List.mem_append_right _
      (List.mem_flatMap.2 ⟨entry, Array.mem_toList_iff.2 member, occurs⟩))
  refine ⟨⟨by simp [Term.height], ?_⟩, ⟨by unfold weight; omega, ?_⟩⟩
  · intro x occurs
    apply inTrail x
    simpa using Or.inl occurs
  · intro x occurs
    exact inTrail x (List.mem_cons_of_mem _ occurs)

theorem Loaded.card_unboundAmong_le (loaded : s.Loaded) :
    (s.unboundAmong (s.varsWith t u)).card ≤ 2 * s.weight t u := by
  have filtered : (s.unboundAmong (s.varsWith t u)).card ≤ (s.varsWith t u).card :=
    Finset.card_filter_le _ _
  have listed : (s.varsWith t u).card ≤ _ := List.toFinset_card_le _
  have lengthT := t.length_occurrences_le
  have lengthU := u.length_occurrences_le
  have lengthS := loaded.length_trailOccurrences_le
  have entries := loaded.length_le
  simp only [List.length_append] at listed
  unfold weight
  omega

/-- Under acyclic bindings the bound on the depth is never used up. -/
theorem Acyclic.unify_not_tooDeep (acyclic : s.Acyclic) :
    (s.unify t u).conflict ≠ some .tooDeep := by
  intro deep
  rw [unify, conflict_conclude] at deep
  have all := acyclic.loaded.all_confined t u
  have grows := unifyWithin_grows Confined.arg (s.unifyDepth t u) (s.confined_left t u)
    (s.confined_right t u) all
  -- An attempt that is too deep needs a term as high as the bound, but terms resolve to lower ones.
  have high := height_of_tooDeep (s.unifyDepth t u) t u acyclic deep
  generalize (unifyWithin (s.unifyDepth t u) t u s).bindings = s' at grows high
  have low := height_resolve_le ((grows.all all).imp fun _ confined => confined.1) t
  have height : t.height ≤ s.weight t u := (s.confined_left t u).1
  -- There are at most as many entries as there were, and one more for each unbound variable.
  have count := grows.size_add_card_le acyclic all
  have unbound := acyclic.loaded.card_unboundAmong_le t u
  have entries : s.size ≤ s.weight t u := by
    have := acyclic.loaded.length_le
    unfold weight
    omega
  have product : s'.size * s.weight t u ≤ 3 * s.weight t u * s.weight t u :=
    Nat.mul_le_mul_right _ (by omega)
  have depth : s.unifyDepth t u = 3 * s.weight t u * s.weight t u + 4 * s.weight t u + 1 := by
    show (3 * s.weight t u + 1) * (s.weight t u + 1) = _
    ring
  omega

/-- Under acyclic bindings two terms that do not unify have no common instance among the
solutions. -/
theorem Acyclic.instantiate_ne_of_conflict (acyclic : s.Acyclic) {t u : Term} {conflict : Conflict}
    (failed : (s.unify t u).conflict = some conflict) {θ : Symbol → Term} (solved : s.SolvedBy θ) :
    t.instantiate θ ≠ u.instantiate θ := by
  have real : conflict ≠ .tooDeep := by
    rintro rfl
    exact acyclic.unify_not_tooDeep _ _ failed
  rw [unify, conflict_conclude] at failed
  exact (unifyWithin_decides _ t u acyclic).unsolvable conflict failed real θ solved

/-- Two terms unify exactly if some solution of the bindings makes them equal. -/
theorem Acyclic.unify_conflict_eq_none_iff (acyclic : s.Acyclic) {t u : Term} :
    (s.unify t u).conflict = none ↔ ∃ θ, s.SolvedBy θ ∧ t.instantiate θ = u.instantiate θ := by
  constructor
  · intro success
    exact ⟨_, acyclic.solvedBy_value_unify success⟩
  · rintro ⟨θ, solved, equal⟩
    cases outcome : (s.unify t u).conflict with
    | none => rfl
    | some conflict => exact absurd equal (acyclic.instantiate_ne_of_conflict outcome solved)

end Bindings

end HornLogic
