import HornLogic.Proofs.Bindings.Reached
import HornLogic.Proofs.Unification.Depth
import HornLogic.Proofs.Unification.Level

/-!
# Walks come to an end

Walking, resolving, the occurs test and unification all jump from a variable to the term that it is
bound to, which may be larger than anything seen before. The definitions count links and levels down
from a bound. Here are the same four procedures without any count, as rules by which a result is
reached in finitely many steps: `Walks`, `Resolves`, `Tests` and `Unifies`. The rules say in which
order things are done, too: what follows the first argument in which the variable occurs is not
tested, and a conflict ends a unification.

Under acyclic bindings the rules lead from all terms to exactly one result, the one computed
(`Acyclic.evaluates`). The induction is along the bindings (`Acyclic.induct`). For unification it is
on the bound for the depth, which is never used up.

All bindings that a guarded history leads to are acyclic, and the guard could not be weaker
(`evaluates_of_reached`).
-/

namespace HornLogic.Bindings

/-! ## Rules without a bound -/

/-- Following bound variables from the first term ends at the second. -/
inductive Walks (s : Bindings) : Term → Term → Prop where
  | atom (name : Symbol) : Walks s (.atom name) (.atom name)
  | compound (functor : Symbol) (args : List Term) :
      Walks s (.compound functor args) (.compound functor args)
  | unbound {x : Symbol} : s.lookup x = none → Walks s (.var x) (.var x)
  | bound {x : Symbol} {t u : Term} : s.lookup x = some t → Walks s t u → Walks s (.var x) u

/-- Replacing bound variables in the first term, at any depth, ends with the second. -/
inductive Resolves (s : Bindings) : Term → Term → Prop where
  | atom {t : Term} {name : Symbol} : s.Walks t (.atom name) → Resolves s t (.atom name)
  | var {t : Term} {x : Symbol} : s.Walks t (.var x) → Resolves s t (.var x)
  | compound {t : Term} {functor : Symbol} {args values : List Term} :
      s.Walks t (.compound functor args) → List.Forall₂ (Resolves s) args values →
      Resolves s t (.compound functor values)

/-- A test of the terms one after another, up to the first that passes, ends with the answer. -/
inductive TestsAny (test : Term → Bool → Prop) : List Term → Bool → Prop where
  | nil : TestsAny test [] false
  | here {t : Term} {ts : List Term} : test t true → TestsAny test (t :: ts) true
  | later {t : Term} {ts : List Term} {answer : Bool} : test t false → TestsAny test ts answer →
      TestsAny test (t :: ts) answer

/-- Looking for `x` in the term, through bound variables, ends with the answer. -/
inductive Tests (s : Bindings) (x : Symbol) : Term → Bool → Prop where
  | atom {t : Term} {name : Symbol} : s.Walks t (.atom name) → Tests s x t false
  | var {t : Term} {y : Symbol} : s.Walks t (.var y) → Tests s x t (y == x)
  | compound {t : Term} {functor : Symbol} {args : List Term} {answer : Bool} :
      s.Walks t (.compound functor args) → TestsAny (Tests s x) args answer → Tests s x t answer

/-- Unifying two lists of arguments pair by pair, up to the first conflict, ends in the attempt. -/
inductive UnifiesArgs (unifiesPair : Term → Term → Bindings → Attempt → Prop) :
    List Term → List Term → Bindings → Attempt → Prop where
  | nil (s : Bindings) : UnifiesArgs unifiesPair [] [] s { bindings := s }
  | cons {t u : Term} {ts us : List Term} {s s' : Bindings} {attempt : Attempt} :
      unifiesPair t u s { bindings := s' } → UnifiesArgs unifiesPair ts us s' attempt →
      UnifiesArgs unifiesPair (t :: ts) (u :: us) s attempt
  | conflict {t u : Term} {ts us : List Term} {s s' : Bindings} {conflict : Conflict} :
      unifiesPair t u s { bindings := s', conflict := some conflict } →
      UnifiesArgs unifiesPair (t :: ts) (u :: us) s { bindings := s', conflict := some conflict }

/-- Unifying the terms under the bindings ends in the attempt. -/
inductive Unifies : Term → Term → Bindings → Attempt → Prop where
  | same {t u : Term} {s : Bindings} {x : Symbol} : s.Walks t (.var x) → s.Walks u (.var x) →
      Unifies t u s { bindings := s }
  | bindLeft {t u v : Term} {s : Bindings} {x : Symbol} : s.Walks t (.var x) → s.Walks u v →
      v ≠ .var x → s.Tests x v false → Unifies t u s { bindings := s.bind x v }
  | refuseLeft {t u v : Term} {s : Bindings} {x : Symbol} : s.Walks t (.var x) → s.Walks u v →
      v ≠ .var x → s.Tests x v true →
      Unifies t u s { bindings := s, conflict := some (.occurs x v) }
  /-- The right one is bound only if the left one is no variable. -/
  | bindRight {t u v : Term} {s : Bindings} {x : Symbol} : s.Walks t v → v.isVar = false →
      s.Walks u (.var x) → s.Tests x v false → Unifies t u s { bindings := s.bind x v }
  | refuseRight {t u v : Term} {s : Bindings} {x : Symbol} : s.Walks t v → v.isVar = false →
      s.Walks u (.var x) → s.Tests x v true →
      Unifies t u s { bindings := s, conflict := some (.occurs x v) }
  | atom {t u : Term} {s : Bindings} {a : Symbol} : s.Walks t (.atom a) → s.Walks u (.atom a) →
      Unifies t u s { bindings := s }
  | compound {t u : Term} {s : Bindings} {f : Symbol} {ts us : List Term} {attempt : Attempt} :
      s.Walks t (.compound f ts) → s.Walks u (.compound f us) → ts.length = us.length →
      UnifiesArgs Unifies ts us s attempt → Unifies t u s attempt
  | clash {t u v w : Term} {s : Bindings} : s.Walks t v → s.Walks u w → v.isVar = false →
      w.isVar = false → ¬ Agree v w → Unifies t u s { bindings := s, conflict := some .clash }

/-- The rules lead from all terms to one result, and it is the one computed. -/
structure Evaluates (s : Bindings) : Prop where
  walks_iff : ∀ t u, s.Walks t u ↔ u = s.walk t
  resolves_iff : ∀ t u, s.Resolves t u ↔ u = s.resolve t
  tests_iff : ∀ x t answer, s.Tests x t answer ↔ answer = s.occurs x t
  unifies_iff : ∀ t u, ∃ result, (∀ attempt, Unifies t u s attempt ↔ attempt = result) ∧
    s.unify t u = conclude s.mark result

variable {s : Bindings} {x : Symbol} {t u : Term}

/-! ## Walking -/

theorem walks_of_lookup_iff (found : s.lookup x = some t) :
    s.Walks (.var x) u ↔ s.Walks t u := by
  constructor
  · intro walks
    cases walks with
    | unbound free => simp [free] at found
    | bound found' rest =>
      obtain rfl := Option.some.inj (found.symm.trans found')
      exact rest
  · exact .bound found

theorem Acyclic.walks (acyclic : s.Acyclic) (t : Term) : s.Walks t (s.walk t) := by
  induction t using acyclic.induct with
  | atom name =>
    rw [walk_atom]
    exact .atom name
  | compound functor args _ =>
    rw [walk_compound]
    exact .compound functor args
  | unbound x free =>
    rw [walk, walkWithin_of_unbound free]
    exact .unbound free
  | bound x t found ih =>
    rw [acyclic.walk_of_lookup found]
    exact .bound found ih

theorem Walks.unique {v : Term} (walks : s.Walks t u) (other : s.Walks t v) : u = v := by
  induction walks with
  | atom name =>
    cases other
    rfl
  | compound functor args =>
    cases other
    rfl
  | unbound free =>
    cases other with
    | unbound _ => rfl
    | bound found _ => simp [free] at found
  | bound found _ ih => exact ih ((walks_of_lookup_iff found).1 other)

theorem Acyclic.walk_eq (acyclic : s.Acyclic) (walks : s.Walks t u) : s.walk t = u :=
  (acyclic.walks t).unique walks

/-! ## Resolving -/

/-- What a term resolves to depends on what it walks to. -/
theorem Resolves.of_walks {t' : Term} (same : ∀ v, s.Walks t v → s.Walks t' v)
    (resolves : s.Resolves t u) : s.Resolves t' u := by
  cases resolves with
  | atom walks => exact .atom (same _ walks)
  | var walks => exact .var (same _ walks)
  | compound walks args => exact .compound (same _ walks) args

theorem resolves_of_lookup_iff (found : s.lookup x = some t) :
    s.Resolves (.var x) u ↔ s.Resolves t u := by
  constructor
  · exact Resolves.of_walks fun v => (walks_of_lookup_iff found).1
  · exact Resolves.of_walks fun v => (walks_of_lookup_iff found).2

theorem Acyclic.resolves (acyclic : s.Acyclic) (t : Term) : s.Resolves t (s.resolve t) := by
  induction t using acyclic.induct with
  | atom name =>
    rw [resolve_atom]
    exact .atom (.atom name)
  | unbound x free =>
    rw [resolve_var, value_of_unbound free]
    exact .var (.unbound free)
  | bound x t found ih =>
    rw [resolve_var, acyclic.value_of_lookup found]
    exact (resolves_of_lookup_iff found).2 ih
  | compound functor args ih =>
    rw [resolve_compound]
    apply Resolves.compound (.compound functor args)
    rw [List.forall₂_map_right_iff, List.forall₂_same]
    exact ih

theorem eq_map_of_forall₂ {results : Term → Term → Prop} {f : Term → Term} {ts us : List Term}
    (related : List.Forall₂ results ts us) (each : ∀ t ∈ ts, ∀ u, results t u → u = f t) :
    us = ts.map f := by
  induction related with
  | nil => rfl
  | cons first _ ih =>
    rw [List.map_cons, each _ List.mem_cons_self _ first]
    rw [ih fun t member => each t (List.mem_cons_of_mem _ member)]

theorem Acyclic.eq_resolve (acyclic : s.Acyclic) (resolves : s.Resolves t u) :
    u = s.resolve t := by
  induction t using acyclic.induct generalizing u with
  | bound x t found ih =>
    rw [resolve_var, acyclic.value_of_lookup found]
    exact ih ((resolves_of_lookup_iff found).1 resolves)
  | atom name =>
    cases resolves with
    | atom walks =>
      cases walks
      rw [resolve_atom]
    | var walks => cases walks
    | compound walks _ => cases walks
  | unbound x free =>
    cases resolves with
    | atom walks => cases (Walks.unbound free).unique walks
    | var walks =>
      rw [← (Walks.unbound free).unique walks, resolve_var, value_of_unbound free]
    | compound walks _ => cases (Walks.unbound free).unique walks
  | compound functor args ih =>
    cases resolves with
    | atom walks => cases walks
    | var walks => cases walks
    | compound walks values =>
      cases walks
      rw [resolve_compound, eq_map_of_forall₂ values fun t member u => ih t member]

/-! ## The occurs test -/

@[simp] theorem occurs_atom (s : Bindings) (x name : Symbol) :
    s.occurs x (.atom name) = false := by
  simp [occurs, Term.anyVar]

theorem occurs_compound (s : Bindings) (x functor : Symbol) (args : List Term) :
    s.occurs x (.compound functor args) = args.any (s.occurs x) := by
  rw [occurs, Term.anyVar, Term.anyVarAll_eq_any]
  rfl

theorem occurs_of_unbound {y : Symbol} (free : s.lookup y = none) :
    s.occurs x (.var y) = (y == x) := by
  rw [Bool.eq_iff_iff, occurs_iff, resolve_var, value_of_unbound free]
  simp only [Term.occurrences, List.mem_singleton, beq_iff_eq]
  exact eq_comm

theorem Acyclic.occurs_of_lookup (acyclic : s.Acyclic) {y : Symbol} (found : s.lookup y = some t) :
    s.occurs x (.var y) = s.occurs x t := by
  rw [Bool.eq_iff_iff, occurs_iff, occurs_iff, resolve_var, acyclic.value_of_lookup found]

/-- The answer for a term depends on what it walks to. -/
theorem Tests.of_walks {t' : Term} {answer : Bool} (same : ∀ v, s.Walks t v → s.Walks t' v)
    (tests : s.Tests x t answer) : s.Tests x t' answer := by
  cases tests with
  | atom walks => exact .atom (same _ walks)
  | var walks => exact .var (same _ walks)
  | compound walks args => exact .compound (same _ walks) args

theorem tests_of_lookup_iff {y : Symbol} {answer : Bool} (found : s.lookup y = some t) :
    s.Tests x (.var y) answer ↔ s.Tests x t answer := by
  constructor
  · exact Tests.of_walks fun v => (walks_of_lookup_iff found).1
  · exact Tests.of_walks fun v => (walks_of_lookup_iff found).2

/-- Testing terms one after another finds out whether any passes, if each test has its answer. -/
theorem testsAny_iff {test : Term → Bool → Prop} {passes : Term → Bool} {ts : List Term}
    (each : ∀ t ∈ ts, ∀ answer, test t answer ↔ answer = passes t) (answer : Bool) :
    TestsAny test ts answer ↔ answer = ts.any passes := by
  induction ts generalizing answer with
  | nil =>
    constructor
    · rintro ⟨⟩
      rfl
    · rintro rfl
      exact .nil
  | cons t ts ih =>
    have first := each t List.mem_cons_self
    have rest := ih fun u member => each u (List.mem_cons_of_mem _ member)
    rw [List.any_cons]
    constructor
    · intro tests
      cases tests with
      | here passed => simp [← (first true).1 passed]
      | later failed later => simp [← (first false).1 failed, ← (rest _).1 later]
    · rintro rfl
      cases passed : passes t with
      | true => exact .here ((first true).2 passed.symm)
      | false =>
        rw [Bool.false_or]
        exact .later ((first false).2 passed.symm) ((rest _).2 rfl)

theorem Acyclic.tests_iff (acyclic : s.Acyclic) (x : Symbol) (t : Term) (answer : Bool) :
    s.Tests x t answer ↔ answer = s.occurs x t := by
  induction t using acyclic.induct generalizing answer with
  | atom name =>
    rw [occurs_atom]
    constructor
    · rintro (walks | walks | walks) <;> cases walks
      rfl
    · rintro rfl
      exact .atom (.atom name)
  | unbound y free =>
    rw [occurs_of_unbound free]
    constructor
    · rintro (walks | walks | walks) <;> cases (Walks.unbound free).unique walks
      rfl
    · rintro rfl
      exact .var (.unbound free)
  | bound y t found ih => rw [tests_of_lookup_iff found, ih, acyclic.occurs_of_lookup found]
  | compound functor args ih =>
    rw [occurs_compound, ← testsAny_iff ih]
    constructor
    · rintro (walks | walks | ⟨walks, args⟩) <;> cases walks
      exact args
    · exact .compound (.compound functor args)

/-! ## Unification -/

/-- Arguments are unified without a bound if no pair of them uses up the bound. -/
theorem unifiesArgs_iff {unifiesPair : Term → Term → Bindings → Attempt → Prop}
    {unifyPair : Term → Term → Bindings → Attempt}
    (grows : ∀ t u s, Grows (fun _ => True) s (unifyPair t u s).bindings)
    (pair : ∀ t u s, s.Acyclic → (unifyPair t u s).conflict ≠ some .tooDeep →
      ∀ attempt, unifiesPair t u s attempt ↔ attempt = unifyPair t u s)
    {ts us : List Term} (lengths : ts.length = us.length) (acyclic : s.Acyclic)
    (inBound : (unifyArgs unifyPair ts us s).conflict ≠ some .tooDeep) (attempt : Attempt) :
    UnifiesArgs unifiesPair ts us s attempt ↔ attempt = unifyArgs unifyPair ts us s := by
  induction ts generalizing us s with
  | nil =>
    obtain rfl : us = [] := List.eq_nil_of_length_eq_zero lengths.symm
    constructor
    · rintro ⟨⟩
      rfl
    · rintro rfl
      exact .nil s
  | cons t ts ih =>
    obtain ⟨u, us, rfl⟩ := List.exists_cons_of_length_eq_add_one lengths.symm
    have first := pair t u s acyclic
    have growsFirst := grows t u s
    rcases result : unifyPair t u s with ⟨s', _ | conflict⟩
    · rw [result] at first growsFirst
      rw [unifyArgs_cons_of_none result] at inBound ⊢
      have rest := ih (by simpa using lengths) (growsFirst.acyclic acyclic) inBound
      have only := first (by simp)
      constructor
      · intro unifies
        cases unifies with
        | cons unified later =>
          obtain ⟨rfl, -⟩ := Attempt.mk.inj ((only _).1 unified)
          exact rest.1 later
        | conflict failed => simpa using (only _).1 failed
      · intro last
        exact .cons ((only _).2 rfl) (rest.2 last)
    · rw [result] at first
      rw [unifyArgs_cons_of_some result] at inBound ⊢
      have only := first inBound
      constructor
      · intro unifies
        cases unifies with
        | cons unified _ => simpa using (only _).1 unified
        | conflict failed => exact (only _).1 failed
      · rintro rfl
        exact .conflict ((only _).2 rfl)

section Unifies

variable {depth : Nat} {attempt : Attempt}
  (args : ∀ {ts us : List Term}, ts.length = us.length →
    unifyWithin (depth + 1) t u s = unifyArgs (unifyWithin depth) ts us s →
    ∀ attempt, UnifiesArgs Unifies ts us s attempt ↔
      attempt = unifyArgs (unifyWithin depth) ts us s)
include args

/-- The rules end in nothing but what one level computes, if they do so for arguments. -/
theorem Acyclic.eq_unifyWithin_of_unifies (acyclic : s.Acyclic)
    (unifies : Unifies t u s attempt) : attempt = unifyWithin (depth + 1) t u s := by
  cases unifies with
  | same walksT walksU =>
    rw [unifyWithin_same depth (acyclic.walk_eq walksT) (acyclic.walk_eq walksU)]
  | atom walksT walksU =>
    rw [unifyWithin_atom depth (acyclic.walk_eq walksT) (acyclic.walk_eq walksU)]
  | compound walksT walksU lengths unified =>
    have level := unifyWithin_compound depth (acyclic.walk_eq walksT) (acyclic.walk_eq walksU)
      lengths
    rw [level]
    exact (args lengths level _).1 unified
  | clash walksT walksU left right disagree =>
    obtain rfl := acyclic.walk_eq walksT
    obtain rfl := acyclic.walk_eq walksU
    rw [unifyWithin_clash depth left right disagree]
  | bindLeft walksT walksU different absent =>
    obtain rfl := acyclic.walk_eq walksU
    rw [unifyWithin_left depth (acyclic.walk_eq walksT) different]
    simp [bindIfAbsent, ← (acyclic.tests_iff _ _ _).1 absent]
  | refuseLeft walksT walksU different present =>
    obtain rfl := acyclic.walk_eq walksU
    rw [unifyWithin_left depth (acyclic.walk_eq walksT) different]
    simp [bindIfAbsent, ← (acyclic.tests_iff _ _ _).1 present]
  | bindRight walksT nonvar walksU absent =>
    obtain rfl := acyclic.walk_eq walksT
    rw [unifyWithin_right depth nonvar (acyclic.walk_eq walksU)]
    simp [bindIfAbsent, ← (acyclic.tests_iff _ _ _).1 absent]
  | refuseRight walksT nonvar walksU present =>
    obtain rfl := acyclic.walk_eq walksT
    rw [unifyWithin_right depth nonvar (acyclic.walk_eq walksU)]
    simp [bindIfAbsent, ← (acyclic.tests_iff _ _ _).1 present]

/-- The rules do end in what one level computes, if they do so for arguments. -/
theorem Acyclic.unifies_unifyWithin (acyclic : s.Acyclic) :
    Unifies t u s (unifyWithin (depth + 1) t u s) := by
  have walksT := acyclic.walks t
  have walksU := acyclic.walks u
  have tests := acyclic.tests_iff
  cases level s t u with
  | same x walkT walkU =>
    rw [unifyWithin_same depth walkT walkU]
    exact .same (walkT ▸ walksT) (walkU ▸ walksU)
  | left x walkT different =>
    rw [unifyWithin_left depth walkT different, bindIfAbsent]
    rw [walkT] at walksT
    cases answer : s.occurs x (s.walk u) with
    | true => exact .refuseLeft walksT walksU different ((tests _ _ _).2 answer.symm)
    | false => exact .bindLeft walksT walksU different ((tests _ _ _).2 answer.symm)
  | right x nonvar walkU =>
    rw [unifyWithin_right depth nonvar walkU, bindIfAbsent]
    rw [walkU] at walksU
    cases answer : s.occurs x (s.walk t) with
    | true => exact .refuseRight walksT nonvar walksU ((tests _ _ _).2 answer.symm)
    | false => exact .bindRight walksT nonvar walksU ((tests _ _ _).2 answer.symm)
  | atom a walkT walkU =>
    rw [unifyWithin_atom depth walkT walkU]
    exact .atom (walkT ▸ walksT) (walkU ▸ walksU)
  | compound f ts us walkT walkU lengths =>
    have computed := unifyWithin_compound depth walkT walkU lengths
    rw [computed]
    exact .compound (walkT ▸ walksT) (walkU ▸ walksU) lengths ((args lengths computed _).2 rfl)
  | clash left right disagree =>
    rw [unifyWithin_clash depth left right disagree]
    exact .clash walksT walksU left right disagree

end Unifies

/-- The rules end in what is computed, and in nothing else, unless the bound is used up. -/
theorem unifies_iff_eq_unifyWithin (depth : Nat) (t u : Term) (acyclic : s.Acyclic)
    (inBound : (unifyWithin depth t u s).conflict ≠ some .tooDeep) (attempt : Attempt) :
    Unifies t u s attempt ↔ attempt = unifyWithin depth t u s := by
  induction depth generalizing t u s attempt with
  | zero => exact absurd rfl inBound
  | succ depth ih =>
    have args {ts us : List Term} (lengths : ts.length = us.length)
        (level : unifyWithin (depth + 1) t u s = unifyArgs (unifyWithin depth) ts us s)
        (attempt : Attempt) :
        UnifiesArgs Unifies ts us s attempt ↔
          attempt = unifyArgs (unifyWithin depth) ts us s := by
      rw [level] at inBound
      exact unifiesArgs_iff (unifyWithin_grows_any depth)
        (fun t u s acyclic inBound => ih t u acyclic inBound) lengths acyclic inBound attempt
    constructor
    · exact acyclic.eq_unifyWithin_of_unifies args
    · rintro rfl
      exact acyclic.unifies_unifyWithin args

/-! ## All guarded histories -/

/-- Under acyclic bindings the rules lead from all terms to what is computed. -/
theorem Acyclic.evaluates (acyclic : s.Acyclic) : s.Evaluates where
  walks_iff t u := by
    constructor
    · exact fun walks => (acyclic.walk_eq walks).symm
    · rintro rfl
      exact acyclic.walks t
  resolves_iff t u := by
    constructor
    · exact acyclic.eq_resolve
    · rintro rfl
      exact acyclic.resolves t
  tests_iff := acyclic.tests_iff
  unifies_iff t u := by
    have inBound := acyclic.unify_not_tooDeep t u
    rw [unify, conflict_conclude] at inBound
    exact ⟨_, unifies_iff_eq_unifyWithin _ t u acyclic inBound, rfl⟩

/-- Bindings reached by unifying, by going back to any mark and by guarded binding have a rank that
falls from each bound variable to the variables of its term, and all procedures on them come to an
end. The guard is exact: of bindings with a rank, whatever their history, binding an unbound
variable to a term leaves a rank if and only if the variable does not occur in the term. -/
theorem evaluates_of_reached :
    (∀ s : Bindings, s.Reached Guard → (∃ rank, s.Ranks rank) ∧ s.Evaluates) ∧
    ∀ s : Bindings, s.Reached Unguarded → (∃ rank, s.Ranks rank) →
      ∀ x t, s.lookup x = none → ((∃ rank, (s.bind x t).Ranks rank) ↔ s.occurs x t = false) := by
  constructor
  · intro s reached
    exact ⟨reached.acyclic.ranked, reached.acyclic.evaluates⟩
  · intro s reached ranked x t unbound
    exact (reached.acyclic_of_ranks ranked).ranks_bind_iff unbound

/-- Once `Y` is unified with `f(X)`, everything comes to an end. To bind `X` to `Y` by hand would
then close a cycle, and the occurs test says so. -/
theorem evaluates_of_reached_f :
    let s := (empty.unify (.var "Y") (.compound "f" [.var "X"])).bindings
    s.lookup "Y" = some (.compound "f" [.var "X"]) ∧ s.Evaluates ∧
      ¬ ∃ rank, (s.bind "X" (.var "Y")).Ranks rank := by
  intro s
  have bound : s.lookup "Y" = some (.compound "f" [.var "X"]) := by decide +kernel
  have unbound : s.lookup "X" = none := by decide +kernel
  have occurs : s.occurs "X" (.var "Y") = true := by decide +kernel
  obtain ⟨ranked, evaluates⟩ := evaluates_of_reached.1 s (.unify _ _ .empty)
  refine ⟨bound, evaluates, ?_⟩
  intro cyclic
  have absent :=
    (evaluates_of_reached.2 s (.unify _ _ .empty) ranked "X" (.var "Y") unbound).1 cyclic
  simp [occurs] at absent

end HornLogic.Bindings
