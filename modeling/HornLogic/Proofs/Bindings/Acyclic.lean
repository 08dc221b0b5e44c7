import Mathlib.Data.Finset.Card
import Mathlib.Data.Finset.Dedup
import HornLogic.Proofs.Bindings.Trail

/-!
# Acyclic bindings

A walk may go from a variable to a term that is larger than anything seen before, so neither the
structure of terms nor their size bounds it. What bounds it is a rank on variables that falls from
each bound variable to the variables of its term (`Ranks`). Bindings with such a rank are
*acyclic*.

The rank may be any numbers at all. Counting for each bound variable the bound variables of no
higher rank turns it into a level that is at most the number of entries (`exists_levels`). So a
chain of look-ups is never longer than the trail, which is the length that `walk` and `value` are
computed up to. Hence they satisfy the equations one expects of them: a bound variable has the value
that its term resolves to (`Acyclic.value_of_lookup`), a walk does not change what a term resolves
to (`Acyclic.resolve_walk`), and what either of them reaches in the end is not bound
(`Acyclic.lookup_of_walk`, `Acyclic.lookup_of_mem_resolve`).

Binding an unbound variable to a term in which it does not occur keeps the bindings acyclic
(`Acyclic.bind`). The new rank lifts every variable that leads to the new one above all variables
of the term. The test is exact, since no rank survives the binding of a variable to a term in which
it does occur (`Acyclic.ranks_bind_iff`).

What is true of a term as soon as it is true of what its bound variables stand for is true of all
terms: `Acyclic.induct` is the induction that the rank allows.
-/

namespace HornLogic.Bindings

/-- The rank falls from each bound variable to the variables of its term. -/
def Ranks (s : Bindings) (rank : Symbol → Nat) : Prop :=
  ∀ x t, s.lookup x = some t → ∀ y ∈ t.occurrences, rank y < rank x

/-- The index and the load are right, and no variable leads back to itself. -/
structure Acyclic (s : Bindings) : Prop where
  indexed : s.Indexed
  loaded : s.Loaded
  ranked : ∃ rank, s.Ranks rank

theorem acyclic_empty : empty.Acyclic :=
  ⟨indexed_empty, loaded_empty, fun _ => 0, fun x t found => by simp at found⟩

/-! ## From ranks to levels -/

/-- A rank on the bound variables that is positive and at most the length of the trail. -/
structure Levels (s : Bindings) (level : Symbol → Nat) : Prop where
  falls : s.Ranks level
  pos : ∀ x t, s.lookup x = some t → 0 < level x
  le_size : ∀ x, level x ≤ s.size

def trailVars (s : Bindings) : Finset Symbol := (s.trail.toList.map Binding.var).toFinset

theorem card_trailVars_le (s : Bindings) : s.trailVars.card ≤ s.size := by
  refine Nat.le_trans (List.toFinset_card_le _) ?_
  simp [size]

theorem mem_trailVars {s : Bindings} (indexed : s.Indexed) {x : Symbol} {t : Term}
    (found : s.lookup x = some t) : x ∈ s.trailVars := by
  unfold lookup at found
  cases position : s.index[x]? with
  | none => simp [position] at found
  | some i =>
    obtain ⟨entry, atPosition, rfl⟩ := indexed x i position
    rw [trailVars, List.mem_toFinset]
    exact List.mem_map_of_mem (Array.mem_toList_iff.2 (Array.mem_of_getElem? atPosition))

/-- Acyclic bindings have levels: count the variables of no higher rank. -/
theorem Acyclic.exists_levels {s : Bindings} (acyclic : s.Acyclic) :
    ∃ level, s.Levels level := by
  obtain ⟨rank, ranks⟩ := acyclic.ranked
  let upTo (x : Symbol) : Finset Symbol := {y ∈ s.trailVars | rank y ≤ rank x}
  have self (x : Symbol) (t : Term) (found : s.lookup x = some t) : x ∈ upTo x := by
    simp [upTo, mem_trailVars acyclic.indexed found]
  refine ⟨fun x => if (s.lookup x).isSome then (upTo x).card else 0, ?_, ?_, ?_⟩
  · intro x t found y occurs
    have lower : rank y < rank x := ranks x t found y occurs
    have positive : 0 < (upTo x).card := Finset.card_pos.2 ⟨x, self x t found⟩
    simp only [found, Option.isSome_some, if_true]
    split
    · apply Finset.card_lt_card
      rw [Finset.ssubset_iff_of_subset]
      · refine ⟨x, self x t found, ?_⟩
        simp [upTo, lower]
      · intro z member
        simp only [upTo, Finset.mem_filter] at member ⊢
        exact ⟨member.1, by omega⟩
    · exact positive
  · intro x t found
    simp only [found, Option.isSome_some, if_true]
    exact Finset.card_pos.2 ⟨x, self x t found⟩
  · intro x
    show (if (s.lookup x).isSome then (upTo x).card else 0) ≤ s.size
    split
    · exact Nat.le_trans (Finset.card_filter_le _ _) s.card_trailVars_le
    · exact Nat.zero_le _

theorem Levels.lookup_eq_none {s : Bindings} {level : Symbol → Nat} (levels : s.Levels level)
    {x : Symbol} (zero : level x = 0) : s.lookup x = none := by
  cases found : s.lookup x with
  | none => rfl
  | some t =>
    have := levels.pos x t found
    omega

/-! ## Values -/

theorem valueWithin_of_unbound {s : Bindings} {x : Symbol} (unbound : s.lookup x = none)
    (links : Nat) : s.valueWithin links x = .var x := by
  cases links with
  | zero => rfl
  | succ links => simp [valueWithin, unbound]

/-- Values have no other variables than the bindings and the variable itself. -/
theorem All.of_mem_valueWithin {P : Symbol → Prop} {s : Bindings}
    (all : s.All fun t => ∀ y ∈ t.occurrences, P y) (links : Nat) {x : Symbol} (holds : P x) :
    ∀ y ∈ (s.valueWithin links x).occurrences, P y := by
  induction links generalizing x with
  | zero => simpa [valueWithin] using holds
  | succ links ih =>
    cases found : s.lookup x with
    | none => simpa [valueWithin, found] using holds
    | some t =>
      intro y occurs
      simp only [valueWithin, found] at occurs
      obtain ⟨z, inTerm, inValue⟩ := Term.mem_occurrences_instantiate.1 occurs
      exact ih (all.lookup found z inTerm) y inValue

/-- From the level of a variable on, its value no longer depends on the number of links. -/
theorem Levels.valueWithin_eq {s : Bindings} {level : Symbol → Nat} (levels : s.Levels level)
    {m n : Nat} {x : Symbol} (enough : level x ≤ m) (enough' : level x ≤ n) :
    s.valueWithin m x = s.valueWithin n x := by
  cases found : s.lookup x with
  | none => rw [valueWithin_of_unbound found, valueWithin_of_unbound found]
  | some t =>
    have positive := levels.pos x t found
    -- The chain goes on from the variables of `t`, whose levels are lower.
    induction m generalizing n x t with
    | zero => omega
    | succ m ih =>
      obtain ⟨n, rfl⟩ : ∃ k, n = k + 1 := ⟨n - 1, by omega⟩
      simp only [valueWithin, found]
      apply Term.instantiate_congr
      intro y occurs
      have lower : level y < level x := levels.falls x t found y occurs
      cases found' : s.lookup y with
      | none => rw [valueWithin_of_unbound found', valueWithin_of_unbound found']
      | some u => exact ih (by omega) (by omega) u found' (levels.pos y u found')

@[simp] theorem value_of_unbound {s : Bindings} {x : Symbol} (unbound : s.lookup x = none) :
    s.value x = .var x :=
  valueWithin_of_unbound unbound s.size

theorem resolve_eq_instantiate (s : Bindings) (t : Term) : s.resolve t = t.instantiate s.value :=
  rfl

@[simp] theorem resolve_empty (t : Term) : empty.resolve t = t :=
  Term.instantiate_self t

/-- A bound variable has the value that its term resolves to. -/
theorem Acyclic.value_of_lookup {s : Bindings} (acyclic : s.Acyclic) {x : Symbol} {t : Term}
    (found : s.lookup x = some t) : s.value x = s.resolve t := by
  obtain ⟨level, levels⟩ := acyclic.exists_levels
  have positive := levels.pos x t found
  have bounded := levels.le_size x
  obtain ⟨links, size⟩ : ∃ k, s.size = k + 1 := ⟨s.size - 1, by omega⟩
  rw [value, size, valueWithin, found]
  apply Term.instantiate_congr
  intro y occurs
  have lower : level y < level x := levels.falls x t found y occurs
  exact levels.valueWithin_eq (by omega) (levels.le_size y)

/-! ## Walks -/

theorem walkWithin_of_unbound {s : Bindings} {x : Symbol} (unbound : s.lookup x = none)
    (hops : Nat) : s.walkWithin hops (.var x) = .var x := by
  cases hops with
  | zero => rfl
  | succ hops => simp [walkWithin, unbound]

/-- A walk ends at the term itself or at a term of the trail. -/
theorem walkWithin_eq_or (s : Bindings) (hops : Nat) (t : Term) :
    s.walkWithin hops t = t ∨ ∃ entry ∈ s.trail, entry.term = s.walkWithin hops t := by
  induction hops generalizing t with
  | zero => exact .inl rfl
  | succ hops ih =>
    cases t with
    | atom name => exact .inl rfl
    | compound functor args => exact .inl rfl
    | var x =>
      cases found : s.lookup x with
      | none => exact .inl (walkWithin_of_unbound found _)
      | some u =>
        have further : s.walkWithin (hops + 1) (.var x) = s.walkWithin hops u := by
          simp [walkWithin, found]
        rw [further]
        rcases ih u with stays | goesOn
        · right
          rw [stays]
          exact exists_entry_of_lookup found
        · exact .inr goesOn

theorem All.walk {P : Term → Prop} {s : Bindings} (all : s.All P) {t : Term} (holds : P t) :
    P (s.walk t) := by
  rcases walkWithin_eq_or s s.size t with stays | ⟨entry, member, same⟩
  · rw [Bindings.walk, stays]
    exact holds
  · rw [Bindings.walk, ← same]
    exact (all entry member).2

/-- With enough hops for its level, a walk from a variable ends at no bound variable. -/
theorem Levels.lookup_walkWithin {s : Bindings} {level : Symbol → Nat} (levels : s.Levels level)
    {hops : Nat} {x y : Symbol} (enough : level x ≤ hops)
    (walked : s.walkWithin hops (.var x) = .var y) : s.lookup y = none := by
  -- The level falls with every hop, so the hops that are left are enough for it.
  induction hops generalizing x with
  | zero =>
    obtain rfl : x = y := by simpa [walkWithin] using walked
    exact levels.lookup_eq_none (by omega)
  | succ hops ih =>
    cases found : s.lookup x with
    | none =>
      rw [walkWithin_of_unbound found] at walked
      obtain rfl : x = y := by simpa using walked
      exact found
    | some t =>
      simp only [walkWithin, found] at walked
      cases t with
      | atom name => cases hops <;> simp [walkWithin] at walked
      | compound functor args => cases hops <;> simp [walkWithin] at walked
      | var z =>
        have lower : level z < level x := levels.falls x _ found z (by simp)
        exact ih (by omega) walked

/-- From the level of a variable on, the walk from it no longer depends on the number of hops. -/
theorem Levels.walkWithin_eq {s : Bindings} {level : Symbol → Nat} (levels : s.Levels level)
    {m n : Nat} {x : Symbol} (enough : level x ≤ m) (enough' : level x ≤ n) :
    s.walkWithin m (.var x) = s.walkWithin n (.var x) := by
  induction m generalizing n x with
  | zero =>
    have unbound := levels.lookup_eq_none (show level x = 0 by omega)
    rw [walkWithin_of_unbound unbound, walkWithin_of_unbound unbound]
  | succ m ih =>
    cases found : s.lookup x with
    | none => rw [walkWithin_of_unbound found, walkWithin_of_unbound found]
    | some t =>
      have positive := levels.pos x t found
      obtain ⟨n, rfl⟩ : ∃ k, n = k + 1 := ⟨n - 1, by omega⟩
      simp only [walkWithin, found]
      cases t with
      | atom name => cases m <;> cases n <;> rfl
      | compound functor args => cases m <;> cases n <;> rfl
      | var y =>
        have lower : level y < level x := levels.falls x _ found y (by simp)
        exact ih (by omega) (by omega)

/-- The walk from a bound variable goes on from its term. -/
theorem Acyclic.walk_of_lookup {s : Bindings} (acyclic : s.Acyclic) {x : Symbol} {t : Term}
    (found : s.lookup x = some t) : s.walk (.var x) = s.walk t := by
  obtain ⟨level, levels⟩ := acyclic.exists_levels
  have positive := levels.pos x t found
  have bounded := levels.le_size x
  obtain ⟨hops, size⟩ : ∃ k, s.size = k + 1 := ⟨s.size - 1, by omega⟩
  cases t with
  | atom name => simp [walk, size, walkWithin, found]
  | compound functor args =>
    rw [walk_compound, walk, size, walkWithin, found]
    cases hops <;> rfl
  | var y =>
    have lower : level y < level x := levels.falls x _ found y (by simp)
    show s.walkWithin s.size (.var x) = s.walkWithin s.size (.var y)
    rw [← levels.walkWithin_eq (show level y ≤ hops by omega) (show level y ≤ s.size by omega)]
    rw [size, walkWithin, found]

theorem Acyclic.lookup_of_walk {s : Bindings} (acyclic : s.Acyclic) {t : Term} {x : Symbol}
    (walked : s.walk t = .var x) : s.lookup x = none := by
  cases t with
  | atom name => simp at walked
  | compound functor args => simp at walked
  | var y =>
    obtain ⟨level, levels⟩ := acyclic.exists_levels
    exact levels.lookup_walkWithin (levels.le_size y) walked

/-- A walk does not change what a term resolves to. -/
theorem Acyclic.resolve_walk {s : Bindings} (acyclic : s.Acyclic) (t : Term) :
    s.resolve (s.walk t) = s.resolve t := by
  unfold walk
  generalize s.size = hops
  induction hops generalizing t with
  | zero => rfl
  | succ hops ih =>
    cases t with
    | atom name => rfl
    | compound functor args => rfl
    | var x =>
      cases found : s.lookup x with
      | none => rw [walkWithin_of_unbound found]
      | some u =>
        simp only [walkWithin, found]
        rw [ih u, resolve_var, acyclic.value_of_lookup found]

/-- No bound variable is left in a resolved term. -/
theorem Acyclic.lookup_of_mem_resolve {s : Bindings} (acyclic : s.Acyclic) {t : Term} {x : Symbol}
    (occurs : x ∈ (s.resolve t).occurrences) : s.lookup x = none := by
  obtain ⟨level, levels⟩ := acyclic.exists_levels
  obtain ⟨y, -, inValue⟩ := Term.mem_occurrences_instantiate.1 occurs
  have enough := levels.le_size y
  generalize s.size = links at inValue enough
  induction links generalizing y with
  | zero =>
    obtain rfl : x = y := by simpa [valueWithin] using inValue
    exact levels.lookup_eq_none (by omega)
  | succ links ih =>
    cases found : s.lookup y with
    | none =>
      rw [valueWithin_of_unbound found] at inValue
      obtain rfl : x = y := by simpa using inValue
      exact found
    | some u =>
      simp only [valueWithin, found] at inValue
      obtain ⟨z, inTerm, inValue⟩ := Term.mem_occurrences_instantiate.1 inValue
      have lower : level z < level y := levels.falls y u found z inTerm
      exact ih z inValue (by omega)

/-! ## One more binding -/

/-- A variable leads to another one if that occurs in its value. -/
theorem Acyclic.mem_value_of_lookup {s : Bindings} (acyclic : s.Acyclic) {x y z : Symbol} {t : Term}
    (found : s.lookup y = some t) (inTerm : z ∈ t.occurrences)
    (leads : x ∈ (s.value z).occurrences) : x ∈ (s.value y).occurrences := by
  rw [acyclic.value_of_lookup found, resolve_eq_instantiate, Term.mem_occurrences_instantiate]
  exact ⟨z, inTerm, leads⟩

/-- Binding an unbound variable to a term without it makes no cycle. -/
theorem Acyclic.bind {s : Bindings} (acyclic : s.Acyclic) {x : Symbol} {t : Term}
    (unbound : s.lookup x = none) (absent : s.occurs x t = false) : (s.bind x t).Acyclic := by
  obtain ⟨rank, ranks⟩ := acyclic.ranked
  refine ⟨acyclic.indexed.bind x t, acyclic.loaded.bind x t, ?_⟩
  let top := (t.occurrences.map rank).sum + 1
  have below (y : Symbol) (occurs : y ∈ t.occurrences) : rank y < top :=
    Nat.lt_succ_of_le (List.le_sum_of_mem (List.mem_map_of_mem occurs))
  have notReached (y : Symbol) (occurs : y ∈ t.occurrences) : x ∉ (s.value y).occurrences := by
    intro reached
    have present : s.occurs x t = true :=
      (occurs_iff s x t).2 (Term.mem_occurrences_instantiate.2 ⟨y, occurs, reached⟩)
    simp [absent] at present
  -- Whatever leads to `x` is lifted above the variables of `t`.
  refine ⟨fun y => if x ∈ (s.value y).occurrences then rank y + top else rank y, ?_⟩
  intro y u found z inTerm
  rw [lookup_bind acyclic.indexed] at found
  by_cases new : y = x
  · subst new
    obtain rfl : t = u := by simpa using found
    have reaches : y ∈ (s.value y).occurrences := by
      rw [value_of_unbound unbound]
      simp
    have lower := below z inTerm
    simp only [if_neg (notReached z inTerm), if_pos reaches]
    omega
  · rw [if_neg new] at found
    have lower : rank z < rank y := ranks y u found z inTerm
    by_cases reached : x ∈ (s.value z).occurrences
    · have passedOn := acyclic.mem_value_of_lookup found inTerm reached
      simp only [if_pos reached, if_pos passedOn]
      omega
    · simp only [if_neg reached]
      split
      · omega
      · exact lower

/-- No variable in the value of a variable has a higher rank. -/
theorem Ranks.le_of_mem_valueWithin {s : Bindings} {rank : Symbol → Nat} (ranks : s.Ranks rank)
    {links : Nat} {x y : Symbol} (inValue : x ∈ (s.valueWithin links y).occurrences) :
    rank x ≤ rank y := by
  induction links generalizing y with
  | zero =>
    obtain rfl : x = y := by simpa [valueWithin] using inValue
    exact Nat.le_refl _
  | succ links ih =>
    cases found : s.lookup y with
    | none =>
      rw [valueWithin_of_unbound found] at inValue
      obtain rfl : x = y := by simpa using inValue
      exact Nat.le_refl _
    | some t =>
      simp only [valueWithin, found] at inValue
      obtain ⟨z, inTerm, inValue⟩ := Term.mem_occurrences_instantiate.1 inValue
      have lower : rank z < rank y := ranks y t found z inTerm
      exact Nat.le_trans (ih inValue) (Nat.le_of_lt lower)

/-- Binding an unbound variable leaves a rank exactly if it does not occur in the term. -/
theorem Acyclic.ranks_bind_iff {s : Bindings} (acyclic : s.Acyclic) {x : Symbol} {t : Term}
    (unbound : s.lookup x = none) :
    (∃ rank, (s.bind x t).Ranks rank) ↔ s.occurs x t = false := by
  constructor
  · rintro ⟨rank, ranks⟩
    by_contra present
    rw [Bool.not_eq_false, occurs_iff] at present
    obtain ⟨y, inTerm, inValue⟩ := Term.mem_occurrences_instantiate.1 present
    have found : (s.bind x t).lookup x = some t := by simp [lookup_bind acyclic.indexed]
    have lower : rank y < rank x := ranks x t found y inTerm
    -- The older bindings are still there, so `x` has no higher rank than `y`, which leads to it.
    have older : s.Ranks rank := by
      intro z u foundOld
      apply ranks z u
      have different : z ≠ x := by
        rintro rfl
        simp [unbound] at foundOld
      rw [lookup_bind acyclic.indexed, if_neg different, foundOld]
    have notHigher : rank x ≤ rank y := older.le_of_mem_valueWithin inValue
    omega
  · intro absent
    exact (acyclic.bind unbound absent).ranked

/-! ## Induction along the bindings -/

/-- Induction on terms, in which a bound variable may rely on its term. -/
theorem Acyclic.induct {s : Bindings} (acyclic : s.Acyclic) {motive : Term → Prop}
    (atom : ∀ name, motive (.atom name))
    (unbound : ∀ x, s.lookup x = none → motive (.var x))
    (bound : ∀ x t, s.lookup x = some t → motive t → motive (.var x))
    (compound : ∀ functor args, (∀ arg ∈ args, motive arg) → motive (.compound functor args))
    (t : Term) : motive t := by
  obtain ⟨rank, ranks⟩ := acyclic.ranked
  suffices below : ∀ n t, (∀ y ∈ t.occurrences, rank y < n) → motive t by
    apply below ((t.occurrences.map rank).sum + 1) t
    intro y occurs
    exact Nat.lt_succ_of_le (List.le_sum_of_mem (List.mem_map_of_mem occurs))
  intro n
  induction n using Nat.strongRecOn with
  | ind n ih =>
    intro t lower
    induction t with
    | atom name => exact atom name
    | compound functor args ihArgs =>
      apply compound functor args
      intro arg member
      apply ihArgs arg member
      intro y occurs
      exact lower y (Term.mem_occurrences_of_mem_args member occurs)
    | var x =>
      cases found : s.lookup x with
      | none => exact unbound x found
      | some u => exact bound x u found (ih (rank x) (lower x (by simp)) u
          (ranks x u found))

end HornLogic.Bindings
