import HornLogic.Term.Vars

/-!
# Instances of a term

`Term.instantiate` replaces every variable of a term at once, by the term that a function
gives for it. Renaming a clause, resolving a term under bindings and reading off an answer
are all instances of this one operation. Its laws are those of substitution: replacing each
variable by itself changes nothing, two replacements after each other are one, and only the
variables that occur matter.
-/

namespace HornLogic.Term

mutual

/-- The term with every variable replaced by its value under `σ`. -/
def instantiate (σ : Symbol → Term) : Term → Term
  | .atom name => .atom name
  | .var x => σ x
  | .compound functor args => .compound functor (instantiateAll σ args)

def instantiateAll (σ : Symbol → Term) : List Term → List Term
  | [] => []
  | t :: ts => t.instantiate σ :: instantiateAll σ ts

end

/-- The term rebuilt from its leaves, each variable standing for itself. -/
def copy (t : Term) : Term := t.instantiate .var

theorem instantiateAll_eq_map (σ : Symbol → Term) (ts : List Term) :
    instantiateAll σ ts = ts.map (instantiate σ) := by
  induction ts with
  | nil => rfl
  | cons t ts ih => simp [instantiateAll, ih]

@[simp] theorem instantiate_atom (σ : Symbol → Term) (name : Symbol) :
    (atom name).instantiate σ = atom name := by
  simp [instantiate]

@[simp] theorem instantiate_var (σ : Symbol → Term) (x : Symbol) :
    (var x).instantiate σ = σ x := by
  simp [instantiate]

@[simp] theorem instantiate_compound (σ : Symbol → Term) (functor : Symbol) (args : List Term) :
    (compound functor args).instantiate σ = compound functor (args.map (instantiate σ)) := by
  simp [instantiate, instantiateAll_eq_map]

@[simp] theorem instantiate_app (σ : Symbol → Term) (functor : Symbol) (args : List Term) :
    (app functor args).instantiate σ = app functor (args.map (instantiate σ)) := by
  cases args <;> simp [app]

theorem occurrences_compound (functor : Symbol) (args : List Term) :
    (compound functor args).occurrences = args.flatMap occurrences := by
  rw [occurrences, occurrencesAll_eq_flatMap]

theorem mem_occurrences_of_mem_args {x : Symbol} {functor : Symbol} {args : List Term} {arg : Term}
    (member : arg ∈ args) (occurs : x ∈ arg.occurrences) :
    x ∈ (compound functor args).occurrences := by
  rw [occurrences_compound]
  exact List.mem_flatMap.2 ⟨arg, member, occurs⟩

theorem instantiate_self (t : Term) : t.instantiate var = t := by
  induction t with
  | atom name => simp
  | var name => simp
  | compound functor args ih =>
    rw [instantiate_compound, List.map_congr_left ih, List.map_id']

@[simp] theorem copy_eq (t : Term) : t.copy = t := instantiate_self t

/-- Instantiating twice is instantiating once, by the values instantiated. -/
theorem instantiate_instantiate (σ τ : Symbol → Term) (t : Term) :
    (t.instantiate σ).instantiate τ = t.instantiate fun x => (σ x).instantiate τ := by
  induction t with
  | atom name => simp
  | var name => simp
  | compound functor args ih =>
    simp only [instantiate_compound, List.map_map, compound.injEq, true_and]
    exact List.map_congr_left ih

/-- An instance depends only on the values of the variables that occur. -/
theorem instantiate_congr {σ τ : Symbol → Term} {t : Term}
    (agree : ∀ x ∈ t.occurrences, σ x = τ x) : t.instantiate σ = t.instantiate τ := by
  induction t with
  | atom name => simp
  | var name => simpa [occurrences] using agree
  | compound functor args ih =>
    simp only [instantiate_compound, compound.injEq, true_and]
    refine List.map_congr_left fun t member => ih t member fun x occurs => agree x ?_
    rw [occurrences_compound]
    exact List.mem_flatMap.2 ⟨t, member, occurs⟩

/-- What occurs in an instance occurs in the value of a variable of the term. -/
theorem mem_occurrences_instantiate {x : Symbol} {σ : Symbol → Term} {t : Term} :
    x ∈ (t.instantiate σ).occurrences ↔ ∃ y ∈ t.occurrences, x ∈ (σ y).occurrences := by
  induction t with
  | atom name => simp [occurrences]
  | var name => simp [occurrences]
  | compound functor args ih =>
    simp only [instantiate_compound, occurrences_compound, List.mem_flatMap, List.mem_map]
    constructor
    · rintro ⟨_, ⟨t, member, rfl⟩, occurs⟩
      obtain ⟨y, inTerm, inValue⟩ := (ih t member).1 occurs
      exact ⟨y, ⟨t, member, inTerm⟩, inValue⟩
    · rintro ⟨y, ⟨t, member, inTerm⟩, inValue⟩
      exact ⟨_, ⟨t, member, rfl⟩, (ih t member).2 ⟨y, inTerm, inValue⟩⟩

theorem mem_varsAll_map_instantiate {y : Symbol} {σ : Symbol → Term} {ts : List Term} :
    y ∈ varsAll (ts.map (instantiate σ)) ↔ ∃ x ∈ varsAll ts, y ∈ (σ x).occurrences := by
  simp only [mem_varsAll, List.mem_map]
  constructor
  · rintro ⟨_, ⟨t, member, rfl⟩, occurs⟩
    obtain ⟨x, inTerm, inValue⟩ := mem_occurrences_instantiate.1 occurs
    exact ⟨x, ⟨t, member, inTerm⟩, inValue⟩
  · rintro ⟨x, ⟨t, member, inTerm⟩, inValue⟩
    exact ⟨_, ⟨t, member, rfl⟩, mem_occurrences_instantiate.2 ⟨x, inTerm, inValue⟩⟩

end HornLogic.Term
