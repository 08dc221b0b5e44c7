import Mathlib.Data.Multiset.AddSub
import HornLogic.Proofs.Search.Soundness
import HornLogic.Proofs.Search.Twins

/-!
# Solutions under other names

A solution lists variables with their values, and the values may have variables of their own. Most
of these are fresh names that mean nothing outside the query they were made for. Before a solution
is used in another context, its fresh variables are renamed, so that none of them is taken for a
variable that is there (`Solution.RenamedApart`). This can always be done, since there are names
enough (`Solution.exists_renamedApart`).

A solution that was renamed gives the variables that were kept the renamed values.

Two searches may have the same solutions in another order, and each of them under names of its own
(`SameSolutions`). Then the solutions are compared as multisets.
-/

namespace HornLogic

namespace Solution

variable {answer : Solution} {x y : Symbol}

/-- The variables that occur in the values. -/
def vars (answer : Solution) : List Symbol := Term.varsAll (answer.bindings.map Prod.snd)

theorem mem_vars :
    y ∈ answer.vars ↔ ∃ binding ∈ answer.bindings, y ∈ binding.2.occurrences := by
  simp only [vars, Term.mem_varsAll, List.mem_map]
  constructor
  · rintro ⟨_, ⟨binding, member, rfl⟩, occurs⟩
    exact ⟨binding, member, occurs⟩
  · rintro ⟨binding, member, occurs⟩
    exact ⟨_, ⟨binding, member, rfl⟩, occurs⟩

/-- What occurs in the value of a variable is the variable itself, if the solution does not show it,
or is one of the variables of the solution. -/
theorem eq_or_mem_vars_of_mem_value (occurs : y ∈ (answer.value x).occurrences) :
    y = x ∨ y ∈ answer.vars := by
  unfold value at occurs
  cases shown : answer.get? x with
  | none =>
    rw [shown] at occurs
    exact .inl (List.mem_singleton.1 occurs)
  | some t =>
    rw [shown] at occurs
    obtain ⟨before, after, split, -⟩ := List.lookup_eq_some_iff.1 shown
    refine .inr (mem_vars.2 ⟨(x, t), ?_, occurs⟩)
    rw [split]
    exact List.mem_append_right _ List.mem_cons_self

theorem get?_rename (π : Equiv.Perm Symbol) (answer : Solution) (x : Symbol) :
    (answer.rename π).get? (π x) = (answer.get? x).map (Term.rename π) := by
  obtain ⟨bindings⟩ := answer
  unfold get? rename
  induction bindings with
  | nil => rfl
  | cons binding bindings ih =>
    rw [List.map_cons, List.lookup_cons, List.lookup_cons]
    by_cases same : x = binding.1
    · simp [same]
    · have different : π x ≠ π binding.1 := fun equal => same (π.injective equal)
      rw [beq_false_of_ne same, beq_false_of_ne different]
      exact ih

/-- Under other names the value of a variable is its value under other names. -/
theorem value_rename (π : Equiv.Perm Symbol) (answer : Solution) (x : Symbol) :
    (answer.rename π).value (π x) = (answer.value x).rename π := by
  rw [value, value, get?_rename]
  cases answer.get? x with
  | none => rw [Option.map_none, Option.getD_none, Option.getD_none, Term.rename_var]
  | some t => rfl

theorem mem_vars_rename {π : Equiv.Perm Symbol} :
    y ∈ (answer.rename π).vars ↔ ∃ x ∈ answer.vars, π x = y := by
  simp only [mem_vars, rename, List.mem_map]
  constructor
  · rintro ⟨_, ⟨binding, member, rfl⟩, occurs⟩
    rw [Term.occurrences_rename, List.mem_map] at occurs
    obtain ⟨x, inValue, same⟩ := occurs
    exact ⟨x, ⟨binding, member, inValue⟩, same⟩
  · rintro ⟨x, ⟨binding, member, inValue⟩, rfl⟩
    refine ⟨_, ⟨binding, member, rfl⟩, ?_⟩
    rw [Term.occurrences_rename]
    exact List.mem_map_of_mem inValue

end Solution

/-! ## Values that a solution shows -/

namespace Bindings

variable {vars : List Symbol} {x y : Symbol}

theorem value_answer_of_mem (s : Bindings) (member : x ∈ vars) :
    (s.answer vars).value x = s.value x := by
  rw [Solution.value, s.value_answer member]
  rfl

theorem get?_answer_of_not_mem (s : Bindings) (missing : x ∉ vars) :
    (s.answer vars).get? x = none := by
  unfold Solution.get? answer
  rw [List.lookup_eq_none_iff]
  intro binding member
  obtain ⟨y, inVars, rfl⟩ := List.mem_map.1 member
  have different : x ≠ y := fun same => missing (same ▸ inVars)
  simpa using different

theorem value_answer_of_not_mem (s : Bindings) (missing : x ∉ vars) :
    (s.answer vars).value x = .var x := by
  rw [Solution.value, s.get?_answer_of_not_mem missing]
  rfl

theorem mem_vars_answer {s : Bindings} :
    y ∈ (s.answer vars).vars ↔ ∃ x ∈ vars, y ∈ (s.value x).occurrences := by
  simp only [Solution.mem_vars, answer, List.mem_map]
  constructor
  · rintro ⟨_, ⟨x, member, rfl⟩, occurs⟩
    exact ⟨x, member, by simpa using occurs⟩
  · rintro ⟨x, member, occurs⟩
    exact ⟨_, ⟨x, member, rfl⟩, by simpa using occurs⟩

/-- If the variables that a solution shows keep their names, their values are the renamed values. -/
theorem value_rename_answer_of_mem {s : Bindings} {π : Equiv.Perm Symbol}
    (fixed : ∀ x ∈ vars, π x = x) (member : x ∈ vars) :
    ((s.answer vars).rename π).value x = (s.value x).rename π := by
  have renamed := Solution.value_rename π (s.answer vars) x
  rwa [fixed x member, s.value_answer_of_mem member] at renamed

theorem value_rename_answer_of_not_mem {s : Bindings} {π : Equiv.Perm Symbol}
    (fixed : ∀ x ∈ vars, π x = x) (missing : x ∉ vars) :
    ((s.answer vars).rename π).value x = .var x := by
  have before : π.symm x ∉ vars := by
    intro member
    have same : x = π.symm x := (π.apply_symm_apply x).symm.trans (fixed _ member)
    exact missing (same ▸ member)
  have renamed := Solution.value_rename π (s.answer vars) (π.symm x)
  rwa [π.apply_symm_apply, s.value_answer_of_not_mem before, Term.rename_var,
    π.apply_symm_apply] at renamed

end Bindings

/-! ## Renaming apart -/

/-- A permutation that leaves some names alone takes no other name to one of these. -/
theorem not_mem_of_fixed {kept : List Symbol} {π : Equiv.Perm Symbol} (fixed : ∀ x ∈ kept, π x = x)
    {x : Symbol} (missing : x ∉ kept) : π x ∉ kept := by
  intro member
  have same : π x = x := π.injective (fixed _ member)
  exact missing (same ▸ member)

/-- The second solution is the first one with its variables renamed. Some variables are kept, and
no other one gets a name that is to be avoided. -/
def Solution.RenamedApart (kept avoided : List Symbol) (answer answer' : Solution) : Prop :=
  ∃ π : Equiv.Perm Symbol, (∀ x ∈ kept, π x = x) ∧
    (∀ x ∈ answer.vars, x ∉ kept → π x ∉ avoided) ∧ answer' = answer.rename π

/-- Whatever is to be kept and to be avoided, a solution can be renamed apart. -/
theorem Solution.exists_renamedApart (kept avoided : List Symbol) (answer : Solution) :
    ∃ answer', answer.RenamedApart kept avoided answer' := by
  let table := ((NameSupply.avoiding (kept ++ avoided)).freshNames answer.vars).1
  have fresh := NameSupply.freshTable_freshNames (.avoiding (kept ++ avoided)) answer.vars
  let name (x : Symbol) : Symbol := (table.lookup x).getD x
  have listed (x : Symbol) (member : x ∈ answer.vars) : (x, name x) ∈ table := by
    obtain ⟨other, inTable, replaced⟩ := fresh.exists_name member
    obtain rfl : name x = other := Term.var.inj replaced
    exact inTable
  have new (x : Symbol) (member : x ∈ answer.vars) : name x ∉ kept ++ avoided := by
    intro reserved
    exact fresh.fresh _ (List.mem_map_of_mem (listed x member)) (.inl reserved)
  -- What is kept stays, and the other variables get their fresh names.
  let ρ (x : Symbol) : Symbol := if x ∈ kept then x else name x
  have kept_iff (x : Symbol) (member : x ∈ kept ++ answer.vars) : ρ x ∈ kept ↔ x ∈ kept := by
    by_cases known : x ∈ kept
    · simp [ρ, known]
    · have inVars : x ∈ answer.vars := (List.mem_append.1 member).resolve_left known
      have apart : name x ∉ kept := fun inKept => new x inVars (List.mem_append_left _ inKept)
      simp [ρ, known, apart]
  have inj : ∀ x ∈ kept ++ answer.vars, ∀ y ∈ kept ++ answer.vars, ρ x = ρ y → x = y := by
    intro x inX y inY same
    have both : x ∈ kept ↔ y ∈ kept := by rw [← kept_iff x inX, ← kept_iff y inY, same]
    by_cases known : x ∈ kept
    · simpa [ρ, known, both.1 known] using same
    · have known' : y ∉ kept := fun inKept => known (both.2 inKept)
      simp only [ρ, if_neg known, if_neg known'] at same
      have first := listed x ((List.mem_append.1 inX).resolve_left known)
      have second := listed y ((List.mem_append.1 inY).resolve_left known')
      exact fresh.eq_of_name_eq first (same ▸ second)
  obtain ⟨π, agree⟩ := Dictionary.exists_perm inj
  refine ⟨answer.rename π, π, ?_, ?_, rfl⟩
  · intro x member
    rw [agree x (List.mem_append_left _ member)]
    exact if_pos member
  · intro x member missing avoided
    rw [agree x (List.mem_append_right _ member)] at avoided
    simp only [ρ, if_neg missing] at avoided
    exact new x member (List.mem_append_right _ avoided)

/-! ## The same solutions in another order -/

/-- The solutions of the second list are the same ones as those of the first, in whatever order. A
solution that is found several times is there several times. -/
def SameSolutions (Same : Solution → Solution → Prop) (answers answers' : List (Solution × Nat)) :
    Prop :=
  Multiset.Rel Same ↑(answers.map Prod.fst) ↑(answers'.map Prod.fst)

namespace SameSolutions

variable {Same : Solution → Solution → Prop} {answers answers' early early' later later' :
  List (Solution × Nat)}

theorem of_forall₂
    (same : List.Forall₂ (fun found found' => Same found.1 found'.1) answers answers') :
    SameSolutions Same answers answers' := by
  induction same with
  | nil => exact .zero
  | cons first _ ih => exact .cons first ih

theorem append (first : SameSolutions Same early early')
    (second : SameSolutions Same later later') :
    SameSolutions Same (early ++ later) (early' ++ later') := by
  unfold SameSolutions
  rw [List.map_append, List.map_append, ← Multiset.coe_add, ← Multiset.coe_add]
  exact Multiset.Rel.add first second

/-- The order does not matter. -/
theorem of_perm {arranged : List (Solution × Nat)} (perm : answers.Perm arranged)
    (same : SameSolutions Same arranged answers') : SameSolutions Same answers answers' := by
  unfold SameSolutions
  rw [Multiset.coe_eq_coe.2 (perm.map Prod.fst)]
  exact same

/-- If there is one solution for each of some things, in one list and in the other, the two lists
have the same solutions when those of the same thing are the same. -/
theorem of_keys {κ : Type} {keys keys' : List κ} {Found Found' : κ → Solution × Nat → Prop}
    (perm : keys'.Perm keys) (found : List.Forall₂ Found keys answers)
    (found' : List.Forall₂ Found' keys' answers')
    (same : ∀ key first second, Found key first → Found' key second → Same first.1 second.1) :
    SameSolutions Same answers answers' := by
  obtain ⟨arranged, foundArranged, reordered⟩ := List.perm_comp_forall₂ perm found
  refine of_perm reordered.symm (of_forall₂ ?_)
  clear reordered perm
  induction foundArranged generalizing answers' with
  | nil =>
    cases found'
    exact .nil
  | cons first _ ih =>
    cases found' with
    | cons second others => exact .cons (same _ _ _ first second) (ih others)

end SameSolutions

end HornLogic
