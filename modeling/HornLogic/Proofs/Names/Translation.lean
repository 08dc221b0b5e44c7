import Mathlib.Logic.Equiv.Basic
import Mathlib.Data.Set.Insert
import HornLogic.Predicate
import HornLogic.Proofs.Names.Renaming

/-!
# Translating names

Two searches may do the same under different names. What a variable of one is called in the other
is kept in a `Dictionary`: the names that have come up in the first one, and a permutation of all
names that gives each its counterpart. A permutation can be extended at will, since a new pair of
names only swaps what neither of the two searches has seen (`Dictionary.add`).

When both searches rename a clause, the new names correspond in order of first occurrence. So there
is a larger dictionary in which one variant is the translation of the other
(`Dictionary.Within.exists_renameClause`). The two clauses need not be the same for this, but may be
alike up to the names of their variables (`Clause.Alike`).

Terms that are instances of each other differ in names only (`exists_rename_of_instances`). So it
can be seen that two searches have the same solution even if they did not come to it in the same
way.
-/

namespace HornLogic

/-! ## Terms -/

namespace Term

/-- The term with every variable renamed. -/
def rename (ρ : Symbol → Symbol) (t : Term) : Term := t.instantiate fun x => .var (ρ x)

variable (ρ : Symbol → Symbol)

@[simp] theorem rename_atom (name : Symbol) : (atom name).rename ρ = atom name := by
  simp [rename]

@[simp] theorem rename_var (x : Symbol) : (var x).rename ρ = var (ρ x) := by
  simp [rename]

@[simp] theorem rename_compound (functor : Symbol) (args : List Term) :
    (compound functor args).rename ρ = compound functor (args.map (rename ρ)) := by
  rw [rename, instantiate_compound]
  rfl

@[simp] theorem rename_app (functor : Symbol) (args : List Term) :
    (app functor args).rename ρ = app functor (args.map (rename ρ)) := by
  rw [rename, instantiate_app]
  rfl

@[simp] theorem isVar_rename (t : Term) : (t.rename ρ).isVar = t.isVar := by
  cases t <;> simp [isVar]

@[simp] theorem predicate?_rename (t : Term) : (t.rename ρ).predicate? = t.predicate? := by
  cases t <;> simp [predicate?]

@[simp] theorem args_rename (t : Term) : (t.rename ρ).args = t.args.map (rename ρ) := by
  cases t <;> simp [args]

theorem name_rename {t : Term} (notVar : t.isVar = false) : (t.rename ρ).name = t.name := by
  cases t with
  | var x => simp [isVar] at notVar
  | atom name => simp
  | compound functor args => simp [name]

@[simp] theorem size_rename (t : Term) : (t.rename ρ).size = t.size := by
  induction t with
  | atom name => simp
  | var x => simp [size]
  | compound functor args ih =>
    rw [rename_compound, size, size]
    congr 1
    induction args with
    | nil => rfl
    | cons t ts tail =>
      rw [List.map_cons, sizeAll, sizeAll, ih t List.mem_cons_self]
      rw [tail fun u member => ih u (List.mem_cons_of_mem _ member)]

@[simp] theorem occurrences_rename (t : Term) :
    (t.rename ρ).occurrences = t.occurrences.map ρ := by
  induction t with
  | atom name => simp
  | var x => simp
  | compound functor args ih =>
    rw [rename_compound, occurrences_compound, occurrences_compound, List.flatMap_map,
      List.map_flatMap]
    exact List.flatMap_congr ih

theorem instantiate_rename (σ : Symbol → Term) (t : Term) :
    (t.rename ρ).instantiate σ = t.instantiate fun x => σ (ρ x) := by
  rw [rename, instantiate_instantiate]
  simp

theorem rename_instantiate (σ : Symbol → Term) (t : Term) :
    (t.instantiate σ).rename ρ = t.instantiate fun x => (σ x).rename ρ :=
  instantiate_instantiate σ _ t

theorem rename_rename (ρ' : Symbol → Symbol) (t : Term) :
    (t.rename ρ).rename ρ' = t.rename fun x => ρ' (ρ x) :=
  instantiate_rename ρ _ t

variable {ρ}

theorem rename_congr {ρ' : Symbol → Symbol} {t : Term} (agree : ∀ x ∈ t.occurrences, ρ x = ρ' x) :
    t.rename ρ = t.rename ρ' := by
  apply instantiate_congr
  intro x occurs
  rw [agree x occurs]

theorem rename_id (t : Term) : t.rename id = t := instantiate_self t

theorem rename_eq_self {t : Term} (fixed : ∀ x ∈ t.occurrences, ρ x = x) : t.rename ρ = t := by
  rw [rename_congr (show ∀ x ∈ t.occurrences, ρ x = id x from fixed), rename_id]

@[simp] theorem rename_symm (π : Equiv.Perm Symbol) (t : Term) :
    (t.rename π).rename π.symm = t := by
  rw [rename_rename]
  exact rename_eq_self fun x _ => π.symm_apply_apply x

theorem foldl_addName_map (names seen : List Symbol)
    (inj : ∀ x ∈ seen ++ names, ∀ y ∈ seen ++ names, ρ x = ρ y → x = y) :
    (names.map ρ).foldl addName (seen.map ρ) = (names.foldl addName seen).map ρ := by
  induction names generalizing seen with
  | nil => rfl
  | cons x names ih =>
    have added : addName (seen.map ρ) (ρ x) = (addName seen x).map ρ := by
      unfold addName
      by_cases known : x ∈ seen
      · rw [if_pos known, if_pos (List.mem_map_of_mem known)]
      · have new : ρ x ∉ seen.map ρ := by
          intro member
          obtain ⟨y, inSeen, same⟩ := List.mem_map.1 member
          obtain rfl := inj y (by simp [inSeen]) x (by simp) same
          exact known inSeen
        rw [if_neg known, if_neg new, List.map_append, List.map_singleton]
    rw [List.map_cons, List.foldl_cons, List.foldl_cons, added]
    have fewer (y : Symbol) (member : y ∈ addName seen x ++ names) : y ∈ seen ++ x :: names := by
      unfold addName at member
      by_cases known : x ∈ seen
      · rw [if_pos known] at member
        rcases List.mem_append.1 member with inSeen | inNames
        · exact List.mem_append_left _ inSeen
        · exact List.mem_append_right _ (List.mem_cons_of_mem _ inNames)
      · simpa [if_neg known] using member
    exact ih _ fun y inY z inZ => inj y (fewer y inY) z (fewer z inZ)

theorem vars_rename {t : Term} (inj : ∀ x ∈ t.vars, ∀ y ∈ t.vars, ρ x = ρ y → x = y) :
    (t.rename ρ).vars = t.vars.map ρ := by
  simp only [mem_vars] at inj
  rw [vars, vars, collectVars_eq_foldl, collectVars_eq_foldl, occurrences_rename]
  exact foldl_addName_map _ [] inj

/-- The variables of renamed terms are the renamed variables, in the same order. -/
theorem varsAll_rename {ts : List Term}
    (inj : ∀ x ∈ varsAll ts, ∀ y ∈ varsAll ts, ρ x = ρ y → x = y) :
    varsAll (ts.map (rename ρ)) = (varsAll ts).map ρ := by
  have listed (ts : List Term) : varsAll ts = (compound "" ts).vars := by
    simp [varsAll, vars]
  rw [listed, listed, ← rename_compound]
  rw [listed] at inj
  exact vars_rename inj

end Term

/-! ## Clauses -/

namespace Clause

/-- The second clause is the first one, or differs from it in the names of its variables only. -/
def Alike (c d : Clause) : Prop :=
  ∃ ρ : Symbol → Symbol, (∀ x ∈ c.vars, ∀ y ∈ c.vars, ρ x = ρ y → x = y) ∧
    d.head = c.head.rename ρ ∧ d.body = c.body.map (Term.rename ρ)

theorem Alike.refl (c : Clause) : c.Alike c := by
  refine ⟨id, fun _ _ _ _ same => same, ?_, ?_⟩
  · rw [Term.rename_id]
  · rw [List.map_congr_left fun t _ => Term.rename_id t, List.map_id']

theorem vars_of_rename {c d : Clause} {ρ : Symbol → Symbol}
    (inj : ∀ x ∈ c.vars, ∀ y ∈ c.vars, ρ x = ρ y → x = y) (head : d.head = c.head.rename ρ)
    (body : d.body = c.body.map (Term.rename ρ)) : d.vars = c.vars.map ρ := by
  unfold vars at inj ⊢
  rw [head, body, Term.args_rename, ← List.map_append]
  exact Term.varsAll_rename inj

end Clause

/-! ## Tables of fresh names -/

namespace NameSupply

/-- The first variable of a table has the first of the fresh names. -/
theorem variable_freshNames_self (supply : NameSupply) (x : Symbol) (xs : List Symbol) :
    (supply.freshNames (x :: xs)).1.variable x = .var (supply.fresh x).1 := by
  simp [freshNames, Renaming.variable]

theorem variable_freshNames_of_ne {supply : NameSupply} {x y : Symbol} (different : y ≠ x)
    (xs : List Symbol) :
    (supply.freshNames (x :: xs)).1.variable y =
      ((supply.fresh x).2.freshNames xs).1.variable y := by
  have skipped : (y == x) = false := beq_eq_false_iff_ne.2 different
  simp [freshNames, Renaming.variable, List.lookup_cons, skipped]

end NameSupply

/-! ## Dictionaries -/

/-- Names of one search with their counterparts in another. -/
structure Dictionary where
  names : Set Symbol
  perm : Equiv.Perm Symbol

namespace Dictionary

/-- All variables of the term are in the dictionary. -/
def Covers (dict : Dictionary) (t : Term) : Prop :=
  ∀ x ∈ t.occurrences, x ∈ dict.names

/-- The first dictionary has all names of the second, with the same counterparts. -/
def Extends (more dict : Dictionary) : Prop :=
  dict.names ⊆ more.names ∧ ∀ x ∈ dict.names, more.perm x = dict.perm x

/-- The names are used in the first supply, and their counterparts in the second. -/
def Within (dict : Dictionary) (supply supply' : NameSupply) : Prop :=
  ∀ x ∈ dict.names, supply.Used x ∧ supply'.Used (dict.perm x)

/-- What the first dictionary has more than the second has counterparts new to the supply. -/
def AddsNew (more dict : Dictionary) (supply' : NameSupply) : Prop :=
  ∀ x ∈ more.names, x ∈ dict.names ∨ ¬ supply'.Used (more.perm x)

variable {dict more : Dictionary} {supply supply' : NameSupply} {t : Term}

theorem Extends.refl (dict : Dictionary) : dict.Extends dict :=
  ⟨subset_rfl, fun _ _ => rfl⟩

theorem Extends.trans {most : Dictionary} (later : most.Extends more) (first : more.Extends dict) :
    most.Extends dict := by
  refine ⟨first.1.trans later.1, ?_⟩
  intro x known
  rw [later.2 x (first.1 known), first.2 x known]

theorem Extends.covers (extension : more.Extends dict) (covers : dict.Covers t) : more.Covers t :=
  fun x occurs => extension.1 (covers x occurs)

theorem Extends.rename_eq (extension : more.Extends dict) (covers : dict.Covers t) :
    t.rename more.perm = t.rename dict.perm :=
  Term.rename_congr fun x occurs => extension.2 x (covers x occurs)

theorem Covers.arg (f : Symbol) (args : List Term) (covers : dict.Covers (.compound f args))
    (arg : Term) (member : arg ∈ args) : dict.Covers arg :=
  fun x occurs => covers x (Term.mem_occurrences_of_mem_args member occurs)

/-- The dictionary with one more name. -/
def add (dict : Dictionary) (name name' : Symbol) : Dictionary where
  names := insert name dict.names
  perm := dict.perm.trans (Equiv.swap (dict.perm name) name')

theorem perm_add (dict : Dictionary) (name name' : Symbol) :
    (dict.add name name').perm name = name' :=
  Equiv.swap_apply_left _ _

theorem extends_add {name name' : Symbol} (new : name ∉ dict.names)
    (new' : ∀ x ∈ dict.names, dict.perm x ≠ name') : (dict.add name name').Extends dict := by
  refine ⟨Set.subset_insert _ _, ?_⟩
  intro x known
  have different : dict.perm x ≠ dict.perm name := by
    intro same
    exact new (dict.perm.injective same ▸ known)
  exact Equiv.swap_apply_of_ne_of_ne different (new' x known)

/-- A renaming of some variables that keeps them apart can be continued to a permutation of all
names. -/
theorem exists_perm {xs : List Symbol} {ρ : Symbol → Symbol}
    (inj : ∀ x ∈ xs, ∀ y ∈ xs, ρ x = ρ y → x = y) :
    ∃ π : Equiv.Perm Symbol, ∀ x ∈ xs, π x = ρ x := by
  induction xs with
  | nil => exact ⟨Equiv.refl Symbol, nofun⟩
  | cons x xs ih =>
    obtain ⟨π, agree⟩ := ih fun y inY z inZ =>
      inj y (List.mem_cons_of_mem x inY) z (List.mem_cons_of_mem x inZ)
    by_cases known : x ∈ xs
    · exact ⟨π, List.forall_mem_cons.2 ⟨agree x known, agree⟩⟩
    · let dict : Dictionary := { names := fun y => y ∈ xs, perm := π }
      have extension : (dict.add x (ρ x)).Extends dict := by
        refine extends_add known fun y inXs same => known ?_
        have renamed : ρ y = ρ x := (agree y inXs).symm.trans same
        exact inj y (List.mem_cons_of_mem x inXs) x List.mem_cons_self renamed ▸ inXs
      refine ⟨(dict.add x (ρ x)).perm, List.forall_mem_cons.2 ⟨perm_add _ _ _, ?_⟩⟩
      intro y inXs
      rw [extension.2 y inXs]
      exact agree y inXs

/-- Two renamings can be joined to one permutation, if the second one gives what both rename the
same name, and what only the second one renames another name than any that the first one gives. -/
theorem exists_perm_join {xs ys : List Symbol} {γ τ ε : Equiv.Perm Symbol}
    (agree : ∀ y ∈ ys, τ y ∈ xs → γ (τ y) = ε y)
    (apart : ∀ y ∈ ys, τ y ∉ xs → ∀ x ∈ xs, γ x ≠ ε y) :
    ∃ π : Equiv.Perm Symbol, (∀ x ∈ xs, π x = γ x) ∧ ∀ y ∈ ys, π (τ y) = ε y := by
  let ρ : Symbol → Symbol := fun z => if z ∈ xs then γ z else ε (τ.symm z)
  have first (x : Symbol) (member : x ∈ xs) : ρ x = γ x := if_pos member
  have second (y : Symbol) (member : y ∈ ys) : ρ (τ y) = ε y := by
    by_cases both : τ y ∈ xs
    · rw [first _ both, agree y member both]
    · show (if τ y ∈ xs then γ (τ y) else ε (τ.symm (τ y))) = ε y
      rw [if_neg both, τ.symm_apply_apply]
  have cross (x : Symbol) (inXs : x ∈ xs) (y : Symbol) (inYs : y ∈ ys) (same : ρ x = ρ (τ y)) :
      x = τ y := by
    by_cases both : τ y ∈ xs
    · rw [first x inXs, first _ both] at same
      exact γ.injective same
    · rw [first x inXs, second y inYs] at same
      exact absurd same (apart y inYs both x inXs)
  have inj : ∀ x ∈ xs ++ ys.map τ, ∀ y ∈ xs ++ ys.map τ, ρ x = ρ y → x = y := by
    simp only [List.forall_mem_append, List.forall_mem_map]
    refine ⟨fun x inXs => ⟨?_, fun y inYs => cross x inXs y inYs⟩,
      fun x inYs => ⟨fun y inXs same => (cross y inXs x inYs same.symm).symm, ?_⟩⟩
    · intro y inXs' same
      rw [first x inXs, first y inXs'] at same
      exact γ.injective same
    · intro y inYs' same
      rw [second x inYs, second y inYs'] at same
      rw [ε.injective same]
  obtain ⟨π, given⟩ := exists_perm inj
  refine ⟨π, ?_, ?_⟩
  · intro x member
    rw [given x (List.mem_append_left _ member), first x member]
  · intro y member
    rw [given _ (List.mem_append_right _ (List.mem_map_of_mem member)), second y member]

/-- A fresh name from each supply makes a new entry. -/
theorem Within.add_fresh (within : dict.Within supply supply') (x x' : Symbol) :
    (dict.add (supply.fresh x).1 (supply'.fresh x').1).Extends dict ∧
      (dict.add (supply.fresh x).1 (supply'.fresh x').1).Within (supply.fresh x).2
        (supply'.fresh x').2 := by
  have new : (supply.fresh x).1 ∉ dict.names := by
    intro known
    exact NameSupply.not_used_fresh supply x (within _ known).1
  have new' : ∀ y ∈ dict.names, dict.perm y ≠ (supply'.fresh x').1 := by
    intro y known same
    exact NameSupply.not_used_fresh supply' x' (same ▸ (within y known).2)
  have extension := extends_add new new'
  refine ⟨extension, ?_⟩
  rintro y (rfl | known)
  · rw [perm_add]
    exact ⟨supply.used_fresh x, supply'.used_fresh x'⟩
  · rw [extension.2 y known]
    exact ⟨(within y known).1.fresh x, (within y known).2.fresh x'⟩

/-- The names that two supplies give to the same variables under different names are new entries. -/
theorem Within.exists_freshNames (within : dict.Within supply supply') (ρ : Symbol → Symbol)
    {xs : List Symbol} (inj : ∀ x ∈ xs, ∀ y ∈ xs, ρ x = ρ y → x = y) :
    ∃ more : Dictionary, more.Extends dict ∧ more.AddsNew dict supply' ∧
      more.Within (supply.freshNames xs).2 (supply'.freshNames (xs.map ρ)).2 ∧
      ∀ x ∈ xs, more.Covers ((supply.freshNames xs).1.variable x) ∧
        (supply'.freshNames (xs.map ρ)).1.variable (ρ x) =
          ((supply.freshNames xs).1.variable x).rename more.perm := by
  induction xs generalizing supply supply' dict with
  | nil => exact ⟨dict, .refl dict, fun _ known => .inl known, within, nofun⟩
  | cons x xs ih =>
    obtain ⟨extension, within'⟩ := within.add_fresh x (ρ x)
    obtain ⟨more, extension', adds, rest, named⟩ :=
      ih within' fun y inY z inZ =>
        inj y (List.mem_cons_of_mem _ inY) z (List.mem_cons_of_mem _ inZ)
    have known : (supply.fresh x).1 ∈ (dict.add (supply.fresh x).1 (supply'.fresh (ρ x)).1).names :=
      Set.mem_insert _ _
    refine ⟨more, extension'.trans extension, ?_, rest, ?_⟩
    · intro y member
      rcases adds y member with (rfl | old) | new
      · right
        rw [extension'.2 _ known, perm_add]
        exact supply'.not_used_fresh (ρ x)
      · exact .inl old
      · exact .inr fun used => new (used.fresh (ρ x))
    intro y member
    by_cases same : y = x
    · -- The table has the name of the first variable at its front.
      subst same
      rw [NameSupply.variable_freshNames_self, List.map_cons,
        NameSupply.variable_freshNames_self, Term.rename_var, extension'.2 _ known, perm_add]
      refine ⟨?_, rfl⟩
      intro z occurs
      obtain rfl : z = (supply.fresh y).1 := by simpa using occurs
      exact extension'.1 known
    · have later : y ∈ xs := (List.mem_cons.1 member).resolve_left same
      have different : ρ y ≠ ρ x := fun equal => same (inj y member x List.mem_cons_self equal)
      rw [NameSupply.variable_freshNames_of_ne same, List.map_cons,
        NameSupply.variable_freshNames_of_ne different]
      exact named y later

/-- When two supplies rename clauses that are alike, the variants correspond in a larger
dictionary. -/
theorem Within.exists_renameClause (within : dict.Within supply supply') {c d : Clause}
    (alike : c.Alike d) :
    ∃ more : Dictionary, more.Extends dict ∧ more.AddsNew dict supply' ∧
      more.Within (supply.renameClause c).2 (supply'.renameClause d).2 ∧
      (∀ t ∈ (supply.renameClause c).1.head :: (supply.renameClause c).1.body, more.Covers t) ∧
      (supply'.renameClause d).1.head = (supply.renameClause c).1.head.rename more.perm ∧
      (supply'.renameClause d).1.body =
        (supply.renameClause c).1.body.map (Term.rename more.perm) := by
  obtain ⟨ρ, inj, head, body⟩ := alike
  obtain ⟨more, extension, adds, within', named⟩ := within.exists_freshNames ρ inj
  have vars := Clause.vars_of_rename inj head body
  rw [← vars] at within' named
  have covers (x : Symbol) (member : x ∈ (supply.renameClause c).1.vars) : x ∈ more.names := by
    rw [NameSupply.renameClause_fst, Clause.mem_vars_instantiate] at member
    obtain ⟨y, inClause, inValue⟩ := member
    exact (named y inClause).1 x inValue
  have translated (t : Term) (member : t ∈ c.head.args ++ c.body) :
      (t.rename ρ).instantiate (supply'.freshNames d.vars).1.variable =
        (t.instantiate (supply.freshNames c.vars).1.variable).rename more.perm := by
    rw [Term.instantiate_rename, Term.rename_instantiate]
    apply Term.instantiate_congr
    intro x occurs
    exact (named x (Clause.mem_vars.2 ⟨t, member, occurs⟩)).2
  refine ⟨more, extension, adds, within', ?_, ?_, ?_⟩
  · intro t member x occurs
    exact covers x (Clause.mem_vars_of_mem_parts member occurs)
  · simp only [NameSupply.renameClause_fst, Clause.head_instantiate, Term.instantiate_app,
      Term.rename_app, head, Term.args_rename, Term.name_rename ρ c.head_not_var, List.map_map]
    congr 1
    exact List.map_congr_left fun t member => translated t (List.mem_append_left _ member)
  · simp only [NameSupply.renameClause_fst, Clause.body_instantiate, body, List.map_map]
    exact List.map_congr_left fun t member => translated t (List.mem_append_right _ member)

end Dictionary

/-! ## Mutual instances -/

/-- What leaves a term as it is leaves each of its variables as it is. -/
theorem Term.eq_var_of_instantiate_eq {t : Term} {σ : Symbol → Term}
    (same : t.instantiate σ = t) : ∀ x ∈ t.occurrences, σ x = .var x := by
  induction t with
  | atom name => simp
  | var y =>
    intro x occurs
    rw [instantiate_var] at same
    rwa [List.mem_singleton.1 occurs]
  | compound functor args ih =>
    intro x occurs
    rw [occurrences_compound, List.mem_flatMap] at occurs
    obtain ⟨arg, member, inArg⟩ := occurs
    rw [instantiate_compound, compound.injEq] at same
    have each : args.map (instantiate σ) = args.map id := by rw [same.2, List.map_id]
    exact ih arg member (List.map_inj_left.1 each arg member) x inArg

/-- Only a variable has a variable as an instance. -/
theorem Term.eq_var_of_instantiate_eq_var {t : Term} {σ : Symbol → Term} {x : Symbol}
    (same : t.instantiate σ = .var x) : ∃ y, t = .var y := by
  cases t with
  | atom name => simp at same
  | var y => exact ⟨y, rfl⟩
  | compound functor args => simp at same

/-- If the second values are instances of the first ones, and the first ones are instances of the
second ones, a renaming turns the first values into the second ones. -/
theorem exists_rename_of_instances {xs : List Symbol} {value value' ρ ρ' : Symbol → Term}
    (forth : ∀ x ∈ xs, value' x = (value x).instantiate ρ)
    (back : ∀ x ∈ xs, value x = (value' x).instantiate ρ') :
    ∃ π : Equiv.Perm Symbol, ∀ x ∈ xs, value' x = (value x).rename π := by
  let ys := xs.flatMap fun x => (value x).occurrences
  -- There and back again each variable is what it was, so it was a variable in between.
  have undone (y : Symbol) (member : y ∈ ys) : (ρ y).instantiate ρ' = .var y := by
    obtain ⟨x, inXs, occurs⟩ := List.mem_flatMap.1 member
    have same : (value x).instantiate (fun y => (ρ y).instantiate ρ') = value x := by
      rw [← Term.instantiate_instantiate, ← forth x inXs, ← back x inXs]
    exact Term.eq_var_of_instantiate_eq same y occurs
  choose! name named using fun y member => Term.eq_var_of_instantiate_eq_var (undone y member)
  have inj : ∀ y ∈ ys, ∀ z ∈ ys, name y = name z → y = z := by
    intro y inY z inZ same
    have equal : ρ y = ρ z := by rw [named y inY, named z inZ, same]
    have vars : Term.var y = .var z := by rw [← undone y inY, ← undone z inZ, equal]
    exact Term.var.inj vars
  obtain ⟨π, agree⟩ := Dictionary.exists_perm inj
  refine ⟨π, fun x inXs => ?_⟩
  rw [forth x inXs]
  refine Term.instantiate_congr fun y occurs => ?_
  have member : y ∈ ys := List.mem_flatMap.2 ⟨x, inXs, occurs⟩
  rw [named y member, agree y member]

end HornLogic
