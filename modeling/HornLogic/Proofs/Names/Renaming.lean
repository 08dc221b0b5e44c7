import HornLogic.Proofs.Names.Fresh

/-!
# Clauses renamed apart

Renaming a clause gives each of its variables a fresh name of its own. `FreshTable` collects what
the table of names is known to satisfy: it lists the variables of the clause, and the names in it
are different from each other, not used before and used afterwards.

Two things follow. The variables of the renamed clause are all new (`not_used_of_mem_renameClause`),
and yet the renamed clause has the same instances as the clause: whatever is to be put for its
variables can be put for their new names without touching any name in use
(`exists_instance_renameClause`).
-/

namespace HornLogic

/-! ## Instances of clauses -/

namespace Clause

@[simp] theorem head_instantiate (σ : Symbol → Term) (clause : Clause) :
    (clause.instantiate σ).head = (Term.app clause.head.name clause.head.args).instantiate σ := by
  simp [instantiate, Term.instantiateAll_eq_map]

@[simp] theorem body_instantiate (σ : Symbol → Term) (clause : Clause) :
    (clause.instantiate σ).body = clause.body.map (Term.instantiate σ) := by
  simp [instantiate, Term.instantiateAll_eq_map]

theorem mem_vars {clause : Clause} {x : Symbol} :
    x ∈ clause.vars ↔ ∃ t ∈ clause.head.args ++ clause.body, x ∈ t.occurrences :=
  Term.mem_varsAll

/-- The variables of an instance are those of the values of the variables. -/
theorem mem_vars_instantiate {clause : Clause} {σ : Symbol → Term} {x : Symbol} :
    x ∈ (clause.instantiate σ).vars ↔ ∃ y ∈ clause.vars, x ∈ (σ y).occurrences := by
  have parts : (clause.instantiate σ).head.args ++ (clause.instantiate σ).body =
      (clause.head.args ++ clause.body).map (Term.instantiate σ) := by
    simp
  simp only [mem_vars, parts, List.mem_map]
  constructor
  · rintro ⟨_, ⟨t, member, rfl⟩, occurs⟩
    obtain ⟨y, inTerm, inValue⟩ := Term.mem_occurrences_instantiate.1 occurs
    exact ⟨y, ⟨t, member, inTerm⟩, inValue⟩
  · rintro ⟨y, ⟨t, member, inTerm⟩, inValue⟩
    exact ⟨_, ⟨t, member, rfl⟩, Term.mem_occurrences_instantiate.2 ⟨y, inTerm, inValue⟩⟩

theorem mem_vars_of_mem_head {clause : Clause} {x : Symbol} (occurs : x ∈ clause.head.occurrences) :
    x ∈ clause.vars := by
  have notVar := clause.head_not_var
  cases shape : clause.head with
  | atom name => simp [shape] at occurs
  | var name => simp [shape, Term.isVar] at notVar
  | compound functor args =>
    rw [shape, Term.occurrences_compound, List.mem_flatMap] at occurs
    obtain ⟨t, member, inTerm⟩ := occurs
    exact mem_vars.2 ⟨t, by simp [shape, Term.args, member], inTerm⟩

theorem mem_vars_of_mem_body {clause : Clause} {goal : Term} (member : goal ∈ clause.body)
    {x : Symbol} (occurs : x ∈ goal.occurrences) : x ∈ clause.vars :=
  mem_vars.2 ⟨goal, List.mem_append_right _ member, occurs⟩

theorem mem_vars_of_mem_parts {clause : Clause} {t : Term} (member : t ∈ clause.head :: clause.body)
    {x : Symbol} (occurs : x ∈ t.occurrences) : x ∈ clause.vars := by
  rcases List.mem_cons.1 member with rfl | inBody
  · exact mem_vars_of_mem_head occurs
  · exact mem_vars_of_mem_body inBody occurs

/-- Instantiating twice is instantiating once, if the values of the variables agree. -/
theorem instantiate_instantiate_eq {clause : Clause} {σ τ ρ : Symbol → Term}
    (agree : ∀ x ∈ clause.vars, (σ x).instantiate τ = ρ x) :
    (clause.instantiate σ).instantiate τ = clause.instantiate ρ := by
  have both (t : Term) (member : t ∈ clause.head.args ++ clause.body) :
      (t.instantiate σ).instantiate τ = t.instantiate ρ := by
    rw [Term.instantiate_instantiate]
    exact Term.instantiate_congr fun x occurs => agree x (mem_vars.2 ⟨t, member, occurs⟩)
  apply Clause.ext
  · simp only [head_instantiate, Term.instantiate_app, Term.name_app, Term.args_app, List.map_map]
    congr 1
    exact List.map_congr_left fun t member => both t (List.mem_append_left _ member)
  · simp only [body_instantiate, List.map_map]
    exact List.map_congr_left fun t member => both t (List.mem_append_right _ member)

end Clause

namespace NameSupply

variable {supply supply' : NameSupply}

/-! ## Tables of fresh names -/

/-- The table gives each of the variables a name that the first supply has not used and the second
one has. -/
structure FreshTable (supply supply' : NameSupply) (xs : List Symbol) (table : Renaming) :
    Prop where
  keys : table.map Prod.fst = xs
  distinct : (table.map Prod.snd).Nodup
  fresh : ∀ name ∈ table.map Prod.snd, ¬ supply.Used name
  used : ∀ name ∈ table.map Prod.snd, supply'.Used name
  mono : ∀ x, supply.Used x → supply'.Used x

theorem freshTable_freshNames (supply : NameSupply) (xs : List Symbol) :
    FreshTable supply (supply.freshNames xs).2 xs (supply.freshNames xs).1 := by
  induction xs generalizing supply with
  | nil =>
    exact ⟨rfl, List.nodup_nil, by simp [freshNames], by simp [freshNames], fun _ used => used⟩
  | cons x xs ih =>
    have later := ih (supply.fresh x).2
    have usedNow := used_fresh supply x
    refine ⟨map_fst_freshNames supply (x :: xs), ?_, ?_, ?_, ?_⟩
    -- The name of `x` is used when the others are made, so none of them is the same.
    · show ((supply.fresh x).1 :: _).Nodup
      rw [List.nodup_cons]
      exact ⟨fun member => later.fresh _ member usedNow, later.distinct⟩
    · intro name member
      rcases List.mem_cons.1 member with rfl | member
      · exact not_used_fresh supply x
      · exact fun used => later.fresh name member (used.fresh x)
    · intro name member
      rcases List.mem_cons.1 member with rfl | member
      · exact later.mono _ usedNow
      · exact later.used name member
    · exact fun y used => later.mono y (used.fresh x)

theorem FreshTable.exists_name {xs : List Symbol} {table : Renaming}
    (fresh : FreshTable supply supply' xs table) {x : Symbol} (member : x ∈ xs) :
    ∃ name, (x, name) ∈ table ∧ table.variable x = .var name := by
  rw [← fresh.keys, List.mem_map] at member
  obtain ⟨⟨y, other⟩, inTable, rfl⟩ := member
  cases found : table.lookup y with
  | none =>
    have missing := List.lookup_eq_none_iff.1 found _ inTable
    simp at missing
  | some name =>
    obtain ⟨before, after, split, -⟩ := List.lookup_eq_some_iff.1 found
    refine ⟨name, ?_, by simp [Renaming.variable, found]⟩
    rw [split]
    exact List.mem_append_right _ List.mem_cons_self

/-- A name stands for one variable only. -/
theorem FreshTable.eq_of_name_eq {xs : List Symbol} {table : Renaming}
    (fresh : FreshTable supply supply' xs table) {x y name : Symbol} (first : (x, name) ∈ table)
    (second : (y, name) ∈ table) : x = y :=
  congrArg Prod.fst (List.inj_on_of_nodup_map fresh.distinct first second rfl)

/-- Values for the variables can be given to their names, and values of used names kept. -/
theorem FreshTable.exists_assignment {xs : List Symbol} {table : Renaming}
    (fresh : FreshTable supply supply' xs table) (ρ θ : Symbol → Term) :
    ∃ θ' : Symbol → Term, (∀ x, supply.Used x → θ' x = θ x) ∧
      ∀ x ∈ xs, (table.variable x).instantiate θ' = ρ x := by
  classical
  -- Names in the table take the value of their variable, all others keep theirs.
  refine ⟨fun name => if named : ∃ x, (x, name) ∈ table then ρ named.choose else θ name, ?_, ?_⟩
  · intro name used
    apply dif_neg
    rintro ⟨x, member⟩
    exact fresh.fresh name (List.mem_map_of_mem member) used
  · intro x member
    obtain ⟨name, inTable, replaced⟩ := fresh.exists_name member
    have named : ∃ y, (y, name) ∈ table := ⟨x, inTable⟩
    rw [replaced, Term.instantiate_var, dif_pos named,
      fresh.eq_of_name_eq named.choose_spec inTable]

/-! ## Renamed clauses -/

theorem freshTable_renameClause (supply : NameSupply) (clause : Clause) :
    FreshTable supply (supply.renameClause clause).2 clause.vars
      (supply.freshNames clause.vars).1 :=
  freshTable_freshNames supply clause.vars

theorem renameClause_fst (supply : NameSupply) (clause : Clause) :
    (supply.renameClause clause).1 =
      clause.instantiate (supply.freshNames clause.vars).1.variable := rfl

theorem mem_names_of_mem_renameClause {clause : Clause} {x : Symbol}
    (member : x ∈ (supply.renameClause clause).1.vars) :
    x ∈ (supply.freshNames clause.vars).1.map Prod.snd := by
  rw [renameClause_fst, Clause.mem_vars_instantiate] at member
  obtain ⟨y, inClause, inValue⟩ := member
  obtain ⟨name, inTable, replaced⟩ :=
    (freshTable_renameClause supply clause).exists_name inClause
  rw [replaced] at inValue
  obtain rfl : x = name := by simpa using inValue
  exact List.mem_map_of_mem inTable

/-- The variables of a renamed clause are new. -/
theorem not_used_of_mem_renameClause {clause : Clause} {x : Symbol}
    (member : x ∈ (supply.renameClause clause).1.vars) : ¬ supply.Used x :=
  (freshTable_renameClause supply clause).fresh x (mem_names_of_mem_renameClause member)

theorem used_of_mem_renameClause {clause : Clause} {x : Symbol}
    (member : x ∈ (supply.renameClause clause).1.vars) :
    (supply.renameClause clause).2.Used x :=
  (freshTable_renameClause supply clause).used x (mem_names_of_mem_renameClause member)

theorem Used.renameClause {x : Symbol} (used : supply.Used x) (clause : Clause) :
    (supply.renameClause clause).2.Used x :=
  (freshTable_renameClause supply clause).mono x used

/-- Every instance of a clause is an instance of the renamed clause, by values that leave the
names in use alone. -/
theorem exists_instance_renameClause (supply : NameSupply) (clause : Clause)
    (ρ θ : Symbol → Term) :
    ∃ θ' : Symbol → Term, (∀ x, supply.Used x → θ' x = θ x) ∧
      (supply.renameClause clause).1.instantiate θ' = clause.instantiate ρ := by
  obtain ⟨θ', kept, given⟩ := (freshTable_renameClause supply clause).exists_assignment ρ θ
  exact ⟨θ', kept, Clause.instantiate_instantiate_eq given⟩

@[simp] theorem reserved_freshNames (supply : NameSupply) (xs : List Symbol) :
    (supply.freshNames xs).2.reserved = supply.reserved := by
  induction xs generalizing supply with
  | nil => rfl
  | cons x xs ih =>
    rw [← reserved_fresh supply x]
    exact ih (supply.fresh x).2

@[simp] theorem reserved_renameClause (supply : NameSupply) (clause : Clause) :
    (supply.renameClause clause).2.reserved = supply.reserved :=
  reserved_freshNames supply clause.vars

/-! ## Terms all of whose variables are in use -/

/-- All variables of the term are in use. -/
def Covers (supply : NameSupply) (t : Term) : Prop :=
  ∀ x ∈ t.occurrences, supply.Used x

theorem Covers.arg (f : Symbol) (args : List Term) (covers : supply.Covers (.compound f args))
    (arg : Term) (member : arg ∈ args) : supply.Covers arg :=
  fun x occurs => covers x (Term.mem_occurrences_of_mem_args member occurs)

theorem covers_head_renameClause (supply : NameSupply) (clause : Clause) :
    (supply.renameClause clause).2.Covers (supply.renameClause clause).1.head :=
  fun _ occurs => used_of_mem_renameClause (Clause.mem_vars_of_mem_head occurs)

theorem covers_body_renameClause (supply : NameSupply) (clause : Clause) {goal : Term}
    (member : goal ∈ (supply.renameClause clause).1.body) :
    (supply.renameClause clause).2.Covers goal :=
  fun _ occurs => used_of_mem_renameClause (Clause.mem_vars_of_mem_body member occurs)

end NameSupply

end HornLogic
