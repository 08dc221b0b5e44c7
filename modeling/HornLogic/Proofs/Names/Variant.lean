import HornLogic.Proofs.Names.Pass
import HornLogic.Proofs.Names.Translation

/-!
# Variants

A renamed clause is the clause under new names: one map replaces the variables of head and body, and
no two of them by the same name.

The numbers in the names are found by trying one after another, for the variables in order of first
occurrence (`Numbering`). A number is skipped if it would make a reserved name, and otherwise the
variable has it, and the next variable goes on from there. So the numbers increase, they lie between
the counters before and after, and the counter moves by one for each variable and for each reserved
name that was skipped.

When a clause is renamed again, at any time as long as the supply is not reset, all its names are
others than the first time, and the two clauses differ in nothing but these
(`renameClause_variant`).
-/

namespace HornLogic.NameSupply

/-! ## Numbers for the variables -/

/-- Numbers are tried from `n` on for the listed variables. The table has the names they get, and
`skipped` the names that are not given because they are reserved. The next number would be `m`. -/
inductive Numbering (reserved : List Symbol) :
    (n : Nat) → List Symbol → Renaming → (skipped : List Symbol) → (m : Nat) → Prop where
  | done (n : Nat) : Numbering reserved n [] [] [] n
  | skip {n m : Nat} {x : Symbol} {xs skipped : List Symbol} {table : Renaming} :
      numbered (stem x) n ∈ reserved → Numbering reserved (n + 1) (x :: xs) table skipped m →
      Numbering reserved n (x :: xs) table (numbered (stem x) n :: skipped) m
  | give {n m : Nat} {x : Symbol} {xs skipped : List Symbol} {table : Renaming} :
      numbered (stem x) n ∉ reserved → Numbering reserved (n + 1) xs table skipped m →
      Numbering reserved n (x :: xs) ((x, numbered (stem x) n) :: table) skipped m

namespace Numbering

variable {reserved xs skipped : List Symbol} {n m : Nat} {table : Renaming}

/-- Every number that is tried is given or skipped. -/
theorem end_eq (numbering : Numbering reserved n xs table skipped m) :
    m = n + xs.length + skipped.length := by
  induction numbering with
  | done n => rfl
  | @skip n m x xs skipped table _ _ ih =>
    rw [List.length_cons] at ih ⊢
    rw [List.length_cons]
    omega
  | give _ _ ih =>
    rw [List.length_cons]
    omega

theorem not_reserved (numbering : Numbering reserved n xs table skipped m) :
    ∀ entry ∈ table, entry.2 ∉ reserved := by
  induction numbering with
  | done n => exact nofun
  | skip _ _ ih => exact ih
  | give free _ ih => exact List.forall_mem_cons.2 ⟨free, ih⟩

/-- The numbers given increase from the first that may be tried to the last that was. -/
theorem exists_numbers (numbering : Numbering reserved n xs table skipped m) :
    ∃ numbers : List Nat,
      table = List.zipWith (fun x number => (x, numbered (stem x) number)) xs numbers ∧
      numbers.length = xs.length ∧
      numbers.Pairwise (· < ·) ∧ ∀ number ∈ numbers, n ≤ number ∧ number < m := by
  induction numbering with
  | done n => exact ⟨[], rfl, rfl, .nil, nofun⟩
  | skip _ _ ih =>
    obtain ⟨numbers, names, length, increasing, between⟩ := ih
    refine ⟨numbers, names, length, increasing, fun number member => ?_⟩
    have bounds := between number member
    omega
  | @give n m x xs skipped table _ rest ih =>
    obtain ⟨numbers, names, length, increasing, between⟩ := ih
    refine ⟨n :: numbers, by rw [names]; rfl, by simp [length], ?_, ?_⟩
    · refine List.pairwise_cons.2 ⟨fun number member => ?_, increasing⟩
      exact (between number member).1
    · have last := rest.end_eq
      refine List.forall_mem_cons.2 ⟨by omega, fun number member => ?_⟩
      have bounds := between number member
      omega

/-- Numbers of reserved names are skipped one after another. -/
theorem skip_until {x : Symbol} {first : Nat} (le : n ≤ first)
    (taken : ∀ number, n ≤ number → number < first → numbered (stem x) number ∈ reserved)
    (rest : Numbering reserved first (x :: xs) table skipped m) :
    ∃ skipped, Numbering reserved n (x :: xs) table skipped m := by
  induction le using Nat.decreasingInduction with
  | self => exact ⟨skipped, rest⟩
  | of_succ n below ih =>
    obtain ⟨more, numbering⟩ := ih fun number atLeast => taken number (Nat.le_of_succ_le atLeast)
    exact ⟨_, .skip (taken n (Nat.le_refl n) below) numbering⟩

end Numbering

/-- Fresh names are numbered in this way. -/
theorem exists_numbering (supply : NameSupply) (xs : List Symbol) :
    ∃ skipped, Numbering supply.reserved supply.counter xs (supply.freshNames xs).1 skipped
      (supply.freshNames xs).2.counter := by
  induction xs generalizing supply with
  | nil => exact ⟨[], .done _⟩
  | cons x xs ih =>
    obtain ⟨skipped, later⟩ := ih (supply.fresh x).2
    have free := firstFree_not_reserved supply.reserved (stem x) supply.counter
    exact Numbering.skip_until (le_firstFree _ _ _ _)
      (fun _ atLeast before => reserved_of_lt_firstFree atLeast before) (.give free later)

/-! ## Renaming again -/

/-- The second supply comes from the first one by giving out names, for whatever they are used. -/
inductive Later (supply : NameSupply) : NameSupply → Prop where
  | refl : Later supply supply
  | fresh {later : NameSupply} (name : Symbol) : Later supply later →
      Later supply (later.fresh name).2
  | rename {later : NameSupply} (t : Term) : Later supply later → Later supply (later.rename t).2
  | renameClause {later : NameSupply} (clause : Clause) : Later supply later →
      Later supply (later.renameClause clause).2

/-- A used name stays used. -/
theorem Later.used {supply later : NameSupply} (since : Later supply later) {x : Symbol}
    (used : supply.Used x) : later.Used x := by
  induction since with
  | refl => exact used
  | fresh name _ ih => exact ih.fresh name
  | rename t _ ih => exact (freshTable_freshNames _ t.vars).mono x ih
  | renameClause clause _ ih => exact ih.renameClause clause

/-- Renamed from any two supplies, a clause is the same up to names. -/
theorem alike_renameClause (supply supply' : NameSupply) (clause : Clause) :
    (supply.renameClause clause).1.Alike (supply'.renameClause clause).1 := by
  let dict : Dictionary := { names := ∅, perm := Equiv.refl Symbol }
  have within : dict.Within supply supply' := nofun
  obtain ⟨more, -, -, -, -, head, body⟩ := within.exists_renameClause (.refl clause)
  exact ⟨more.perm, fun x _ y _ same => more.perm.injective same, head, body⟩

/-! ## The renamed clause -/

/-- A table of fresh names for distinct variables gives each of them the name it is found by. -/
theorem FreshTable.eq_map {supply supply' : NameSupply} {xs : List Symbol} {table : Renaming}
    (fresh : FreshTable supply supply' xs table) (nodup : xs.Nodup) :
    table = xs.map fun x => (x, (table.lookup x).getD x) := by
  have keys : (table.map Prod.fst).Nodup := fresh.keys.symm ▸ nodup
  have found : ∀ entry ∈ table, (table.lookup entry.1).getD entry.1 = entry.2 := by
    intro entry member
    have listed : entry.1 ∈ xs := fresh.keys ▸ List.mem_map_of_mem member
    obtain ⟨name, inTable, replaced⟩ := fresh.exists_name listed
    have same : (entry.1, name) = entry := List.inj_on_of_nodup_map keys inTable member rfl
    exact (Term.var.inj replaced).trans (congrArg Prod.snd same)
  calc table
      = table.map fun entry => (entry.1, (table.lookup entry.1).getD entry.1) := by
        rw [List.map_congr_left fun entry member => by rw [found entry member], List.map_id']
    _ = xs.map fun x => (x, (table.lookup x).getD x) := by
        rw [← fresh.keys, List.map_map]
        rfl

/-- No two of the variables get the same name. -/
theorem FreshTable.injective {supply supply' : NameSupply} {xs : List Symbol} {table : Renaming}
    (fresh : FreshTable supply supply' xs table) (nodup : xs.Nodup) :
    ∀ x ∈ xs, ∀ y ∈ xs, (table.lookup x).getD x = (table.lookup y).getD y → x = y := by
  intro x inX y inY same
  have inTable (z : Symbol) (member : z ∈ xs) : (z, (table.lookup z).getD z) ∈ table := by
    have listed : (z, (table.lookup z).getD z) ∈ xs.map fun x => (x, (table.lookup x).getD x) :=
      List.mem_map_of_mem member
    rwa [← fresh.eq_map nodup] at listed
  exact fresh.eq_of_name_eq (inTable x inX) (same ▸ inTable y inY)

/-- The clause was renamed by the map, and the supply has gone on by the numbers that were tried. -/
structure RenamedBy (ρ : Symbol → Symbol) (supply : NameSupply) (clause renamed : Clause)
    (supply' : NameSupply) : Prop where
  replaced : renamed = .ofParts clause.head.name (clause.head.args.map (Term.rename ρ))
    (clause.body.map (Term.rename ρ))
  injective : ∀ x ∈ clause.vars, ∀ y ∈ clause.vars, ρ x = ρ y → x = y
  /-- In order of first occurrence the variables have increasing numbers. -/
  increasing : ∃ numbers : List Nat, numbers.length = clause.vars.length ∧
    clause.vars.map ρ =
      List.zipWith (fun x number => numbered (stem x) number) clause.vars numbers ∧
    numbers.Pairwise (· < ·) ∧
    ∀ number ∈ numbers, supply.counter ≤ number ∧ number < supply'.counter
  unreserved : ∀ x ∈ clause.vars, ρ x ∉ supply.reserved
  counted : ∃ skipped, Numbering supply.reserved supply.counter clause.vars
      (clause.vars.map fun x => (x, ρ x)) skipped supply'.counter ∧
    supply'.counter = supply.counter + clause.vars.length + skipped.length

theorem exists_renamedBy (supply : NameSupply) (clause : Clause) :
    ∃ ρ, RenamedBy ρ supply clause (supply.renameClause clause).1
      (supply.renameClause clause).2 := by
  have fresh := freshTable_renameClause supply clause
  have listed := fresh.eq_map (Term.nodup_varsAll _)
  obtain ⟨skipped, numbering⟩ := supply.exists_numbering clause.vars
  let ρ : Symbol → Symbol := fun x => ((supply.freshNames clause.vars).1.lookup x).getD x
  have entries : (supply.freshNames clause.vars).1 = clause.vars.map fun x => (x, ρ x) := listed
  refine ⟨ρ, ?_, ?_, ?_, ?_, ?_⟩
  · rw [renameClause_fst, Clause.instantiate, Term.instantiateAll_eq_map,
      Term.instantiateAll_eq_map]
    rfl
  · exact fresh.injective (Term.nodup_varsAll _)
  · obtain ⟨numbers, names, length, increasing, between⟩ := numbering.exists_numbers
    refine ⟨numbers, length, ?_, increasing, between⟩
    have snd := congrArg (List.map Prod.snd) (entries.symm.trans names)
    rw [List.map_map, List.map_zipWith] at snd
    exact snd
  · intro x member
    have inTable : (x, ρ x) ∈ (supply.freshNames clause.vars).1 :=
      entries ▸ List.mem_map_of_mem member
    exact numbering.not_reserved _ inTable
  · rw [entries] at numbering
    exact ⟨skipped, numbering, numbering.end_eq⟩

/-- Renaming a clause makes a variant of it. To read the clause from left to right and to name its
variables on the way gives the same. One map replaces the variables of head and body, each by a name
of its own that is not reserved, with numbers that increase in order of first occurrence. The
counter moves by one for each variable and for each reserved name that was skipped. And if the
clause is renamed again at any later time, the second variant is the first one under other names,
and they have no variable in common. -/
theorem renameClause_variant (supply : NameSupply) (clause : Clause) :
    clause.vars = ((clause.head.args ++ clause.body).flatMap Term.occurrences).eraseDups ∧
    supply.renameClause clause =
      (((Pass.start supply).clause clause).1, ((Pass.start supply).clause clause).2.supply) ∧
    (∃ ρ, RenamedBy ρ supply clause (supply.renameClause clause).1
      (supply.renameClause clause).2) ∧
    ∀ later, Later (supply.renameClause clause).2 later →
      (supply.renameClause clause).1.Alike (later.renameClause clause).1 ∧
      ∀ x ∈ (supply.renameClause clause).1.vars, x ∉ (later.renameClause clause).1.vars := by
  refine ⟨Term.varsAll_eq_eraseDups _, renameClause_eq_pass supply clause,
    exists_renamedBy supply clause, fun later since => ?_⟩
  refine ⟨alike_renameClause supply later clause, fun x first second => ?_⟩
  exact not_used_of_mem_renameClause second (since.used (used_of_mem_renameClause first))

/-- The rule `p(X, X#0, f(X)) :- q(X#0#1)` has three variables with the stem `X`. While `X#1` is
reserved, they get the numbers 0, 2 and 3. -/
theorem renameClause_variant_hash :
    let clause := Clause.ofParts "p"
      [.var "X", .var "X#0", .compound "f" [.var "X"]] [.compound "q" [.var "X#0#1"]]
    let supply := NameSupply.avoiding ["X#1"]
    let later := ((supply.renameClause clause).2.fresh "Y").2
    (supply.renameClause clause).1 = Clause.ofParts "p"
        [.var "X#0", .var "X#2", .compound "f" [.var "X#0"]] [.compound "q" [.var "X#3"]] ∧
      (later.renameClause clause).1 = Clause.ofParts "p"
        [.var "X#5", .var "X#6", .compound "f" [.var "X#5"]] [.compound "q" [.var "X#7"]] ∧
      (supply.renameClause clause).1.Alike (later.renameClause clause).1 := by
  intro clause supply later
  obtain ⟨-, -, -, again⟩ := renameClause_variant supply clause
  exact ⟨by decide +kernel, by decide +kernel, (again later (.fresh "Y" .refl)).1⟩

end HornLogic.NameSupply
