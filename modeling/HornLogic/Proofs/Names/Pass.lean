import HornLogic.Proofs.Names.Renaming

/-!
# Renaming in one pass

A clause can be renamed as it is read, from left to right, without its variables being listed first.
The pass keeps the names it has given so far. A variable that has been met before gets the name it
was given then, and any other one gets a fresh name at once. So the supply and the table of names go
from argument to argument and from the head to the body.

This leads to the same clause and to the same supply (`renameClause_eq_pass`). The fresh names are
taken from the supply in order of first occurrence. And a name that was given stays, so it makes no
difference whether the table is used while it grows or when it is complete. A single term is renamed
in this way as well (`rename_eq_pass`).
-/

namespace HornLogic.NameSupply

/-- How far a pass has got: the names given to the variables that were met, and the supply left. -/
structure Pass where
  table : Renaming
  supply : NameSupply

namespace Pass

/-- A pass that has met no variable yet. -/
def start (supply : NameSupply) : Pass := { table := [], supply }

/-- The name of a variable that is met, and the pass after it. -/
def name (pass : Pass) (x : Symbol) : Symbol × Pass :=
  match pass.table.lookup x with
  | some name => (name, pass)
  | none =>
    let (name, supply) := pass.supply.fresh x
    (name, { table := pass.table ++ [(x, name)], supply })

mutual

/-- Renames a term on the way. -/
def term (pass : Pass) : Term → Term × Pass
  | .atom name => (.atom name, pass)
  | .var x =>
    let (name, pass) := pass.name x
    (.var name, pass)
  | .compound functor args =>
    let (args, pass) := pass.terms args
    (.compound functor args, pass)

def terms (pass : Pass) : List Term → List Term × Pass
  | [] => ([], pass)
  | t :: ts =>
    let (t, pass) := pass.term t
    let (ts, pass) := pass.terms ts
    (t :: ts, pass)

end

/-- Renames the arguments of the head and then the body. -/
def clause (pass : Pass) (clause : Clause) : Clause × Pass :=
  let (args, pass) := pass.terms clause.head.args
  let (body, pass) := pass.terms clause.body
  (.ofParts clause.head.name args body, pass)

/-- The pass after the listed variables were met. -/
def meet (pass : Pass) (xs : List Symbol) : Pass := xs.foldl (fun pass x => (pass.name x).2) pass

variable {pass : Pass} {x y : Symbol} {xs : List Symbol}

/-! ## Names that were given -/

theorem name_of_known {known : Symbol} (found : pass.table.lookup x = some known) :
    pass.name x = (known, pass) := by
  simp [name, found]

theorem name_of_new (new : pass.table.lookup x = none) :
    pass.name x = ((pass.supply.fresh x).1,
      { table := pass.table ++ [(x, (pass.supply.fresh x).1)]
        supply := (pass.supply.fresh x).2 }) := by
  simp [name, new]

theorem lookup_name (pass : Pass) (x : Symbol) :
    (pass.name x).2.table.lookup x = some (pass.name x).1 := by
  cases found : pass.table.lookup x with
  | some known => simp [name_of_known found, found]
  | none => simp [name_of_new found, List.lookup_append, found]

/-- A name that was given stays. -/
theorem lookup_name_of_found {given : Symbol} (found : pass.table.lookup y = some given) :
    (pass.name x).2.table.lookup y = some given := by
  cases known : pass.table.lookup x with
  | some other => simp [name_of_known known, found]
  | none => simp [name_of_new known, List.lookup_append, found]

theorem lookup_meet_of_found {given : Symbol} (found : pass.table.lookup y = some given)
    (xs : List Symbol) : (pass.meet xs).table.lookup y = some given := by
  induction xs generalizing pass with
  | nil => exact found
  | cons x xs ih => exact ih (lookup_name_of_found found)

theorem exists_lookup_meet (pass : Pass) (member : x ∈ xs) :
    ∃ given, (pass.meet xs).table.lookup x = some given := by
  induction xs generalizing pass with
  | nil => nomatch member
  | cons y xs ih =>
    cases member with
    | head => exact ⟨_, lookup_meet_of_found (pass.lookup_name x) xs⟩
    | tail _ later => exact ih (pass.name y).2 later

theorem meet_append (pass : Pass) (xs ys : List Symbol) :
    pass.meet (xs ++ ys) = (pass.meet xs).meet ys :=
  List.foldl_append

/-- What was renamed by a table is renamed by the larger table to the same. -/
theorem instantiate_meet (pass : Pass) {t : Term} (met : ∀ x ∈ t.occurrences, x ∈ xs)
    (ys : List Symbol) :
    t.instantiate (pass.meet (xs ++ ys)).table.variable =
      t.instantiate (pass.meet xs).table.variable := by
  refine Term.instantiate_congr fun x occurs => ?_
  obtain ⟨given, found⟩ := pass.exists_lookup_meet (met x occurs)
  have later := lookup_meet_of_found found ys
  rw [← meet_append] at later
  simp only [Renaming.variable, found, later]

/-! ## The renamed terms -/

private theorem terms_eq_of_each {ts : List Term}
    (each : ∀ t ∈ ts, ∀ pass : Pass, pass.term t =
      (t.instantiate (pass.meet t.occurrences).table.variable, pass.meet t.occurrences))
    (pass : Pass) : pass.terms ts =
      (ts.map (Term.instantiate (pass.meet (ts.flatMap Term.occurrences)).table.variable),
        pass.meet (ts.flatMap Term.occurrences)) := by
  induction ts generalizing pass with
  | nil => rfl
  | cons t ts ih =>
    have first := each t List.mem_cons_self pass
    have rest := ih (fun u member => each u (List.mem_cons_of_mem _ member))
      (pass.meet t.occurrences)
    rw [← meet_append] at rest
    simp only [terms, first, rest, List.map_cons, List.flatMap_cons,
      pass.instantiate_meet (fun x occurs => occurs) (ts.flatMap Term.occurrences)]

/-- A term comes out as the instance by the table as it is after the term. -/
theorem term_eq (pass : Pass) (t : Term) : pass.term t =
    (t.instantiate (pass.meet t.occurrences).table.variable, pass.meet t.occurrences) := by
  induction t generalizing pass with
  | atom name => simp [term, meet]
  | var x =>
    have given := pass.lookup_name x
    simp only [term, Term.occurrences_var, meet, List.foldl_cons, List.foldl_nil,
      Term.instantiate_var, Renaming.variable, given, Option.getD_some]
  | compound functor args ih =>
    rw [term, terms_eq_of_each ih, Term.instantiate_compound, Term.occurrences_compound]

theorem terms_eq (pass : Pass) (ts : List Term) : pass.terms ts =
    (ts.map (Term.instantiate (pass.meet (ts.flatMap Term.occurrences)).table.variable),
      pass.meet (ts.flatMap Term.occurrences)) :=
  terms_eq_of_each (fun t _ pass => pass.term_eq t) pass

/-- A clause comes out as the instance by the table as it is in the end. -/
theorem clause_eq (pass : Pass) (clause : Clause) : pass.clause clause =
    let met := pass.meet ((clause.head.args ++ clause.body).flatMap Term.occurrences)
    (clause.instantiate met.table.variable, met) := by
  let inArgs := clause.head.args.flatMap Term.occurrences
  let inBody := clause.body.flatMap Term.occurrences
  -- The arguments are renamed when only their own variables have been met.
  have earlier : clause.head.args.map (Term.instantiate (pass.meet inArgs).table.variable) =
      clause.head.args.map (Term.instantiate (pass.meet (inArgs ++ inBody)).table.variable) := by
    refine List.map_congr_left fun arg member => (pass.instantiate_meet ?_ inBody).symm
    exact fun x occurs => List.mem_flatMap.2 ⟨arg, member, occurs⟩
  have args : pass.terms clause.head.args =
      (clause.head.args.map (Term.instantiate (pass.meet (inArgs ++ inBody)).table.variable),
        pass.meet inArgs) := by
    rw [← earlier]
    exact pass.terms_eq clause.head.args
  have body := (pass.meet inArgs).terms_eq clause.body
  rw [← meet_append] at body
  simp only [Pass.clause, args, body, List.flatMap_append, Clause.instantiate,
    Term.instantiateAll_eq_map]
  rfl

/-! ## The order of the names -/

/-- The variables that are new are given the fresh names, in the order in which they are met. -/
theorem exists_meet_eq (pass : Pass) (xs : List Symbol) :
    ∃ new, xs.foldl addName (pass.table.map Prod.fst) = pass.table.map Prod.fst ++ new ∧
      pass.meet xs = { table := pass.table ++ (pass.supply.freshNames new).1
                       supply := (pass.supply.freshNames new).2 } := by
  induction xs generalizing pass with
  | nil => exact ⟨[], by simp, by simp [meet, freshNames]⟩
  | cons x xs ih =>
    cases found : pass.table.lookup x with
    | some known =>
      have listed : x ∈ pass.table.map Prod.fst := by
        obtain ⟨before, after, split, -⟩ := List.lookup_eq_some_iff.1 found
        simp [split]
      obtain ⟨new, names, passed⟩ := ih pass
      refine ⟨new, ?_, ?_⟩
      · rw [List.foldl_cons, addName, if_pos listed, names]
      · rw [meet, List.foldl_cons, name_of_known found]
        exact passed
    | none =>
      have unlisted : x ∉ pass.table.map Prod.fst := by
        intro listed
        obtain ⟨entry, inTable, rfl⟩ := List.mem_map.1 listed
        simpa using List.lookup_eq_none_iff.1 found entry inTable
      obtain ⟨new, names, passed⟩ := ih (pass.name x).2
      rw [name_of_new found] at names passed
      rw [List.map_append, List.map_singleton] at names
      refine ⟨x :: new, ?_, ?_⟩
      · rw [List.foldl_cons, addName, if_neg unlisted, names, List.append_assoc]
        rfl
      · rw [meet, List.foldl_cons, name_of_new found]
        refine passed.trans ?_
        rw [List.append_assoc]
        rfl

/-- A term that is renamed on the way adds its variables to the table as collecting adds them to a
list. -/
theorem map_fst_term (pass : Pass) (t : Term) :
    (pass.term t).2.table.map Prod.fst = t.collectVars (pass.table.map Prod.fst) := by
  obtain ⟨new, names, passed⟩ := pass.exists_meet_eq t.occurrences
  rw [term_eq, passed, Term.collectVars_eq_foldl, names, List.map_append, map_fst_freshNames]

end Pass

/-- To rename a term in one pass gives the same term, and leaves the same supply. -/
theorem rename_eq_pass (supply : NameSupply) (t : Term) :
    supply.rename t =
      (((Pass.start supply).term t).1, ((Pass.start supply).term t).2.supply) := by
  obtain ⟨new, names, passed⟩ := (Pass.start supply).exists_meet_eq t.occurrences
  have listed : t.vars = new := by
    rw [Term.vars, Term.collectVars_eq_foldl]
    exact names
  rw [Pass.term_eq, passed, ← listed]
  rfl

/-- To rename a clause in one pass gives the same clause, and leaves the same supply. -/
theorem renameClause_eq_pass (supply : NameSupply) (clause : Clause) :
    supply.renameClause clause =
      (((Pass.start supply).clause clause).1, ((Pass.start supply).clause clause).2.supply) := by
  obtain ⟨new, names, passed⟩ :=
    (Pass.start supply).exists_meet_eq ((clause.head.args ++ clause.body).flatMap Term.occurrences)
  have listed : clause.vars = new := by
    rw [Clause.vars, Term.varsAll_eq_foldl]
    exact names
  rw [Pass.clause_eq, passed, ← listed]
  rfl

end HornLogic.NameSupply
