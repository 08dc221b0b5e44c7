import HornLogic.Proofs.Names.Variant
import HornLogic.Search.Basic

/-!
# The variables that are collected

Three procedures go through a term for its variables, each on its own: they are collected, they are
renamed on the way, or it is tested whether there are any. All three find the same variables
(`RenamedAsCollected`), and collecting lists them from left to right (`collectVars_appends_new`).

What that means is said by the places at which variables stand. A place is given by its position,
the numbers of the arguments on the way down to it (`StandsAt`). Positions are compared like words
in a dictionary, so the lesser position is the one further left. One variable is listed before
another one if it stands somewhere further left than the other one ever does (`Before`).

The occurrences are in between, which list the variables from left to right with repetitions. What
comes first among them stands furthest left (`before_of_idxOf_lt`), and collecting keeps of each
variable the first occurrence (`pairwise_idxOf_eraseDups`).
-/

namespace HornLogic.Term

open NameSupply (Pass)

/-! ## Where variables stand -/

/-- The variable stands at the position, which has the number of an argument for each compound on
the way down. -/
inductive StandsAt (x : Symbol) : Term → List Nat → Prop where
  | var : StandsAt x (.var x) []
  | arg {functor : Symbol} {args : List Term} {t : Term} {i : Nat} {position : List Nat} :
      args[i]? = some t → StandsAt x t position →
      StandsAt x (.compound functor args) (i :: position)

/-- The first variable stands somewhere further left than the second one ever does. -/
def Before (t : Term) (x y : Symbol) : Prop :=
  ∃ position, t.StandsAt x position ∧ ∀ other, t.StandsAt y other → position < other

/-- The list has the variables of the term that are not among those seen, each once, and from left
to right. -/
structure NewVars (t : Term) (seen new : List Symbol) : Prop where
  mem_iff : ∀ x, x ∈ new ↔ (∃ position, t.StandsAt x position) ∧ x ∉ seen
  nodup : new.Nodup
  ordered : new.Pairwise t.Before

variable {t : Term} {ts : List Term} {functor x y : Symbol}

theorem mem_occurrences_iff : x ∈ t.occurrences ↔ ∃ position, t.StandsAt x position := by
  induction t with
  | atom name =>
    constructor
    · simp
    · rintro ⟨_, ⟨⟩⟩
  | var name =>
    rw [occurrences_var, List.mem_singleton]
    constructor
    · rintro rfl
      exact ⟨[], .var⟩
    · rintro ⟨_, ⟨⟩⟩
      rfl
  | compound functor args ih =>
    rw [occurrences_compound, List.mem_flatMap]
    constructor
    · rintro ⟨t, member, occurs⟩
      obtain ⟨i, found⟩ := List.getElem?_of_mem member
      obtain ⟨position, stands⟩ := (ih t member).1 occurs
      exact ⟨i :: position, .arg found stands⟩
    · rintro ⟨position, stands⟩
      cases stands with
      | arg found stands =>
        have member := List.mem_of_getElem? found
        exact ⟨_, member, (ih _ member).2 ⟨_, stands⟩⟩

/-- A variable of a compound stands in the first argument or in a later one. -/
theorem standsAt_cons_iff {position : List Nat} :
    (compound functor (t :: ts)).StandsAt x position ↔
      (∃ inner, position = 0 :: inner ∧ t.StandsAt x inner) ∨
      ∃ i inner, position = (i + 1) :: inner ∧ (compound functor ts).StandsAt x (i :: inner) := by
  constructor
  · intro stands
    cases stands with
    | @arg _ _ u i inner found stands =>
      cases i with
      | zero =>
        obtain rfl : t = u := Option.some.inj found
        exact .inl ⟨inner, rfl, stands⟩
      | succ i => exact .inr ⟨i, inner, rfl, .arg found stands⟩
  · rintro (⟨inner, rfl, stands⟩ | ⟨i, inner, rfl, stands⟩)
    · exact .arg rfl stands
    · cases stands with
      | arg found stands => exact .arg found stands

/-- What comes before in the first argument does so in the compound. -/
theorem Before.first (before : t.Before x y) : (compound functor (t :: ts)).Before x y := by
  obtain ⟨position, stands, leftmost⟩ := before
  refine ⟨0 :: position, standsAt_cons_iff.2 (.inl ⟨position, rfl, stands⟩), ?_⟩
  intro other standsOther
  rcases standsAt_cons_iff.1 standsOther with ⟨inner, rfl, standsY⟩ | ⟨i, inner, rfl, -⟩
  · exact List.cons_lt_cons_iff.2 (.inr ⟨rfl, leftmost inner standsY⟩)
  · exact List.cons_lt_cons_iff.2 (.inl (Nat.succ_pos i))

/-- What comes before in the later arguments does so in the compound, if the other variable is not
in the first argument. -/
theorem Before.later (before : (compound functor ts).Before x y) (absent : y ∉ t.occurrences) :
    (compound functor (t :: ts)).Before x y := by
  obtain ⟨position, stands, leftmost⟩ := before
  cases stands with
  | @arg _ _ u i position found stands =>
    refine ⟨(i + 1) :: position, .arg found stands, ?_⟩
    intro other standsOther
    rcases standsAt_cons_iff.1 standsOther with ⟨inner, rfl, standsY⟩ | ⟨j, inner, rfl, standsY⟩
    · exact absurd (mem_occurrences_iff.2 ⟨inner, standsY⟩) absent
    · have lt := leftmost (j :: inner) standsY
      rw [List.cons_lt_cons_iff] at lt ⊢
      exact lt.imp Nat.succ_lt_succ fun tie => ⟨congrArg Nat.succ tie.1, tie.2⟩

/-- If what occurs first stands further left in the first argument and among the later ones, it does
so in the compound. -/
theorem before_cons_of_idxOf_lt
    (first : t.occurrences.idxOf x < t.occurrences.idxOf y → t.Before x y)
    (later : (ts.flatMap occurrences).idxOf x < (ts.flatMap occurrences).idxOf y →
      (compound functor ts).Before x y)
    (lt : ((t :: ts).flatMap occurrences).idxOf x < ((t :: ts).flatMap occurrences).idxOf y) :
    (compound functor (t :: ts)).Before x y := by
  rw [List.flatMap_cons, List.idxOf_append, List.idxOf_append] at lt
  by_cases here : x ∈ t.occurrences
  · have place := List.idxOf_lt_length_iff.2 here
    refine (first ?_).first
    by_cases also : y ∈ t.occurrences
    · rwa [if_pos here, if_pos also] at lt
    · rwa [List.idxOf_eq_length also]
  · have absent : y ∉ t.occurrences := by
      intro occurs
      have place := List.idxOf_lt_length_iff.2 occurs
      rw [if_neg here, if_pos occurs] at lt
      omega
    rw [if_neg here, if_neg absent] at lt
    exact (later (by omega)).later absent

/-- The variable that occurs first stands further left. -/
theorem before_of_idxOf_lt (lt : t.occurrences.idxOf x < t.occurrences.idxOf y) :
    t.Before x y := by
  induction t with
  | atom name => simp at lt
  | var name =>
    have occurs : x ∈ (var name).occurrences :=
      List.idxOf_lt_length_iff.1 (Nat.lt_of_lt_of_le lt List.idxOf_le_length)
    obtain rfl : x = name := by simpa using occurs
    refine ⟨[], .var, ?_⟩
    rintro _ ⟨⟩
    exact absurd lt (Nat.lt_irrefl _)
  | compound functor args ih =>
    rw [occurrences_compound] at lt
    induction args with
    | nil => simp at lt
    | cons t ts tail =>
      rw [List.forall_mem_cons] at ih
      exact before_cons_of_idxOf_lt ih.1 (tail ih.2) lt

/-! ## What is collected -/

/-- Names without repetitions stand in the order in which they stood first, also if some of them are
left out. -/
theorem pairwise_idxOf_eraseDups (p : Symbol → Bool) (names : List Symbol) :
    (names.filter p).eraseDups.Pairwise fun x y => names.idxOf x < names.idxOf y := by
  induction names generalizing p with
  | nil => exact .nil
  | cons x xs ih =>
    -- In front of names that are others, `x` moves all their places by one.
    have behind (q : Symbol → Bool) (other : q x = false) :
        (xs.filter q).eraseDups.Pairwise fun y z => (x :: xs).idxOf y < (x :: xs).idxOf z := by
      have different (y : Symbol) (member : y ∈ (xs.filter q).eraseDups) : x ≠ y := by
        rintro rfl
        simp [other] at member
      refine (ih q).imp_of_mem fun {y z} memY memZ lt => ?_
      rw [List.idxOf_cons_ne _ (different y memY), List.idxOf_cons_ne _ (different z memZ)]
      exact Nat.succ_lt_succ lt
    by_cases kept : p x = true
    · rw [List.filter_cons_of_pos kept, List.eraseDups_cons, List.filter_filter,
        List.pairwise_cons]
      refine ⟨fun y member => ?_, behind _ (by simp)⟩
      have different : x ≠ y := by
        rintro rfl
        simp at member
      rw [List.idxOf_cons_self, List.idxOf_cons_ne _ different]
      exact Nat.succ_pos _
    · rw [List.filter_cons_of_neg kept]
      exact behind p (by simpa using kept)

/-- Collecting adds the new variables behind those that are there. -/
theorem exists_newVars (t : Term) (seen : List Symbol) :
    ∃ new, t.collectVars seen = seen ++ new ∧ t.NewVars seen new := by
  refine ⟨(t.occurrences.filter (· ∉ seen)).eraseDups, ?_, ?_⟩
  · rw [collectVars_eq_foldl, foldl_addName_eq]
  · have ordered := pairwise_idxOf_eraseDups (· ∉ seen) t.occurrences
    refine ⟨fun x => ?_, ?_, ordered.imp before_of_idxOf_lt⟩
    · rw [List.mem_eraseDups, List.mem_filter, mem_occurrences_iff, decide_eq_true_iff]
    · refine ordered.imp fun {x y} lt same => ?_
      rw [same] at lt
      exact Nat.lt_irrefl _ lt

/-! ## Terms without variables -/

theorem isGround_iff_collectVars (t : Term) : t.isGround = true ↔ t.collectVars [] = [] := by
  simp [isGround_iff, List.eq_nil_iff_forall_not_mem, mem_collectVars]

/-- Renaming on the way meets nothing in a ground term. -/
theorem pass_of_isGround (ground : t.isGround = true) (pass : Pass) :
    pass.term t = (t, pass) := by
  have nothing : t.occurrences = [] := (isGround_iff t).1 ground
  have kept : t.instantiate pass.table.variable = t := by
    calc t.instantiate pass.table.variable
        = t.instantiate .var := instantiate_congr (by simp [nothing])
      _ = t := t.instantiate_self
  rw [Pass.term_eq, nothing]
  exact congrArg (fun u => (u, pass)) kept

theorem rename_of_isGround (ground : t.isGround = true) (supply : NameSupply) :
    supply.rename t = (t, supply) := by
  rw [supply.rename_eq_pass, pass_of_isGround ground]
  rfl

/-- The counter moves whenever there is a variable to be renamed. -/
theorem isGround_of_counter (supply : NameSupply)
    (same : (supply.rename t).2.counter = supply.counter) : t.isGround = true := by
  obtain ⟨skipped, numbering⟩ := supply.exists_numbering t.vars
  have moved : (supply.rename t).2.counter = supply.counter + t.vars.length + skipped.length :=
    numbering.end_eq
  have nothing : t.vars = [] := List.eq_nil_of_length_eq_zero (by omega)
  exact (isGround_iff_collectVars t).2 nothing

/-! ## Collecting, testing and renaming -/

/-- Renaming finds the same variables as collecting, in the same order, and it finds none exactly
if the term is ground. -/
structure RenamedAsCollected (t : Term) : Prop where
  /-- The variables may be named on the way, without having been collected. -/
  onePass : ∀ supply : NameSupply, supply.rename t =
    (((Pass.start supply).term t).1, ((Pass.start supply).term t).2.supply)
  /-- The table of names grows like a list into which the variables are collected. -/
  table : ∀ pass : Pass,
    (pass.term t).2.table.map Prod.fst = t.collectVars (pass.table.map Prod.fst)
  ground : t.isGround = true ↔ ∀ pass : Pass, pass.term t = (t, pass)
  /-- One renaming is enough to tell, and the counter alone. -/
  counter : ∀ supply : NameSupply,
    t.isGround = true ↔ (supply.rename t).2.counter = supply.counter

theorem renamedAsCollected (t : Term) : t.RenamedAsCollected where
  onePass supply := supply.rename_eq_pass t
  table pass := pass.map_fst_term t
  ground := by
    refine ⟨pass_of_isGround, fun kept => isGround_of_counter {} ?_⟩
    rw [NameSupply.rename_eq_pass, kept]
    rfl
  counter supply := by
    refine ⟨fun ground => ?_, isGround_of_counter supply⟩
    rw [rename_of_isGround ground]

/-- To collect the variables of a term into a list leaves the list as a beginning and appends the
variables that it lacks, each once, from left to right. So it makes no difference whether several
goals are collected one after another, as is done for the variables of a query, or as the arguments
of one compound. A term is ground exactly if nothing is collected from it into the empty list, and
exactly if every renaming gives back the term itself and leaves the supply as it was. Renaming goes
by the same variables, even if it names them as it meets them. -/
theorem collectVars_appends_new (t : Term) (seen : List Symbol) :
    (∃ new, t.collectVars seen = seen ++ new ∧ t.NewVars seen new) ∧
    (∀ functor goals,
      goals.foldl collectVars seen = (compound functor goals).collectVars seen) ∧
    (∀ (kb : KnowledgeBase) goals limits functor,
      (kb.query goals limits).queryVars = (compound functor goals).collectVars []) ∧
    (t.isGround = true ↔ t.collectVars [] = []) ∧
    (t.isGround = true ↔ ∀ supply : NameSupply, supply.rename t = (t, supply)) ∧
    t.RenamedAsCollected := by
  have renamed := t.renamedAsCollected
  refine ⟨t.exists_newVars seen, ?_, ?_, t.isGround_iff_collectVars, ?_, renamed⟩
  · intro functor goals
    rw [collectVars_compound, collectVarsAll_eq_foldl]
  · intro kb goals limits functor
    rw [collectVars_compound]
    rfl
  · refine ⟨rename_of_isGround, fun kept => (renamed.counter {}).2 ?_⟩
    rw [kept]

/-- The variable `Z` was seen before, and of `Y` the first place counts. -/
example :
    let t := compound "p" [.var "Y", .compound "f" [.var "X", .var "Z"], .var "Y"]
    t.collectVars ["Z"] = ["Z", "Y", "X"] := by
  decide +kernel

end HornLogic.Term
