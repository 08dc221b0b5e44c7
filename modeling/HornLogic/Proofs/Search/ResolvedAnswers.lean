import HornLogic.Proofs.Search.RenamedApart
import HornLogic.Proofs.Search.Soundness
import HornLogic.Proofs.Search.Stack

/-!
# Answers are resolved

A solution shows for each variable of the query a value in which nothing is left to be looked up.
No variable in it is bound, and none has come from anywhere else than the query or the supply of
names (`Resolved`). So if a variable of the query stands in a value, it has itself as its value.

Values are read off the bindings, which come about by unifying and going back alone and are
therefore acyclic. Where their variables come from is an invariant of all variables in play
(`History.inPlay`).

A name that was given out has a `#` in it. Thus a clause variable whose name has none is never
shown, unless the query has a variable of that name. If the name does have a `#`, the supply may
have given it out, for the clause variable itself or for another one (`own_name_shown`).
-/

namespace HornLogic

section History

variable {start search : Search} {kb : KnowledgeBase} {goals : List Term} {limits : Limits}
  {variants : List Clause} {answers : List Solution}

theorem History.exists_after (start : Search) (turns : Nat) :
    ∃ variants answers, History start (start.after turns) variants answers := by
  induction turns with
  | zero => exact ⟨_, _, .start⟩
  | succ turns ih =>
    obtain ⟨variants, answers, history⟩ := ih
    rw [Search.after_succ]
    exact ⟨_, _, history.turn⟩

theorem History.acyclic (history : History (kb.query goals limits) search variants answers) :
    search.bindings.Acyclic := by
  have reached : search.bindings.Reached Bindings.Guard := by
    induction history with
    | start => exact .empty
    | turn _ ih => exact Search.reached_turn ih
  exact reached.acyclic

/-! ## Where variables come from -/

/-- The name was given out for a variable of a clause when an instance of the clause was made. It is
a stem with a number that the counter has passed, and no variable of the query has it. -/
structure Issued (search : Search) (variants : List Clause) (name : Symbol) : Prop where
  inInstance : ∃ variant ∈ variants, name ∈ variant.vars
  isNumbered : ∃ base number, '#' ∉ base.toList ∧ number < search.names.counter ∧
    name = NameSupply.numbered base number
  notAsked : name ∉ search.queryVars

theorem Issued.hash_mem {name : Symbol} (issued : Issued search variants name) :
    '#' ∈ name.toList := by
  obtain ⟨base, number, -, -, rfl⟩ := issued.isNumbered
  simp [NameSupply.numbered]

/-- The reserved names are the variables of the query, at any time. -/
theorem History.reserved_eq (history : History (kb.query goals limits) search variants answers) :
    search.names.reserved = Term.varsAll goals := by
  induction history with
  | start => rfl
  | @turn search _ _ _ ih =>
    rcases search.names_turn with ⟨-, names⟩ | ⟨clause, -, names⟩
    · rw [names, ih]
    · rw [names, NameSupply.reserved_renameClause, ih]

/-- No variable of a clause instance is a variable of the query. -/
theorem History.not_asked (history : History (kb.query goals limits) search variants answers) :
    ∀ variant ∈ variants, ∀ x ∈ variant.vars, x ∉ Term.varsAll goals := by
  induction history with
  | start => exact nofun
  | @turn search variants answers history ih =>
    intro variant member x occurs
    rcases List.mem_append.1 member with new | earlier
    · obtain ⟨clause, rfl, -⟩ := Search.renamed_of_variant (Option.mem_toList.1 new)
      have unused := NameSupply.not_used_of_mem_renameClause occurs
      exact fun asked => unused (.inl (history.reserved_eq ▸ asked))
    · exact ih variant earlier x occurs

theorem History.issued (history : History (kb.query goals limits) search variants answers)
    {variant : Clause} (member : variant ∈ variants) {x : Symbol} (occurs : x ∈ variant.vars) :
    Issued search variants x := by
  have notAsked := history.not_asked variant member x occurs
  refine ⟨⟨variant, member, occurs⟩, ?_, ?_⟩
  · rcases history.inUse.variants variant member x occurs with reserved | numbered
    · exact absurd (history.reserved_eq ▸ reserved) notAsked
    · exact numbered
  · rwa [history.queryVars_eq]

/-- All variables in play are variables of the query or names that it has given out. -/
theorem History.inPlay (history : History (kb.query goals limits) search variants answers) :
    InPlay (fun x => x ∈ Term.varsAll goals ∨ Issued search variants x) search := by
  have inPlay : InPlay (fun x => x ∈ Term.varsAll goals ∨ ∃ variant ∈ variants, x ∈ variant.vars)
      search := by
    induction history with
    | start => exact .start fun x asked => .inl asked
    | @turn search variants answers _ ih =>
      refine (ih.imp ?_).turn ?_
      · rintro x (asked | ⟨variant, member, occurs⟩)
        · exact .inl asked
        · exact .inr ⟨variant, List.mem_append_right _ member, occurs⟩
      · intro variant made x occurs
        exact .inr ⟨variant, List.mem_append_left _ (Option.mem_toList.2 made), occurs⟩
  refine inPlay.imp ?_
  rintro x (asked | ⟨variant, member, occurs⟩)
  · exact .inl asked
  · exact .inr (history.issued member occurs)

/-! ## Solutions -/

/-- What a solution shows that is found in a state of a query, after some clause instances were
made. -/
structure Resolved (goals : List Term) (search : Search) (variants : List Clause)
    (answer : Solution) : Prop where
  /-- The names are the variables of the goals, each where it occurs first. -/
  names : answer.bindings.map Prod.fst = (goals.flatMap Term.occurrences).eraseDups
  unbound : ∀ binding ∈ answer.bindings, ∀ y ∈ binding.2.occurrences,
    search.bindings.lookup y = none
  source : ∀ binding ∈ answer.bindings, ∀ y ∈ binding.2.occurrences,
    y ∈ Term.varsAll goals ∨ Issued search variants y
  /-- A name without a `#`, whether a clause has it or not, shows only if the query has it. -/
  hidden : ∀ x, '#' ∉ x.toList → x ∉ Term.varsAll goals →
    ∀ binding ∈ answer.bindings, x ∉ binding.2.occurrences
  /-- A variable of the query that stands in a value has itself as its value. -/
  idempotent : ∀ binding ∈ answer.bindings, ∀ y ∈ binding.2.occurrences,
    y ∈ Term.varsAll goals → answer.get? y = some (.var y)

theorem History.resolved (history : History (kb.query goals limits) search variants answers) :
    Resolved goals search variants search.answer := by
  have queryVars : search.queryVars = Term.varsAll goals := history.queryVars_eq
  have unbound : ∀ binding ∈ search.answer.bindings, ∀ y ∈ binding.2.occurrences,
      search.bindings.lookup y = none := by
    intro binding member y occurs
    obtain ⟨x, -, rfl⟩ := List.mem_map.1 member
    exact history.acyclic.lookup_of_mem_resolve occurs
  have source : ∀ binding ∈ search.answer.bindings, ∀ y ∈ binding.2.occurrences,
      y ∈ Term.varsAll goals ∨ Issued search variants y :=
    fun binding member => (history.inPlay.answer binding member).2
  refine ⟨?_, unbound, source, ?_, ?_⟩
  · rw [← Term.varsAll_eq_eraseDups, ← queryVars, Search.answer, List.map_map]
    exact List.map_id search.queryVars
  · intro x plain notAsked binding member occurs
    rcases source binding member x occurs with asked | issued
    · exact notAsked asked
    · exact plain issued.hash_mem
  · intro binding member y occurs asked
    have shown : search.answer.get? y = some (search.bindings.value y) :=
      search.bindings.value_answer (queryVars ▸ asked)
    rw [shown, Bindings.value_of_unbound (unbound binding member y occurs)]

/-- Every solution that a query returns is resolved in the state it is found in. -/
theorem resolved_of_solution {results : List (Report × Nat)}
    (calls : Calls (kb.query goals limits) results) {answer : Solution} {attempts : Nat}
    (returned : (.solution answer, attempts) ∈ results) :
    ∃ search variants answers, History (kb.query goals limits) search variants answers ∧
      search.turn.report = some (.solution answer) ∧ search.turn.search.steps = attempts ∧
      Resolved goals search variants answer := by
  obtain ⟨turns, beginning⟩ := Search.calls_iff.1 calls
  obtain ⟨earlier, -, seen⟩ := Search.exists_turn_of_mem_seen (beginning.mem returned)
  obtain ⟨variants, answers, history⟩ := History.exists_after (kb.query goals limits) earlier
  obtain ⟨reported, steps⟩ := Turn.mem_seen_iff.1 seen
  refine ⟨_, variants, answers, history, reported, steps, ?_⟩
  rw [Search.eq_answer_of_report reported]
  exact history.resolved

end History

/-- For the goal `same(f(A), B, C)` and the fact `same(X, X, Z)`, `A` stays unbound and shows in its
own value and in that of `B`, and `C` has a name of the supply. -/
theorem resolved_of_solution_same :
    let goals : List Term := [.app "same" [.app "f" [.var "A"], .var "B", .var "C"]]
    let query := (KnowledgeBase.ofClauses
      [.ofParts "same" [.var "X", .var "X", .var "Z"] []]).query goals .unbounded
    let answer : Solution :=
      ⟨[("A", .var "A"), ("B", .app "f" [.var "A"]), ("C", .var "Z#1")]⟩
    Calls query [(.solution answer, 1)] ∧
      ∃ search variants answers, History query search variants answers ∧
        search.turn.report = some (.solution answer) ∧ search.turn.search.steps = 1 ∧
        Resolved goals search variants answer := by
  intro goals query answer
  have calls : Calls query [(.solution answer, 1)] :=
    Search.calls_iff.2 ⟨3, by decide +kernel⟩
  exact ⟨calls, resolved_of_solution calls List.mem_cons_self⟩

/-- The fact `p(X#0)` is renamed to itself, since `X#0` is the first name that the supply gives out.
So the query `p(Y)` shows the name of the clause variable. -/
theorem own_name_shown :
    let clause := Clause.ofParts "p" [.var "X#0"] []
    let goals : List Term := [.app "p" [.var "Y"]]
    let answer : Solution := ⟨[("Y", .var "X#0")]⟩
    Calls ((KnowledgeBase.ofClauses [clause]).query goals .unbounded) [(.solution answer, 1)] ∧
      ¬ ∀ x ∈ clause.vars, x ∉ Term.varsAll goals →
        ∀ binding ∈ answer.bindings, x ∉ binding.2.occurrences := by
  intro clause goals answer
  refine ⟨Search.calls_iff.2 ⟨3, by decide +kernel⟩, ?_⟩
  intro hidden
  exact hidden "X#0" (by decide +kernel) (by decide +kernel) ("Y", .var "X#0") (by simp [answer])
    (by simp)

end HornLogic
