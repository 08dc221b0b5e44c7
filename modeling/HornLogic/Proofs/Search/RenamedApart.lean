import HornLogic.Proofs.Search.InPlay

/-!
# Clauses are renamed apart

At any time during a query, a clause that is renamed gets variables that occur nowhere else:
not in the query, not in the bindings, not in the goals that wait, not in any clause instance made
before and not in any solution reported before.

Backtracking takes bindings and goals away, but it leaves the supply of names as it is. So all the
variables there ever were in the query stay in use, and `InUse` says this of a state and of what was
made on the way to it. Each turn preserves it (`InUse.turn`): a turn either keeps to variables
that are in use, or makes a clause instance, whose variables are in use from then on. New names are
not in use, which gives the result (`not_mem_of_renamed`).
-/

namespace HornLogic

/-! ## What a query has made so far -/

/-- The solution that the next turn reports, if any. -/
def Search.solution? (search : Search) : Option Solution :=
  match search.turn.report with
  | some (.solution answer) => some answer
  | _ => none

/-- Turns from the first state lead to the second, and make these clause instances and report these
solutions on the way, the latest first. -/
inductive History (start : Search) : Search → List Clause → List Solution → Prop where
  | start : History start start [] []
  | turn {search : Search} {variants : List Clause} {answers : List Solution} :
      History start search variants answers →
      History start search.turn.search (search.variant?.toList ++ variants)
        (search.solution?.toList ++ answers)

/-! ## The invariant -/

/-- All variables in play are in use: those of the query, of the bindings and of the goals that
wait, and those of the clause instances made and the solutions reported so far. -/
structure InUse (search : Search) (variants : List Clause) (answers : List Solution) : Prop where
  query : ∀ x ∈ search.queryVars, search.names.Used x
  bindings : search.bindings.All search.names.Covers
  stack : ∀ point ∈ search.stack, ∀ t ∈ point.goal :: point.rest, search.names.Covers t
  entering : ∀ goals depth, search.phase = .enter goals depth → ∀ t ∈ goals, search.names.Covers t
  variants : ∀ variant ∈ variants, ∀ x ∈ variant.vars, search.names.Used x
  answers : ∀ answer ∈ answers, ∀ binding ∈ answer.bindings,
    search.names.Used binding.1 ∧ search.names.Covers binding.2

theorem inUse_start (offer : Term → List Clause) (goals : List Term) (limits : Limits) :
    InUse (.start offer goals limits) [] [] where
  query _ asked := .inl asked
  bindings := Bindings.all_empty _
  stack _ member := nomatch member
  entering := by
    rintro _ depth ⟨⟩ t member x occurs
    exact .inl (Term.mem_varsAll.2 ⟨t, member, occurs⟩)
  variants _ member := nomatch member
  answers _ member := nomatch member

/-- A solution that is reported is the answer under the present bindings. -/
theorem Search.eq_answer_of_report {search : Search} {answer : Solution}
    (reported : search.turn.report = some (.solution answer)) : answer = search.answer := by
  have cases := search.turnCase
  generalize search.turn = turn, search.variant? = made at cases reported
  cases cases with
  | solved => exact (Report.solution.inj (Option.some.inj reported)).symm
  | _ => simp at reported

theorem Search.report_of_solution? {search : Search} {answer : Solution}
    (next : answer ∈ search.solution?) : search.turn.report = some (.solution answer) := by
  unfold Search.solution? at next
  split at next
  · rename_i reported
    rw [reported, Option.some.inj next]
  · contradiction

namespace InUse

variable {search : Search} {variants : List Clause} {answers : List Solution}

theorem inPlay (inUse : InUse search variants answers) : InPlay search.names.Used search :=
  ⟨inUse.query, inUse.bindings, inUse.stack, inUse.entering⟩

/-- A turn keeps all variables in play in use. -/
theorem turn (inUse : InUse search variants answers) :
    InUse search.turn.search (search.variant?.toList ++ variants)
      (search.solution?.toList ++ answers) := by
  have used (x : Symbol) : search.names.Used x → search.turn.search.names.Used x :=
    search.used_turn
  have inPlay : InPlay search.turn.search.names.Used search.turn.search :=
    (inUse.inPlay.imp used).turn fun variant made x => Search.used_of_variant made
  refine ⟨inPlay.query, inPlay.bindings, inPlay.stack, inPlay.entering, ?_, ?_⟩
  · intro variant member x occurs
    rcases List.mem_append.1 member with new | earlier
    · exact Search.used_of_variant (Option.mem_toList.1 new) occurs
    · exact used x (inUse.variants variant earlier x occurs)
  · intro answer member binding bound
    rcases List.mem_append.1 member with new | earlier
    · have reported := Search.report_of_solution? (Option.mem_toList.1 new)
      obtain rfl := Search.eq_answer_of_report reported
      exact (inUse.inPlay.imp used).answer binding bound
    · have both := inUse.answers answer earlier binding bound
      exact ⟨used _ both.1, fun x occurs => used x (both.2 x occurs)⟩

end InUse

/-- All variables in play are in use at any time during a query. -/
theorem History.inUse {kb : KnowledgeBase} {goals : List Term} {limits : Limits} {search : Search}
    {variants : List Clause} {answers : List Solution}
    (history : History (kb.query goals limits) search variants answers) :
    InUse search variants answers := by
  induction history with
  | start => exact inUse_start kb.matching goals limits
  | turn _ ih => exact ih.turn

theorem History.queryVars_eq {start search : Search} {variants : List Clause}
    {answers : List Solution} (history : History start search variants answers) :
    search.queryVars = start.queryVars := by
  induction history with
  | start => rfl
  | @turn search _ _ _ ih =>
    have cases := search.turnCase
    generalize search.turn = turn, search.variant? = made at cases
    cases cases <;> exact ih

/-- Whatever clause is renamed next in a query, its variables then occur neither in the query nor in
the bindings, nor in the goals at the choice points, nor in any clause instance that was made before
or any solution that was reported before. -/
theorem not_mem_of_renamed {kb : KnowledgeBase} {goals : List Term} {limits : Limits}
    {search : Search} {variants : List Clause} {answers : List Solution}
    (history : History (kb.query goals limits) search variants answers) (clause : Clause)
    {x : Symbol} (renamed : x ∈ (search.names.renameClause clause).1.vars) :
    x ∉ Term.varsAll goals ∧
    (∀ entry ∈ search.bindings.trail, x ≠ entry.var ∧ x ∉ entry.term.occurrences) ∧
    (∀ point ∈ search.stack, ∀ t ∈ point.goal :: point.rest, x ∉ t.occurrences) ∧
    (∀ variant ∈ variants, x ∉ variant.vars) ∧
    (∀ answer ∈ answers, ∀ binding ∈ answer.bindings,
      x ≠ binding.1 ∧ x ∉ binding.2.occurrences) := by
  have new : ¬ search.names.Used x := NameSupply.not_used_of_mem_renameClause renamed
  have inUse := history.inUse
  refine ⟨?_, ?_, ?_, ?_, ?_⟩
  · intro asked
    have same : search.queryVars = Term.varsAll goals := history.queryVars_eq
    exact new (inUse.query x (same ▸ asked))
  · intro entry member
    obtain ⟨var, term⟩ := inUse.bindings entry member
    refine ⟨?_, fun occurs => new (term x occurs)⟩
    rintro rfl
    exact new (var _ (by simp [Term.occurrences]))
  · intro point member t waiting occurs
    exact new (inUse.stack point member t waiting x occurs)
  · intro variant member occurs
    exact new (inUse.variants variant member x occurs)
  · intro answer member binding bound
    obtain ⟨var, term⟩ := inUse.answers answer member binding bound
    refine ⟨?_, fun occurs => new (term x occurs)⟩
    rintro rfl
    exact new var

/-- A query for `p(X#0)` and the clause `p(X) :- q(X, X#0)` have names that look like fresh ones.
The clause is renamed once, to variables `X#1` and `X#2`, and would be renamed to `X#3` and `X#4`
next. -/
theorem not_mem_of_renamed_hash :
    let clause := Clause.ofParts "p" [.var "X"] [.app "q" [.var "X", .var "X#0"]]
    let start := (KnowledgeBase.ofClauses [clause]).query [.app "p" [.var "X#0"]] .unbounded
    let search := start.turn.search.turn.search
    ∀ x ∈ ["X#3", "X#4"], x ∈ (search.names.renameClause clause).1.vars ∧
      (∀ entry ∈ search.bindings.trail, x ≠ entry.var ∧ x ∉ entry.term.occurrences) ∧
      ∀ variant ∈ start.turn.search.variant?.toList, x ∉ variant.vars := by
  intro clause start search x member
  have names : (search.names.renameClause clause).1.vars = ["X#3", "X#4"] := by
    simp only [search, start, clause]
    decide +kernel
  have renamed : x ∈ (search.names.renameClause clause).1.vars := names ▸ member
  have history : History start search
      (start.turn.search.variant?.toList ++ (start.variant?.toList ++ []))
      (start.turn.search.solution?.toList ++ (start.solution?.toList ++ [])) :=
    .turn (.turn .start)
  obtain ⟨-, trail, -, earlier, -⟩ := not_mem_of_renamed history clause renamed
  exact ⟨renamed, trail, fun variant made => earlier variant (List.mem_append_left _ made)⟩

end HornLogic
