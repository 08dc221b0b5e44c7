import HornLogic.Proofs.Search.Branch

/-!
# Depth and nesting

The depth of a search is the number of steps on its branch. The nesting of a goal is the number of
clauses around it in the proof that the branch attempts. A step with a rule raises both, but a step
with a fact makes the search deeper and leaves the goal after it no more nested than it was. So
nesting never exceeds depth, and a goal nested more deeply than the limit is always refused. The
converse fails: a few facts in a row exceed a depth limit with no nesting at all
(`depthLimitExceeded_of_facts`).

When the limit on the depth is exceeded, the branch is one step longer than the limit. A goal was
then selected that is nested more deeply than the limit if and only if every step on the branch used
a rule (`exists_selected_iff_of_depthLimitExceeded`).
-/

namespace HornLogic

namespace Search

variable {start : Search} {goals : List Term} {turns : Nat}

/-! ## The goal that is selected -/

/-- What is selected is the first of the goals that are entered. -/
theorem exists_of_selected? {goal : Term} {level : Nat}
    (branched : Branched goals (start.after turns) (start.branch turns))
    (selected : start.selected? goals turns = some (goal, level)) :
    ∃ rest, (start.after turns).phase = .enter (goal :: rest) (start.branch turns).length ∧
      (goal, level) ∈ nested goals (start.branch turns) := by
  unfold selected? at selected
  cases phase : (start.after turns).phase with
  | resume => simp [phase] at selected
  | finished => simp [phase] at selected
  | enter waiting depth =>
    rw [phase] at selected
    obtain ⟨-, rfl, rfl⟩ := branched.entering _ _ phase
    obtain ⟨others, first⟩ := List.head?_eq_some_iff.1 selected
    refine ⟨others.map Prod.fst, ?_, ?_⟩
    · rw [first]
      rfl
    · rw [first]
      exact List.mem_cons_self

theorem exists_selected?_of_enter {goal : Term} {rest : List Term} {depth : Nat}
    (branched : Branched goals (start.after turns) (start.branch turns))
    (phase : (start.after turns).phase = .enter (goal :: rest) depth) :
    ∃ level others, start.selected? goals turns = some (goal, level) ∧
      nested goals (start.branch turns) = (goal, level) :: others := by
  obtain ⟨-, -, waiting⟩ := branched.entering _ _ phase
  cases before : nested goals (start.branch turns) with
  | nil => simp [before] at waiting
  | cons first others =>
    obtain ⟨_, level⟩ := first
    rw [before] at waiting
    obtain ⟨rfl, -⟩ := List.cons.inj waiting
    exact ⟨level, others, by simp [selected?, phase, before], rfl⟩

theorem selected?_of_finished (finished : (start.after turns).phase = .finished) :
    start.selected? goals turns = none := by
  rw [selected?, finished]

/-! ## The turn that exceeds the limit -/

theorem enter_of_depthLimitExceeded {search : Search} {limit : Nat}
    (reported : search.turn.report = some (.aborted (.depthLimitExceeded limit))) :
    ∃ goal rest depth, search.phase = .enter (goal :: rest) depth ∧
      search.limits.maxDepth = some limit ∧ limit < depth := by
  cases exceeded_of_aborted reported with
  | inl tooDeep =>
    obtain ⟨goal, rest, depth, phase, exceeded⟩ := tooDeep
    obtain ⟨_, isLimit, beyond, same⟩ := Limits.checkDepth_eq_some_iff.1 exceeded
    obtain rfl := Error.depthLimitExceeded.inj same
    exact ⟨goal, rest, depth, phase, isLimit, beyond⟩
  | inr tooMany =>
    -- Too many attempts make another error.
    obtain ⟨_, _, _, _, _, _, _, exceeded⟩ := tooMany
    obtain ⟨_, _, _, same⟩ := Limits.checkSteps_eq_some_iff.1 exceeded
    exact nomatch same

/-- A goal below the limit on the depth ends the search. -/
theorem finished_of_tooDeep {search : Search} {goal : Term} {rest : List Term} {depth limit : Nat}
    (phase : search.phase = .enter (goal :: rest) depth)
    (isLimit : search.limits.maxDepth = some limit) (beyond : limit < depth) :
    search.turn.search.phase = .finished := by
  have exceeded := Limits.checkDepth_eq_some_iff.2 ⟨limit, isLimit, beyond, rfl⟩
  simp [Search.turn, enter, abort, phase, exceeded]

end Search

/-- Goals are entered at most one step below the limit. -/
theorem Branched.length_le {goals : List Term} {search : Search} {branch : List Clause}
    (branched : Branched goals search branch) {limit : Nat}
    (isLimit : search.limits.maxDepth = some limit) {waiting : List Term} {depth : Nat}
    (phase : search.phase = .enter waiting depth) : branch.length ≤ limit + 1 := by
  obtain ⟨length, -, -⟩ := branched.entering _ _ phase
  cases stack : search.stack with
  | nil => simp [length, stack]
  | cons point below =>
    obtain ⟨depth, -, -⟩ := branched.stack point below (stack ▸ List.suffix_rfl)
    have within := branched.within point (stack ▸ List.mem_cons_self)
    simp only [Limits.checkDepth, isLimit, ite_eq_right_iff, reduceCtorEq, imp_false] at within
    rw [length, stack, List.length_cons]
    omega

/-! ## What exceeding the limit says about nesting -/

/-- If a call reports that the depth limit is exceeded, the branch at that time is one step longer
than the limit. Whether the search has ever selected a goal that is nested more deeply than the
limit then depends on the clauses on this branch: it has if and only if all of them are rules. -/
theorem exists_selected_iff_of_depthLimitExceeded {kb : KnowledgeBase} {goals : List Term}
    {limits : Limits} {results : List (Report × Nat)} {limit attempts : Nat}
    (calls : Calls (kb.query goals limits) results)
    (exceeded : (.aborted (.depthLimitExceeded limit), attempts) ∈ results) :
    let query := kb.query goals limits
    ∃ turns, (query.after turns).turn.report = some (.aborted (.depthLimitExceeded limit)) ∧
      (query.branch turns).length = limit + 1 ∧
      ((∃ time goal level, query.selected? goals time = some (goal, level) ∧ limit < level) ↔
        ∀ variant ∈ query.branch turns, variant.isFact = false) := by
  intro query
  have branched (time : Nat) : Branched goals (query.after time) (query.branch time) :=
    branched_after kb.matching goals limits time
  obtain ⟨made, beginning⟩ := Search.calls_iff.1 calls
  obtain ⟨turns, -, reported⟩ := Search.exists_turn_of_mem_seen (beginning.mem exceeded)
  obtain ⟨goal, rest, depth, phase, isLimit, beyond⟩ :=
    Search.enter_of_depthLimitExceeded (Turn.report_of_mem_seen reported)
  have length : (query.branch turns).length = limit + 1 := by
    obtain ⟨-, same, -⟩ := (branched turns).entering _ _ phase
    have atMost := (branched turns).length_le isLimit phase
    omega
  refine ⟨turns, Turn.report_of_mem_seen reported, length, ?_⟩
  constructor
  · rintro ⟨time, other, level, selected, deep⟩
    obtain ⟨others, entered, member⟩ := Search.exists_of_selected? (branched time) selected
    have level_le := level_le_of_mem_nested goals (query.branch time) member
    have count_le := (query.branch time).countP_le_length (p := fun variant => !variant.isFact)
    -- The search is given up when such a goal is selected, so that was at this very time.
    have sameLimit : (query.after time).limits.maxDepth = some limit := by
      rw [Search.limits_after] at isLimit ⊢
      exact isLimit
    have given := Search.finished_of_tooDeep entered sameLimit (by omega)
    have given' := Search.finished_of_tooDeep phase isLimit beyond
    have notLater : ¬ turns < time := by
      intro less
      exact nomatch entered.symm.trans (Search.finished_of_lt less given')
    have notEarlier : ¬ time < turns := by
      intro less
      exact nomatch phase.symm.trans (Search.finished_of_lt less given)
    obtain rfl : time = turns := by omega
    have all : (query.branch time).countP (fun variant => !variant.isFact) =
        (query.branch time).length := by omega
    intro variant used
    simpa using List.countP_eq_length.1 all variant used
  · intro rules
    obtain ⟨level, others, selected, first⟩ :=
      Search.exists_selected?_of_enter (branched turns) phase
    refine ⟨turns, goal, level, selected, ?_⟩
    have level_eq := level_eq_length_of_rules rules first
    omega

/-- With the rule `p :- p` every step nests the goal once more. -/
theorem exists_selected_loop :
    let query := (KnowledgeBase.ofClauses [.ofParts "p" [] [.atom "p"]]).query [.atom "p"]
      { maxDepth := some 1 }
    Calls query [(.aborted (.depthLimitExceeded 1), 2)] ∧
      ∃ time goal level, query.selected? [.atom "p"] time = some (goal, level) ∧ 1 < level := by
  intro query
  have calls : Calls query [(.aborted (.depthLimitExceeded 1), 2)] :=
    Search.calls_iff.2 ⟨5, by decide +kernel⟩
  obtain ⟨turns, reported, -, iff⟩ :=
    exists_selected_iff_of_depthLimitExceeded calls List.mem_cons_self
  have rules : ∀ variant ∈ query.branch turns, variant.isFact = false := by
    by_cases early : turns < 5
    · have all : ∀ turns < 5, ∀ variant ∈ query.branch turns, variant.isFact = false := by
        decide +kernel
      exact all turns early
    · have aborted : (query.after 4).turn.report = some (.aborted (.depthLimitExceeded 1)) := by
        decide +kernel
      have finished := Search.finished_of_lt (show 4 < turns by omega)
        (Search.finished_of_final aborted rfl)
      rw [Search.turn_of_finished finished] at reported
      exact nomatch reported
  exact ⟨calls, iff.2 rules⟩

/-- Nothing but the fact `a` is used for the query `a, a, a`, so no goal is nested at all, but it
exceeds a limit of 1 on the depth. -/
theorem depthLimitExceeded_of_facts :
    let goals : List Term := [.atom "a", .atom "a", .atom "a"]
    let query := (KnowledgeBase.ofClauses [.ofParts "a" [] []]).query goals { maxDepth := some 1 }
    Calls query [(.aborted (.depthLimitExceeded 1), 2)] ∧
      ∀ time goal level, query.selected? goals time = some (goal, level) → level = 0 := by
  intro goals query
  have calls : Calls query [(.aborted (.depthLimitExceeded 1), 2)] :=
    Search.calls_iff.2 ⟨5, by decide +kernel⟩
  refine ⟨calls, ?_⟩
  intro time goal level selected
  by_cases early : time < 5
  · have unnested : ∀ time < 5, ∀ entry ∈ query.selected? goals time, entry.2 = 0 := by
      decide +kernel
    exact unnested time early _ selected
  · have aborted : (query.after 4).turn.report = some (.aborted (.depthLimitExceeded 1)) := by
      decide +kernel
    have finished := Search.finished_of_lt (show 4 < time by omega)
      (Search.finished_of_final aborted rfl)
    rw [Search.selected?_of_finished finished] at selected
    exact nomatch selected

end HornLogic
