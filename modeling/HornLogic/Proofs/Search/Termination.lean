import Mathlib.Algebra.BigOperators.Ring.Finset
import HornLogic.Proofs.Search.Excess

/-!
# A search with a limit ends

Every attempt leads to at most two more turns: one that takes up the goals that it leaves, and one
that pops the choice point pushed for them. So a search that goes on makes attempts again and again
(`le_of_unfinished`). It ends if the attempts are bounded, and either limit bounds them.

With a limit on attempts this is what is checked. With a limit on the depth there are at most as
many choice points as levels, and each of them has finitely many clauses to try. `Search.room`
adds up what is still to be tried: an untried clause of a choice point stands for one attempt and
all those that can be made at the deeper levels. A turn that makes an attempt takes one away, and
no turn adds any (`steps_add_room_turn`). With `m` clauses and a limit of `d` the room is at first
`m + m² + … + m^(d + 1)`.

Then every call returns, and all but finitely many return the end (`calls_end`). There is at most
one solution for an attempt, since each solution is found when the goals are taken up that an
attempt left.
-/

namespace HornLogic

def Report.isSolution : Report → Bool
  | .solution _ => true
  | _ => false

namespace Search

/-! ## Turns and attempts -/

/-- Whether goals are to be taken up, as a number. -/
def entering (search : Search) : Nat :=
  match search.phase with
  | .enter _ _ => 1
  | _ => 0

/-- A turn that does not end the search is an attempt, or it uses up what an attempt has left. -/
theorem entering_turn_of_unfinished (search : Search)
    (unfinished : search.turn.search.phase ≠ .finished) :
    1 + search.turn.search.stack.length + 2 * search.turn.search.entering + 3 * search.steps ≤
      search.stack.length + 2 * search.entering + 3 * search.turn.search.steps := by
  have cases := search.turnCase
  generalize search.turn = turn, search.variant? = made at cases unfinished
  cases cases with
  | solved depth phase => simp only [entering, phase]; omega
  | descended goal rest depth phase => simp only [entering, phase, List.length_cons]; omega
  | popped point below phase stack => simp only [entering, phase, stack, List.length_cons]; omega
  | failed point below clause untried conflict phase stack =>
    simp only [entering, phase, stack, List.length_cons]
    omega
  | resolved point below clause untried phase stack =>
    simp only [entering, phase, stack, List.length_cons]
    omega
  | tooDeep => exact absurd rfl unfinished
  | exhausted => exact absurd rfl unfinished
  | tooMany => exact absurd rfl unfinished
  | finished phase => exact absurd phase unfinished

/-- A search that has not ended has made at least an attempt in every three turns. -/
theorem le_of_unfinished (search : Search) {turns : Nat}
    (unfinished : (search.after turns).phase ≠ .finished) :
    turns + 3 * search.steps ≤
      search.stack.length + 2 * search.entering + 3 * (search.after turns).steps := by
  induction turns generalizing search with
  | zero => show 0 + 3 * search.steps ≤ _ + 3 * search.steps; omega
  | succ turns ih =>
    have later := ih search.turn.search unfinished
    have going : search.turn.search.phase ≠ .finished := by
      intro finished
      apply unfinished
      show (search.turn.search.after turns).phase = .finished
      rw [after_of_finished finished, finished]
    have first := search.entering_turn_of_unfinished going
    show turns + 1 + _ ≤ _ + 3 * (search.turn.search.after turns).steps
    omega

/-- If the attempts are bounded, a query has ended after three turns for each of them and three
turns more. -/
theorem finished_of_steps_le {offer : Term → List Clause} {goals : List Term} {limits : Limits}
    {bound turns : Nat} (atMost : ((start offer goals limits).after turns).steps ≤ bound)
    (enough : 3 * bound + 3 ≤ turns) :
    ((start offer goals limits).after turns).phase = .finished := by
  by_contra unfinished
  have le := le_of_unfinished (start offer goals limits) unfinished
  simp only [start, entering, List.length_nil] at le atMost
  omega

/-! ## Attempts under a limit on attempts -/

/-- The attempts are limited, and at most one too many was made, with which the search ended. -/
structure StepsBounded (limit : Nat) (search : Search) : Prop where
  isLimit : search.limits.maxSteps = some limit
  atMost : search.steps ≤ limit + 1
  within : search.phase ≠ .finished → search.steps ≤ limit

theorem StepsBounded.turn {limit : Nat} {search : Search} (bounded : search.StepsBounded limit) :
    search.turn.search.StepsBounded limit := by
  obtain ⟨isLimit, atMost, within⟩ := bounded
  have counted (unchecked : search.limits.checkSteps (search.steps + 1) = none) :
      search.steps + 1 ≤ limit := by
    simpa [Limits.checkSteps, isLimit] using unchecked
  have cases := search.turnCase
  generalize search.turn = turn, search.variant? = made at cases
  cases cases with
  | solved depth phase => exact ⟨isLimit, atMost, fun _ => within (by simp [phase])⟩
  | tooDeep => exact ⟨isLimit, atMost, fun going => absurd rfl going⟩
  | descended goal rest depth phase => exact ⟨isLimit, atMost, fun _ => within (by simp [phase])⟩
  | exhausted => exact ⟨isLimit, atMost, fun going => absurd rfl going⟩
  | popped point below phase => exact ⟨isLimit, atMost, fun _ => within (by simp [phase])⟩
  | tooMany point below clause untried error phase =>
    exact ⟨isLimit, Nat.succ_le_succ (within (by simp [phase])), fun going => absurd rfl going⟩
  | failed _ _ _ _ _ _ _ _ unchecked =>
    exact ⟨isLimit, Nat.le_succ_of_le (counted unchecked), fun _ => counted unchecked⟩
  | resolved _ _ _ _ _ _ _ unchecked =>
    exact ⟨isLimit, Nat.le_succ_of_le (counted unchecked), fun _ => counted unchecked⟩
  | finished => exact ⟨isLimit, atMost, within⟩

theorem StepsBounded.after {limit : Nat} {search : Search} (bounded : search.StepsBounded limit)
    (turns : Nat) : (search.after turns).StepsBounded limit :=
  holds_after (fun _ bounded => bounded.turn) bounded turns

/-! ## Attempts under a limit on the depth -/

/-- The attempts that can be made for some goals if the branch may get so many choice points
more. -/
def attemptsBelow (clauses : Nat) : Nat → Nat
  | 0 => 0
  | levels + 1 => attemptBound clauses levels

theorem attemptBound_eq (clauses levels : Nat) :
    attemptBound clauses levels = clauses * (1 + attemptsBelow clauses levels) := by
  cases levels with
  | zero => simp [attemptBound, attemptsBelow]
  | succ levels => rw [attemptBound, attemptsBelow, Nat.mul_add, Nat.mul_one]

/-- The bound is the sum of the powers of the number of clauses, one for each level. -/
theorem attemptBound_eq_sum (clauses depth : Nat) :
    attemptBound clauses depth = ∑ level ∈ Finset.range (depth + 1), clauses ^ (level + 1) := by
  induction depth with
  | zero => simp [attemptBound]
  | succ depth ih =>
    rw [attemptBound, ih, Finset.sum_range_succ' _ (depth + 1), Finset.mul_sum, Nat.add_comm]
    simp only [Nat.pow_succ', Nat.pow_zero, Nat.mul_one]

/-- The attempts that may still be made, with so many clauses and this limit on the depth. -/
def room (clauses limit : Nat) (search : Search) : Nat :=
  (search.stack.map fun point =>
    point.untried.length * (1 + attemptsBelow clauses (limit - point.depth))).sum +
  match search.phase with
  | .enter _ depth => attemptsBelow clauses (limit + 1 - depth)
  | _ => 0

/-- Each attempt takes up room, and no turn makes any. -/
theorem steps_add_room_turn {clauses limit : Nat} {search : Search}
    (isLimit : search.limits.maxDepth = some limit)
    (few : ∀ goal, (search.offer goal).length ≤ clauses) :
    search.turn.search.steps + search.turn.search.room clauses limit ≤
      search.steps + search.room clauses limit := by
  have cases := search.turnCase
  generalize search.turn = turn, search.variant? = made at cases
  cases cases with
  | solved depth phase => simp only [room, phase]; omega
  | tooDeep => simp only [room, List.map_nil, List.sum_nil]; omega
  | descended goal rest depth phase unchecked =>
    have within : depth ≤ limit := by simpa [Limits.checkDepth, isLimit] using unchecked
    have pushed := Nat.mul_le_mul_right (1 + attemptsBelow clauses (limit - depth))
      (few (search.bindings.walk goal))
    rw [← attemptBound_eq] at pushed
    simp only [room, phase, List.map_cons, List.sum_cons]
    rw [show limit + 1 - depth = limit - depth + 1 by omega, attemptsBelow]
    omega
  | exhausted => simp only [room, List.map_nil, List.sum_nil]; omega
  | popped point below phase stack untried =>
    simp only [room, phase, stack, untried, List.map_cons, List.sum_cons]
    omega
  | tooMany point below clause untried error phase stack toTry =>
    simp only [room, phase, stack, toTry, List.map_cons, List.sum_cons, List.map_nil,
      List.sum_nil, List.length_cons, Nat.succ_mul]
    omega
  | failed point below clause untried conflict phase stack toTry =>
    simp only [room, phase, stack, toTry, List.map_cons, List.sum_cons, List.length_cons,
      Nat.succ_mul]
    omega
  | resolved point below clause untried phase stack toTry =>
    -- What is left for the goals of the body is what the clause stood for, without the attempt.
    simp only [room, phase, stack, toTry, List.map_cons, List.sum_cons, List.length_cons,
      Nat.succ_mul, Nat.add_sub_add_right]
    omega
  | finished => exact Nat.le_refl _

theorem steps_add_room_after {clauses limit : Nat} {search : Search}
    (isLimit : search.limits.maxDepth = some limit)
    (few : ∀ goal, (search.offer goal).length ≤ clauses) (turns : Nat) :
    (search.after turns).steps + (search.after turns).room clauses limit ≤
      search.steps + search.room clauses limit := by
  induction turns generalizing search with
  | zero => exact Nat.le_refl _
  | succ turns ih =>
    have later := @ih search.turn.search (by rwa [limits_turn]) (by rwa [offer_turn])
    exact Nat.le_trans later (steps_add_room_turn isLimit few)

/-- Under a limit on the depth a query makes no more attempts than the bound says. -/
theorem steps_le_attemptBound {offer : Term → List Clause} {goals : List Term} {limits : Limits}
    {clauses limit : Nat} (isLimit : limits.maxDepth = some limit)
    (few : ∀ goal, (offer goal).length ≤ clauses) (turns : Nat) :
    ((start offer goals limits).after turns).steps ≤ attemptBound clauses limit := by
  have le : ((start offer goals limits).after turns).steps +
      ((start offer goals limits).after turns).room clauses limit ≤
        (start offer goals limits).steps + (start offer goals limits).room clauses limit :=
    steps_add_room_after isLimit few turns
  have atFirst : (start offer goals limits).room clauses limit = attemptBound clauses limit := by
    simp [room, start, attemptsBelow]
  rw [atFirst] at le
  simp only [start] at le ⊢
  omega

/-- Under a limit on the depth the turns that a run is given lead to its end. -/
theorem finished_turnBound {offer : Term → List Clause} {goals : List Term} {limits : Limits}
    {clauses limit : Nat} (isLimit : limits.maxDepth = some limit)
    (few : ∀ goal, (offer goal).length ≤ clauses) :
    ((start offer goals limits).after (turnBound clauses limit)).phase = .finished :=
  finished_of_steps_le (steps_le_attemptBound isLimit few _) (Nat.le_refl _)

/-- Under a limit on the depth there is at most one choice point for each level. -/
theorem length_stack_le {offer : Term → List Clause} {goals : List Term} {limits : Limits}
    {limit : Nat} (isLimit : limits.maxDepth = some limit) (turns : Nat) :
    ((start offer goals limits).after turns).stack.length ≤ limit + 1 := by
  have branched := branched_after offer goals limits turns
  cases stack : ((start offer goals limits).after turns).stack with
  | nil => exact Nat.zero_le _
  | cons point below =>
    -- The topmost choice point is the deepest one.
    have depth : point.depth = below.length :=
      (branched.stack point below (stack ▸ List.suffix_rfl)).1
    have within := branched.within point (stack ▸ List.mem_cons_self)
    rw [limits_after] at within
    have atMost : point.depth ≤ limit := by
      simpa [Limits.checkDepth, show (start offer goals limits).limits.maxDepth = _ from isLimit]
        using within
    rw [List.length_cons]
    omega

/-! ## Solutions and attempts -/

theorem countP_seen_turn_le (search : Search) :
    search.turn.seen.countP (fun result => result.1.isSolution) + search.turn.search.entering +
      search.steps ≤ search.entering + search.turn.search.steps := by
  have cases := search.turnCase
  generalize search.turn = turn, search.variant? = made at cases
  cases cases with
  | solved depth phase => simp [entering, phase, Turn.seen, Report.isSolution]
  | tooDeep goal rest depth error phase =>
    simp [entering, phase, Turn.seen, Report.isSolution]
  | descended goal rest depth phase => simp [entering, phase, Turn.seen]
  | exhausted => simp [entering, Turn.seen, Report.isSolution]
  | popped point below phase => simp [entering, phase, Turn.seen]
  | tooMany point below clause untried error phase =>
    simp [entering, phase, Turn.seen, Report.isSolution]
  | failed point below clause untried conflict phase => simp [entering, phase, Turn.seen]
  | resolved point below clause untried phase =>
    simp only [entering, phase, Turn.seen, Option.toList_none, List.map_nil, List.countP_nil]
    omega
  | finished phase => simp [entering, phase, Turn.seen, Report.isSolution]

/-- There are no more solutions than attempts, apart from the one for goals that are to be taken up
already. -/
theorem countP_seen_le (search : Search) (turns : Nat) :
    (search.seen turns).countP (fun result => result.1.isSolution) + search.steps ≤
      search.entering + (search.after turns).steps := by
  induction turns generalizing search with
  | zero => simp [seen, after]
  | succ turns ih =>
    have first := search.countP_seen_turn_le
    have later := ih search.turn.search
    show (search.turn.seen ++ search.turn.search.seen turns).countP _ + _ ≤
      _ + (search.turn.search.after turns).steps
    rw [List.countP_append]
    omega

/-- A query has at most one solution for each attempt. Without goals it has one solution. -/
theorem countP_seen_start_le (offer : Term → List Clause) (goals : List Term) (limits : Limits)
    (turns : Nat) :
    ((start offer goals limits).seen turns).countP (fun result => result.1.isSolution) ≤
      if goals = [] then 1 else ((start offer goals limits).after turns).steps := by
  cases turns with
  | zero => simp [seen]
  | succ turns =>
    have later := (start offer goals limits).turn.search.countP_seen_le turns
    show ((start offer goals limits).turn.seen ++
      (start offer goals limits).turn.search.seen turns).countP _ ≤
        if goals = [] then 1 else ((start offer goals limits).turn.search.after turns).steps
    rw [List.countP_append]
    cases goals with
    | nil =>
      -- The stack is empty after the solution, so the next turn is the last.
      cases turns with
      | zero => simp [seen, start, turn, enter, Turn.seen, Report.isSolution]
      | succ turns =>
        have ended : (start offer [] limits).turn.search.seen (turns + 1) =
            List.replicate (turns + 1) (.exhausted, 0) := by
          show Turn.seen _ ++ (start offer [] limits).turn.search.turn.search.seen turns = _
          rw [seen_of_finished rfl]
          rfl
        rw [ended, List.countP_replicate]
        simp [start, turn, enter, Turn.seen, Report.isSolution]
    | cons goal rest =>
      have first := (start offer (goal :: rest) limits).countP_seen_turn_le
      have before : (start offer (goal :: rest) limits).turn.search.steps = 0 ∧
          (start offer (goal :: rest) limits).turn.search.entering = 0 ∧
          (start offer (goal :: rest) limits).turn.seen.countP
            (fun result => result.1.isSolution) = 0 := by
        cases exceeded : limits.checkDepth 0 with
        | none => simp [start, turn, enter, exceeded, entering, Turn.seen]
        | some error =>
          simp [start, turn, enter, exceeded, entering, Turn.seen, abort, Report.isSolution]
      rw [if_neg (List.cons_ne_nil goal rest)]
      omega

end Search

/-! ## Calls -/

/-- Calls return what is seen of some turns, the last of which reports the last of it. -/
theorem Calls.exists_seen_eq {search : Search} {results : List (Report × Nat)}
    (calls : Calls search results) :
    ∃ turns, search.seen turns = results ∧
      ∀ result ∈ results.getLast?, (search.after turns).steps = result.2 := by
  induction calls with
  | nil search => exact ⟨0, rfl, nofun⟩
  | @call search _ reply results returned _ ih =>
    obtain ⟨made, after, seen, -⟩ := Search.exists_turns_of_nextAfter returned
    cases results with
    | nil =>
      refine ⟨made, seen, ?_⟩
      rintro _ ⟨⟩
      rw [after]
      rfl
    | cons result results =>
      obtain ⟨more, seenLater, steps⟩ := ih
      refine ⟨made + more, ?_, ?_⟩
      · rw [Search.seen_add, seen, after, seenLater]
        rfl
      · rw [Search.after_add, after]
        exact steps

section Finished

variable {search : Search} {turns : Nat} {results : List (Report × Nat)}

/-- A call returns if the search ends. -/
theorem Calls.exists_next (calls : Calls search results)
    (finished : (search.after turns).phase = .finished) :
    ∃ result, Calls search (results ++ [result]) := by
  obtain ⟨made, beginning⟩ := Search.calls_iff.1 calls
  -- When the search has ended, every turn reports something.
  have whole := Search.seen_add search turns (results.length + 1)
  rw [Search.seen_of_finished finished] at whole
  have longer : search.seen (turns + (results.length + 1)) <+:
      search.seen (turns + (results.length + 1) + made) := Search.seen_isPrefix _ (by omega)
  have begun : results <+: search.seen (turns + (results.length + 1) + made) :=
    beginning.trans (Search.seen_isPrefix _ (by omega))
  have length : results.length < (search.seen (turns + (results.length + 1) + made)).length := by
    have atLeast := longer.length_le
    rw [whole, List.length_append, List.length_replicate] at atLeast
    omega
  obtain ⟨rest, split⟩ := begun
  cases rest with
  | nil =>
    rw [← split, List.append_nil] at length
    omega
  | cons result rest =>
    refine ⟨result, Search.calls_iff.2 ⟨turns + (results.length + 1) + made, rest, ?_⟩⟩
    rw [← split, List.append_assoc]
    rfl

/-- What is returned after what is seen of the turns up to the end is the end. -/
theorem Calls.exhausted_of_mem_drop (calls : Calls search results)
    (finished : (search.after turns).phase = .finished) {result : Report × Nat}
    (member : result ∈ results.drop (search.seen turns).length) : result.1 = .exhausted := by
  obtain ⟨made, beginning⟩ := Search.calls_iff.1 calls
  have begun : results <+: search.seen (turns + made) :=
    beginning.trans (Search.seen_isPrefix _ (by omega))
  rw [Search.seen_add, Search.seen_of_finished finished] at begun
  have inRest := (begun.drop (search.seen turns).length).mem member
  rw [List.drop_left] at inRest
  rw [(List.mem_replicate.1 inRest).2]

end Finished

/-- A query with a limit ends. Every call returns, and after finitely many calls all return the end.
A limit on attempts is exceeded by one at most. With a limit on the depth there is at most one
choice point for each level from 0 to the limit, and the attempts are bounded by the powers of the
number of clauses. There are no more solutions than attempts, or one if there are no goals. -/
theorem calls_end (clauses : List Clause) (goals : List Term) {limits : Limits}
    (limited : limits.maxDepth ≠ none ∨ limits.maxSteps ≠ none) :
    let search := (KnowledgeBase.ofClauses clauses).query goals limits
    (∀ results, Calls search results → ∃ result, Calls search (results ++ [result])) ∧
    (∃ count, ∀ results, Calls search results → ∀ result ∈ results.drop count,
      result.1 = .exhausted) ∧
    (∀ limit, limits.maxSteps = some limit → ∀ turns, (search.after turns).steps ≤ limit + 1) ∧
    (∀ limit, limits.maxDepth = some limit → ∀ turns,
      (search.after turns).stack.length ≤ limit + 1 ∧
      (search.after turns).steps ≤
        ∑ level ∈ Finset.range (limit + 1), clauses.length ^ (level + 1)) ∧
    ∀ results report attempts, Calls search (results ++ [(report, attempts)]) →
      (results ++ [(report, attempts)]).countP (fun result => result.1.isSolution) ≤
        if goals = [] then 1 else attempts := by
  intro search
  have few (goal : Term) : ((KnowledgeBase.ofClauses clauses).matching goal).length ≤
      clauses.length := by
    rw [KnowledgeBase.matching_ofClauses]
    exact List.length_filter_le _ _
  have stepLimit (limit : Nat) (isLimit : limits.maxSteps = some limit) (turns : Nat) :
      (search.after turns).steps ≤ limit + 1 := by
    have bounded : search.StepsBounded limit := ⟨isLimit, Nat.zero_le _, fun _ => Nat.zero_le _⟩
    exact (bounded.after turns).atMost
  have depthLimit (limit : Nat) (isLimit : limits.maxDepth = some limit) (turns : Nat) :
      (search.after turns).steps ≤ Search.attemptBound clauses.length limit :=
    Search.steps_le_attemptBound isLimit few turns
  obtain ⟨last, finished⟩ : ∃ turns, (search.after turns).phase = .finished := by
    rcases limited with depth | steps
    · obtain ⟨limit, isLimit⟩ := Option.ne_none_iff_exists'.1 depth
      exact ⟨_, Search.finished_turnBound isLimit few⟩
    · obtain ⟨limit, isLimit⟩ := Option.ne_none_iff_exists'.1 steps
      exact ⟨_, Search.finished_of_steps_le (stepLimit limit isLimit _) (Nat.le_refl _)⟩
  refine ⟨fun results calls => calls.exists_next finished,
    ⟨_, fun results calls result member => calls.exhausted_of_mem_drop finished member⟩,
    stepLimit, ?_, ?_⟩
  · intro limit isLimit turns
    refine ⟨Search.length_stack_le isLimit turns, ?_⟩
    rw [← Search.attemptBound_eq_sum]
    exact depthLimit limit isLimit turns
  · intro results report attempts calls
    obtain ⟨turns, seen, steps⟩ := calls.exists_seen_eq
    have same : (search.after turns).steps = attempts := steps (report, attempts) (by simp)
    rw [← seen, ← same]
    exact Search.countP_seen_start_le _ goals limits turns

/-- The rule `p(X) :- p(X)` makes the query for `p(Y)` endless. With a depth limit of 1 it is given
up at the second use of the rule, after four attempts of at most `2 + 4`. -/
theorem calls_end_loop :
    let clauses : List Clause := [.ofParts "p" [.atom "a"] [],
      .ofParts "p" [.var "X"] [.app "p" [.var "X"]]]
    let search := (KnowledgeBase.ofClauses clauses).query [.app "p" [.var "Y"]]
      { maxDepth := some 1 }
    let results : List (Report × Nat) := [(.solution ⟨[("Y", .atom "a")]⟩, 1),
      (.solution ⟨[("Y", .atom "a")]⟩, 3), (.aborted (.depthLimitExceeded 1), 4)]
    Calls search results ∧ (∃ result, Calls search (results ++ [result])) ∧
      (∃ count, ∀ results, Calls search results → ∀ result ∈ results.drop count,
        result.1 = .exhausted) ∧
      (∀ turns, (search.after turns).stack.length ≤ 2 ∧ (search.after turns).steps ≤ 6) := by
  intro clauses search results
  have calls : Calls search results := Search.calls_iff.2 ⟨9, by decide +kernel⟩
  have limited : (Limits.mk (some 1) none).maxDepth ≠ none ∨
      (Limits.mk (some 1) none).maxSteps ≠ none := .inl (by decide)
  obtain ⟨next, ended, -, depth, -⟩ := calls_end clauses [.app "p" [.var "Y"]] limited
  exact ⟨calls, next results calls, ended, depth 1 rfl⟩

end HornLogic
