import HornLogic.Proofs.Search.Branch
import HornLogic.Proofs.Search.Limited

/-!
# Where a limit cuts a search short

Compare a search with limits to the search without any. The limits are exceeded when the search
without limits is about to make one attempt too many, or has goals left after one step too many on
its branch (`Exceeds`). What happens then is settled by the report of the error and the number of
attempts that goes with it.

As long as nothing exceeds the limits, both searches go through the same states, names and
attempts included (`after_of_not_exceeds`). At the first excess the search with limits reports the
error (`turn_of_exceeds`), and from then on it reports the end. If there is never an excess, the
two are the same for good. `calls_limited` says all of this of what calls return.

Independently of limits, a report that is final is followed by nothing but news of the end
(`final_of_seen`).
-/

namespace HornLogic

/-- The search is about to exceed one of the limits on this branch. What it would report instead of
going on, and the number of attempts that it would have made. -/
inductive Exceeds (limits : Limits) (search : Search) (branch : List Clause) :
    Report × Nat → Prop where
  /-- A clause is to be tried, and as many attempts have been made as are allowed. -/
  | steps {limit : Nat} {point : ChoicePoint} {below : List ChoicePoint} {clause : Clause}
      {untried : List Clause} : limits.maxSteps = some limit → search.phase = .resume →
      search.stack = point :: below → point.untried = clause :: untried → search.steps = limit →
      Exceeds limits search branch (.aborted (.stepLimitExceeded limit), limit + 1)
  /-- Goals are left, and more steps have been made on the branch than are allowed. -/
  | depth {limit : Nat} {goal : Term} {rest : List Term} {depth : Nat} :
      limits.maxDepth = some limit → search.phase = .enter (goal :: rest) depth →
      limit < branch.length →
      Exceeds limits search branch (.aborted (.depthLimitExceeded limit), search.steps)

/-- After this number of turns the search is about to exceed the limits for the first time. -/
structure FirstExceeds (limits : Limits) (search : Search) (turns : Nat) (result : Report × Nat) :
    Prop where
  exceeds : Exceeds limits (search.after turns) (search.branch turns) result
  first : ∀ earlier < turns, ∀ other,
    ¬ Exceeds limits (search.after earlier) (search.branch earlier) other

def Report.isAborted : Report → Bool
  | .aborted _ => true
  | _ => false

theorem Report.isFinal_of_isAborted {report : Report} (aborted : report.isAborted = true) :
    report.isFinal = true := by
  cases report with
  | aborted error => rfl
  | solution answer => contradiction
  | exhausted => contradiction

namespace Search

variable {search : Search} {goals : List Term} {branch : List Clause} {result : Report × Nat}

/-! ## One turn -/

/-- The attempts made so far are allowed. -/
def StepsWithin (search : Search) : Prop :=
  ∀ limit, search.limits.maxSteps = some limit → search.steps ≤ limit

/-- A search that exceeds its limits is given up. -/
theorem turn_of_exceeds (branched : Branched goals search.unlimited branch)
    (exceeds : Exceeds search.limits search.unlimited branch result) :
    search.turn.seen = [result] ∧ search.turn.search.phase = .finished ∧
      search.turn.search.steps = result.2 := by
  cases exceeds with
  | @steps limit point below clause untried isLimit phase stack clauses atLimit =>
    obtain rfl : search.steps = limit := atLimit
    have exceeded : search.limits.checkSteps (search.steps + 1) =
        some (.stepLimitExceeded search.steps) :=
      Limits.checkSteps_eq_some_iff.2 ⟨search.steps, isLimit, Nat.lt_succ_self _, rfl⟩
    have phase' : search.phase = .resume := phase
    have stack' : search.stack = point :: below := stack
    simp [turn, resume, attempt, abort, Turn.seen, phase', stack', clauses, exceeded]
  | @depth limit goal rest depth isLimit phase beyond =>
    obtain ⟨-, sameDepth, -⟩ := branched.entering _ _ phase
    have exceeded : search.limits.checkDepth depth = some (.depthLimitExceeded limit) :=
      Limits.checkDepth_eq_some_iff.2 ⟨limit, isLimit, sameDepth ▸ beyond, rfl⟩
    have phase' : search.phase = .enter (goal :: rest) depth := phase
    simp [turn, enter, abort, Turn.seen, phase', exceeded, unlimited]

/-- A search that does not exceed its limits is not given up. -/
theorem not_aborted_of_not_exceeds (branched : Branched goals search.unlimited branch)
    (within : search.StepsWithin)
    (none : ∀ result, ¬ Exceeds search.limits search.unlimited branch result) (error : Error) :
    search.turn.report ≠ some (.aborted error) := by
  intro aborted
  cases exceeded_of_aborted aborted with
  | inl tooDeep =>
    obtain ⟨goal, rest, depth, phase, exceeded⟩ := tooDeep
    obtain ⟨limit, isLimit, beyond, rfl⟩ := Limits.checkDepth_eq_some_iff.1 exceeded
    obtain ⟨-, sameDepth, -⟩ := branched.entering _ _ phase
    exact none _ (.depth isLimit phase (sameDepth ▸ beyond))
  | inr tooMany =>
    obtain ⟨point, below, clause, untried, phase, stack, clauses, exceeded⟩ := tooMany
    obtain ⟨limit, isLimit, beyond, rfl⟩ := Limits.checkSteps_eq_some_iff.1 exceeded
    have atLimit : search.steps = limit := by
      have allowed := within limit isLimit
      omega
    exact none _ (.steps isLimit phase stack clauses atLimit)

/-- Attempts that are checked stay allowed. -/
theorem StepsWithin.turn (within : search.StepsWithin)
    (going : ∀ error, search.turn.report ≠ some (.aborted error)) :
    search.turn.search.StepsWithin := by
  have cases := search.turnCase
  intro limit isLimit
  rw [limits_turn] at isLimit
  have allowed := within limit isLimit
  have counted (unchecked : search.limits.checkSteps (search.steps + 1) = none) :
      search.steps + 1 ≤ limit := by
    simpa [Limits.checkSteps, isLimit] using unchecked
  generalize search.turn = turn, search.variant? = made at cases going
  cases cases with
  | tooMany _ _ _ _ error => exact absurd rfl (going error)
  | failed _ _ _ _ _ _ _ _ unchecked => exact counted unchecked
  | resolved _ _ _ _ _ _ _ unchecked => exact counted unchecked
  | solved => exact allowed
  | tooDeep => exact allowed
  | descended => exact allowed
  | exhausted => exact allowed
  | popped => exact allowed
  | finished => exact allowed

/-! ## A run -/

/-- As long as nothing exceeds the limits they make no difference, and what is seen is the same. -/
theorem after_of_not_exceeds (branched : Branched goals search.unlimited branch)
    (within : search.StepsWithin) {turns : Nat}
    (none : ∀ earlier < turns, ∀ result,
      ¬ Exceeds search.limits (search.unlimited.after earlier)
        (search.unlimited.branchAfter earlier branch) result) :
    (search.after turns).unlimited = search.unlimited.after turns ∧
      search.seen turns = search.unlimited.seen turns ∧ (search.after turns).StepsWithin := by
  induction turns generalizing search branch with
  | zero => exact ⟨rfl, rfl, within⟩
  | succ turns ih =>
    have going := not_aborted_of_not_exceeds branched within (none 0 (Nat.succ_pos _))
    rcases search.turn_unlimited with ⟨next, seen⟩ | ⟨⟨error, aborted⟩, -⟩
    · have branched' := branched.turn
      rw [next] at branched'
      have later : ∀ earlier < turns, ∀ result,
          ¬ Exceeds search.turn.search.limits (search.turn.search.unlimited.after earlier)
            (search.turn.search.unlimited.branchAfter earlier (search.unlimited.nextBranch branch))
            result := by
        intro earlier below result
        rw [limits_turn, ← next]
        exact none (earlier + 1) (Nat.succ_lt_succ below) result
      obtain ⟨same, seenLater, within'⟩ := ih branched' (within.turn going) later
      rw [← next] at same seenLater
      refine ⟨same, ?_, within'⟩
      show search.turn.seen ++ search.turn.search.seen turns = _
      rw [seenLater, ← seen]
      rfl
    · exact absurd aborted (going error)

/-- At the first excess the search is given up, and then it reports the end. -/
theorem seen_of_firstExceeds (branched : Branched goals search.unlimited [])
    (within : search.StepsWithin) {turns : Nat}
    (first : FirstExceeds search.limits search.unlimited turns result) (later : Nat) :
    search.seen (turns + (later + 1)) =
      search.unlimited.seen turns ++ result :: List.replicate later (.exhausted, result.2) := by
  obtain ⟨same, seen, -⟩ := after_of_not_exceeds branched within first.first
  have branchedThen := branched.after turns
  have exceeds := first.exceeds
  rw [← same] at branchedThen exceeds
  rw [← limits_after search turns] at exceeds
  obtain ⟨reported, finished, attempts⟩ := turn_of_exceeds branchedThen exceeds
  rw [seen_add, seen]
  show _ ++ ((search.after turns).turn.seen ++ (search.after turns).turn.search.seen later) = _
  rw [reported, seen_of_finished finished, attempts]
  rfl

/-! ## Final reports -/

/-- After a final report the search is over, and all that is seen later is the end. -/
theorem final_of_seen {turns : Nat} {before after : List (Report × Nat)} {report : Report}
    {attempts : Nat} (seen : search.seen turns = before ++ (report, attempts) :: after)
    (final : report.isFinal = true) :
    (search.after turns).phase = .finished ∧ (search.after turns).steps = attempts ∧
      ∃ later, after = List.replicate later (.exhausted, attempts) := by
  induction turns generalizing search before with
  | zero => simp [Search.seen] at seen
  | succ turns ih =>
    have split : search.turn.seen ++ search.turn.search.seen turns =
      before ++ (report, attempts) :: after := seen
    cases reported : search.turn.report with
    | none =>
      have nothing : search.turn.seen = [] := by rw [Turn.seen, reported]; rfl
      rw [nothing] at split
      exact ih split
    | some first =>
      have one : search.turn.seen = [(first, search.turn.search.steps)] := by
        rw [Turn.seen, reported]
        rfl
      rw [one] at split
      cases before with
      | cons result before =>
        obtain ⟨-, rest⟩ := List.cons.inj split
        exact ih rest
      | nil =>
        obtain ⟨same, rest⟩ := List.cons.inj split
        obtain ⟨rfl, rfl⟩ := Prod.mk.inj same
        have finished := finished_of_final reported final
        have stays := after_of_finished finished turns
        rw [seen_of_finished finished] at rest
        refine ⟨?_, ?_, turns, rest.symm⟩
        · show (search.turn.search.after turns).phase = _
          rw [stays, finished]
        · show (search.turn.search.after turns).steps = _
          rw [stays]

end Search

/-! ## What calls return -/

/-- Once calls have returned a final report, later calls return, and what they return is the end. -/
theorem Calls.final_iff {search : Search} {before : List (Report × Nat)} {report : Report}
    {attempts : Nat} (calls : Calls search (before ++ [(report, attempts)]))
    (final : report.isFinal = true) (after : List (Report × Nat)) :
    Calls search (before ++ (report, attempts) :: after) ↔
      ∃ later, after = List.replicate later (.exhausted, attempts) := by
  constructor
  · intro more
    obtain ⟨turns, rest, seen⟩ := Search.calls_iff.1 more
    rw [List.append_assoc, List.cons_append] at seen
    obtain ⟨-, -, later, ended⟩ := Search.final_of_seen seen.symm final
    obtain ⟨_, same, _⟩ := List.append_eq_replicate_iff.1 ended
    exact ⟨after.length, same⟩
  · rintro ⟨later, rfl⟩
    obtain ⟨turns, rest, seen⟩ := Search.calls_iff.1 calls
    rw [List.append_assoc, List.cons_append, List.nil_append] at seen
    obtain ⟨finished, steps, ended, rfl⟩ := Search.final_of_seen seen.symm final
    apply Search.calls_iff.2
    refine ⟨turns + later, ?_⟩
    rw [Search.seen_add, Search.seen_of_finished finished, steps, ← seen]
    refine ⟨List.replicate ended (.exhausted, attempts), ?_⟩
    simp only [List.append_assoc, List.cons_append, List.replicate_append_replicate]
    rw [Nat.add_comm]

/-- Calls return at most one error. -/
theorem Calls.countP_isAborted_le {search : Search} {results : List (Report × Nat)}
    (calls : Calls search results) : results.countP (fun result => result.1.isAborted) ≤ 1 := by
  induction calls with
  | nil => exact Nat.zero_le 1
  | @call search turns reply results returned more ih =>
    rw [List.countP_cons]
    cases aborted : reply.report.isAborted with
    | false => simpa using ih
    | true =>
      -- An error is final, so none comes later.
      have first : Calls search ([] ++ [(reply.report, reply.search.steps)]) :=
        .call returned (.nil _)
      have final := Report.isFinal_of_isAborted aborted
      obtain ⟨later, rfl⟩ := (first.final_iff final results).1 (.call returned more)
      simp [List.countP_replicate, Report.isAborted]

/-- Limits only cut a query short, and at the first excess. Up to there the query goes through the
same states with and without limits. Then calls return what they would return without limits before
the excess, the error, and the end for ever. Without any excess all is as without limits. In any
case calls return at most one error, and after an error or the end they return the end and make no
more attempts. -/
theorem calls_limited (kb : KnowledgeBase) (goals : List Term) (limits : Limits) :
    let free := kb.query goals .unbounded
    let limited := kb.query goals limits
    (∀ turns result, FirstExceeds limits free turns result →
      (∀ earlier ≤ turns, (limited.after earlier).unlimited = free.after earlier) ∧
      Calls free (free.seen turns) ∧
      ∀ results, Calls limited results ↔ ∃ later,
        results <+: free.seen turns ++ result :: List.replicate later (.exhausted, result.2)) ∧
    ((∀ turns result, ¬ Exceeds limits (free.after turns) (free.branch turns) result) →
      (∀ turns, (limited.after turns).unlimited = free.after turns) ∧
      ∀ results, Calls limited results ↔ Calls free results) ∧
    (∀ results, Calls limited results → results.countP (fun result => result.1.isAborted) ≤ 1) ∧
    ∀ before report attempts, Calls limited (before ++ [(report, attempts)]) →
      report.isFinal = true → ∀ after, Calls limited (before ++ (report, attempts) :: after) ↔
        ∃ later, after = List.replicate later (.exhausted, attempts) := by
  intro free limited
  have branched : Branched goals limited.unlimited [] := .start kb.matching goals .unbounded
  have within : limited.StepsWithin := fun limit _ => Nat.zero_le limit
  refine ⟨?_, ?_, fun results calls => calls.countP_isAborted_le,
    fun before report attempts calls final => calls.final_iff final⟩
  · intro turns result first
    refine ⟨?_, Search.calls_iff.2 ⟨turns, List.prefix_rfl⟩, ?_⟩
    · intro earlier reached
      exact (Search.after_of_not_exceeds branched within fun before less =>
        first.first before (by omega)).1
    · intro results
      have cut := Search.seen_of_firstExceeds branched within first
      rw [Search.calls_iff]
      constructor
      · rintro ⟨made, beginning⟩
        have longer : limited.seen made <+: limited.seen (turns + (made + 1)) :=
          Search.seen_isPrefix limited (by omega)
        exact ⟨made, cut made ▸ beginning.trans longer⟩
      · rintro ⟨later, beginning⟩
        exact ⟨turns + (later + 1), (cut later).symm ▸ beginning⟩
  · intro never
    have same (turns : Nat) : (limited.after turns).unlimited = free.after turns ∧
        limited.seen turns = free.seen turns := by
      obtain ⟨states, seen, -⟩ :=
        Search.after_of_not_exceeds branched within fun before (_ : before < turns) => never before
      exact ⟨states, seen⟩
    refine ⟨fun turns => (same turns).1, ?_⟩
    intro results
    rw [Search.calls_iff, Search.calls_iff]
    exact exists_congr fun turns => by rw [(same turns).2]

/-- With the fact `a` and one attempt allowed, a query for `a` and `a` is given up when it takes up
the second goal's first clause; a depth limit of 1 does not come into it. Without limits it has a
solution. -/
theorem calls_limited_a :
    let kb := KnowledgeBase.ofClauses [.ofParts "a" [] []]
    let goals : List Term := [.atom "a", .atom "a"]
    let limits : Limits := { maxDepth := some 1, maxSteps := some 1 }
    let error : Report × Nat := (.aborted (.stepLimitExceeded 1), 2)
    FirstExceeds limits (kb.query goals .unbounded) 3 error ∧
      (∀ results, Calls (kb.query goals limits) results ↔
        ∃ later, results <+: error :: List.replicate later (.exhausted, 2)) ∧
      Calls (kb.query goals .unbounded) [(.solution { bindings := [] }, 2)] := by
  intro kb goals limits error
  have first : FirstExceeds limits (kb.query goals .unbounded) 3 error := by
    refine { exceeds := .steps rfl rfl rfl rfl rfl, first := ?_ }
    intro earlier less other exceeds
    have cases : earlier = 0 ∨ earlier = 1 ∨ earlier = 2 := by omega
    cases exceeds with
    | @steps limit _ _ _ _ isLimit phase _ _ atLimit =>
      obtain rfl : 1 = limit := Option.some.inj isLimit
      rcases cases with rfl | rfl | rfl
      · exact nomatch phase
      · exact absurd atLimit (by decide +kernel)
      · exact nomatch phase
    | @depth limit _ _ _ isLimit phase beyond =>
      obtain rfl : 1 = limit := Option.some.inj isLimit
      rcases cases with rfl | rfl | rfl
      · exact absurd beyond (by decide +kernel)
      · exact nomatch phase
      · exact absurd beyond (by decide +kernel)
  refine ⟨first, ?_, ?_⟩
  · exact ((calls_limited kb goals limits).1 3 error first).2.2
  · exact Search.calls_iff.2 ⟨5, by decide +kernel⟩

end HornLogic
