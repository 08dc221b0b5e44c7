import HornLogic.Proofs.WellNested
import HornLogic.Proofs.Search.Branch

/-!
# The log of a search

A search selects a goal where it pushes a choice point and leaves it where it pops the choice point.
So the goals on the stack are those selected and not left yet, and reading the log of a turn takes
the goals that were on the stack before to those that are on it afterwards (`tracks_turn`). The only
exception is a turn that gives the search up, since it clears the stack without leaving the goals.
The depth at which a goal is selected is the number of goals on the stack because a branch has one
step for each choice point (`Branched`).

A resolution is logged at the end of a turn, and the next turn takes up goals. It logs a goal it
selects, a solution or an error. Since a call returns only after a turn that reports something, it
never returns between these two turns (`LoggedCalls.settled`).

`log_wellNested` says so of the whole log of a query.
-/

namespace HornLogic

open Event

/-- Calls of `next` one after another returned these reports and logged these events. -/
inductive LoggedCalls : Search → List Report → List Event → Prop where
  | nil (search : Search) : LoggedCalls search [] []
  | call {search : Search} {turns : Nat} {reply : Reply} {reports : List Report}
      {log : List Event} :
      search.next turns = some reply → LoggedCalls reply.search reports log →
      LoggedCalls search (reply.report :: reports) (reply.log.toList ++ log)

namespace Unification

variable {unification : Unification} {event : Event}

/-- A unification logs only what it does with variables. -/
theorem exists_of_mem_events (member : event ∈ unification.events) :
    ∃ x t, event = .bound x t ∨ event = .occursRejected x t := by
  have ofMade (listed : event ∈ unification.made.map fun entry => .bound entry.1 entry.2) :
      ∃ x t, event = .bound x t ∨ event = .occursRejected x t := by
    obtain ⟨entry, -, rfl⟩ := List.mem_map.1 listed
    exact ⟨entry.1, entry.2, .inl rfl⟩
  unfold events at member
  split at member
  · rename_i conflict _
    rcases List.mem_append.1 member with listed | refused
    · exact ofMade listed
    · cases conflict with
      | occurs x t => exact ⟨x, t, .inr (List.mem_singleton.1 refused)⟩
      | clash => simp [Conflict.events] at refused
      | tooDeep => simp [Conflict.events] at refused
  · exact ofMade member

theorem isBracket_of_mem_events (member : event ∈ unification.events) :
    event.isBracket = false := by
  obtain ⟨_, _, rfl | rfl⟩ := exists_of_mem_events member <;> rfl

theorem isResolved_of_mem_events (member : event ∈ unification.events) :
    event.isResolved = false := by
  obtain ⟨_, _, rfl | rfl⟩ := exists_of_mem_events member <;> rfl

end Unification

namespace Search

/-- The goals that are selected and not left yet, the last one first. -/
def openGoals (search : Search) : List Term := search.stack.map ChoicePoint.goal

/-! ## Selecting and leaving -/

section Tracking

variable {goals : List Term} {search : Search} {branch : List Clause}

/-- A turn selects what it pushes and leaves what it pops, unless it gives the search up. -/
theorem tracks_turn (branched : Branched goals search branch) :
    Tracks search.openGoals search.turn.log search.turn.search.openGoals ∨
      Tracks search.openGoals search.turn.log search.openGoals ∧
        ∃ error, search.turn.report = some (.aborted error) := by
  have cases := search.turnCase
  generalize search.turn = turn, search.variant? = made at cases
  have unrelated (event : Event) (plain : event.isBracket = false) (selected : List Term) :
      Tracks selected [event] selected := .other plain (.nil selected)
  cases cases with
  | solved => exact .inl (unrelated _ rfl _)
  | tooDeep goal rest depth error => exact .inr ⟨unrelated _ rfl _, error, rfl⟩
  | descended goal rest depth phase within =>
    obtain ⟨length, same, -⟩ := branched.entering _ _ phase
    obtain rfl : depth = search.openGoals.length := by
      rw [same, length, openGoals, List.length_map]
    exact .inl (.descended (.nil _))
  | exhausted phase stack =>
    rw [openGoals, stack]
    exact .inl (unrelated _ rfl [])
  | popped point below phase stack untried =>
    rw [openGoals, stack]
    exact .inl (.backtracked (.nil _))
  | tooMany point below clause untried error =>
    exact .inr ⟨unrelated _ rfl _, error, rfl⟩
  | failed point below clause untried conflict phase stack clauses within outcome =>
    rw [openGoals, stack]
    exact .inl (.of_others (fun _ => Unification.isBracket_of_mem_events) _)
  | resolved point below clause untried phase stack clauses within outcome =>
    rw [openGoals, stack]
    exact .inl (.append (.of_others (fun _ => Unification.isBracket_of_mem_events) _)
      (unrelated _ rfl _))
  | finished => exact .inl (.nil _)

/-- The log of some turns can be read with the goals on the stack, and unless the search was given
up, this ends with the goals that are on the stack then. -/
theorem tracks_logged (branched : Branched goals search branch) (turns : Nat) :
    ∃ last, Tracks search.openGoals (search.logged turns) last ∧
      ((∀ error, .aborted error ∉ (search.seen turns).map Prod.fst) →
        last = (search.after turns).openGoals) := by
  induction turns generalizing search branch with
  | zero => exact ⟨_, .nil _, fun _ => rfl⟩
  | succ turns ih =>
    rcases tracks_turn branched with first | ⟨first, error, aborted⟩
    · obtain ⟨last, later, same⟩ := ih branched.turn
      refine ⟨last, first.append later, fun kept => same fun error member => kept error ?_⟩
      show _ ∈ (search.turn.seen ++ search.turn.search.seen turns).map Prod.fst
      rw [List.map_append]
      exact List.mem_append_right _ member
    · have finished := finished_of_final aborted rfl
      refine ⟨search.openGoals, ?_, fun kept => (kept error ?_).elim⟩
      · show Tracks _ (search.turn.log ++ search.turn.search.logged turns) _
        rw [logged_of_finished finished, List.append_nil]
        exact first
      · show _ ∈ (search.turn.seen ++ search.turn.search.seen turns).map Prod.fst
        rw [List.map_append, Turn.seen, aborted]
        exact List.mem_cons_self

end Tracking

/-! ## The end of a search -/

/-- A search has no choice points when it has ended. -/
theorem openGoals_turn_of_finished {search : Search}
    (before : search.phase = .finished → search.openGoals = [])
    (finished : search.turn.search.phase = .finished) : search.turn.search.openGoals = [] := by
  have cases := search.turnCase
  generalize search.turn = turn, search.variant? = made at cases finished
  cases cases with
  | tooDeep => rfl
  | exhausted => rfl
  | tooMany => rfl
  | finished phase => exact before phase
  | solved => contradiction
  | descended => contradiction
  | popped => contradiction
  | failed => contradiction
  | resolved => contradiction

theorem openGoals_after_of_finished {search : Search}
    (before : search.phase = .finished → search.openGoals = []) (turns : Nat)
    (finished : (search.after turns).phase = .finished) : (search.after turns).openGoals = [] :=
  holds_after (P := fun now => now.phase = .finished → now.openGoals = [])
    (fun _ before => openGoals_turn_of_finished before) before turns finished

/-- A search that has reported its end stays at the end. -/
theorem finished_of_exhausted {search : Search} {turns : Nat}
    (ended : .exhausted ∈ (search.seen turns).map Prod.fst) :
    (search.after turns).phase = .finished := by
  obtain ⟨⟨report, attempts⟩, member, rfl⟩ := List.mem_map.1 ended
  obtain ⟨earlier, less, inTurn⟩ := exists_turn_of_mem_seen member
  exact finished_of_lt less (finished_of_final (Turn.report_of_mem_seen inTurn) rfl)

/-! ## Resolving -/

/-- Every resolution in the log is settled, or the last event is one, and the search is to take up
goals. -/
def SettledSoFar (search : Search) (log : List Event) : Prop :=
  Settled log ∨ ∃ earlier goal clause, Settled earlier ∧ log = earlier ++ [.resolved goal clause] ∧
    ∃ waiting depth, search.phase = .enter waiting depth

theorem SettledSoFar.append {search : Search} {log log' : List Event} (settled : Settled log)
    (soFar : search.SettledSoFar log') : search.SettledSoFar (log ++ log') := by
  rcases soFar with settled' | ⟨earlier, goal, clause, settled', rfl, entering⟩
  · exact .inl (settled.append settled')
  · exact .inr ⟨log ++ earlier, goal, clause, settled.append settled',
      (List.append_assoc ..).symm, entering⟩

theorem settledSoFar_turn (search : Search) : search.turn.search.SettledSoFar search.turn.log := by
  have cases := search.turnCase
  generalize search.turn = turn, search.variant? = made at cases
  have unrelated (event : Event) (plain : event.isResolved = false) : Settled [event] :=
    .other plain .nil
  cases cases with
  | solved => exact .inl (unrelated _ rfl)
  | tooDeep => exact .inl (unrelated _ rfl)
  | descended => exact .inl (unrelated _ rfl)
  | exhausted => exact .inl (unrelated _ rfl)
  | popped => exact .inl (unrelated _ rfl)
  | tooMany => exact .inl (unrelated _ rfl)
  | failed => exact .inl (.of_others fun _ => Unification.isResolved_of_mem_events)
  | resolved =>
    exact .inr ⟨_, _, _, .of_others fun _ => Unification.isResolved_of_mem_events, rfl, _, _, rfl⟩
  | finished => exact .inl .nil

/-- To take up goals is logged by one event, and it settles a resolution. -/
theorem exists_log_turn_of_enter {search : Search} {waiting : List Term} {depth : Nat}
    (entering : search.phase = .enter waiting depth) :
    ∃ event, search.turn.log = [event] ∧ event.settles = true := by
  have cases := search.turnCase
  generalize search.turn = turn, search.variant? = made at cases
  cases cases with
  | solved => exact ⟨_, rfl, rfl⟩
  | tooDeep => exact ⟨_, rfl, rfl⟩
  | descended => exact ⟨_, rfl, rfl⟩
  | exhausted phase => exact nomatch phase.symm.trans entering
  | popped _ _ phase => exact nomatch phase.symm.trans entering
  | tooMany _ _ _ _ _ phase => exact nomatch phase.symm.trans entering
  | failed _ _ _ _ _ phase => exact nomatch phase.symm.trans entering
  | resolved _ _ _ _ phase => exact nomatch phase.symm.trans entering
  | finished phase => exact nomatch phase.symm.trans entering

/-- What came of a resolution is logged by the turn after it. -/
theorem settledSoFar_logged (search : Search) (turns : Nat) :
    (search.after turns).SettledSoFar (search.logged turns) := by
  induction turns with
  | zero => exact .inl .nil
  | succ turns ih =>
    have split : search.logged (turns + 1) =
        search.logged turns ++ (search.after turns).turn.log := by
      rw [logged_add]
      exact congrArg _ (List.append_nil _)
    have next : search.after (turns + 1) = (search.after turns).turn.search := after_add ..
    rw [split, next]
    rcases ih with settled | ⟨earlier, goal, clause, settled, pending, waiting, depth, entering⟩
    · exact .append settled (search.after turns).settledSoFar_turn
    · obtain ⟨event, logged, settles⟩ := exists_log_turn_of_enter entering
      rw [pending, logged, List.append_assoc]
      exact .inl (settled.append (.resolved settles .nil))

/-- What is logged at any time is the beginning of a log in which resolutions are settled. -/
theorem SettledSoFar.exists_settled {search : Search} {log : List Event}
    (soFar : search.SettledSoFar log) : ∃ rest, Settled (log ++ rest) := by
  rcases soFar with settled | ⟨earlier, goal, clause, settled, rfl, -⟩
  · exact ⟨[], by rwa [List.append_nil]⟩
  · refine ⟨[.descended goal 0], ?_⟩
    rw [List.append_assoc]
    exact settled.append (.resolved rfl .nil)

/-- A turn that reports something does not leave goals to take up. -/
theorem phase_turn_ne_enter {search : Search} {report : Report}
    (reported : search.turn.report = some report) (waiting : List Term) (depth : Nat) :
    search.turn.search.phase ≠ .enter waiting depth := by
  have cases := search.turnCase
  generalize search.turn = turn, search.variant? = made at cases reported
  intro entering
  cases cases with
  | solved => contradiction
  | tooDeep => contradiction
  | exhausted => contradiction
  | tooMany => contradiction
  | finished phase => exact nomatch phase.symm.trans entering
  | descended => contradiction
  | popped => contradiction
  | failed => contradiction
  | resolved => contradiction

theorem phase_ne_enter_of_nextAfter {log : Array Event} {turns : Nat} {search : Search}
    {reply : Reply} (returned : nextAfter log turns search = some reply) (waiting : List Term)
    (depth : Nat) : reply.search.phase ≠ .enter waiting depth := by
  induction turns generalizing log search with
  | zero => simp [nextAfter] at returned
  | succ turns ih =>
    rw [nextAfter] at returned
    rcases turn : search.turn with ⟨next, _ | report, events⟩
    · rw [turn] at returned
      exact ih returned
    · have reported : search.turn.report = some report := by rw [turn]
      have last := phase_turn_ne_enter reported waiting depth
      rw [turn] at returned last
      obtain rfl := Option.some.inj returned
      exact last

end Search

namespace LoggedCalls

variable {search : Search} {reports : List Report} {log : List Event}

/-- Calls return what some turns report and log. -/
theorem exists_turns (calls : LoggedCalls search reports log) :
    ∃ turns, (search.seen turns).map Prod.fst = reports ∧ search.logged turns = log := by
  induction calls with
  | nil => exact ⟨0, rfl, rfl⟩
  | call returned _ ih =>
    obtain ⟨made, after, seen, first⟩ := Search.exists_turns_of_nextAfter returned
    obtain ⟨more, seenLater, later⟩ := ih
    refine ⟨made + more, ?_, ?_⟩
    · rw [Search.seen_add, seen, after, List.map_append, seenLater]
      rfl
    · rw [Search.logged_add, after, later, first]
      rfl

/-- When calls have returned, all resolutions are settled. -/
theorem settled (calls : LoggedCalls search reports log) : Settled log := by
  induction calls with
  | nil => exact .nil
  | @call search _ reply _ _ returned _ ih =>
    obtain ⟨made, after, -, first⟩ := Search.exists_turns_of_nextAfter returned
    refine Settled.append ?_ ih
    rw [first]
    rcases search.settledSoFar_logged made with settled | ⟨_, _, _, -, -, _, _, entering⟩
    · exact settled
    · rw [after] at entering
      exact (Search.phase_ne_enter_of_nextAfter returned _ _ entering).elim

end LoggedCalls

/-- The log of a query follows the stack. When the search was exhausted, the selected goals and the
goals left make up a well-nested log, in which goals are selected at their depth. A search that was
given up or is not over has logged the beginning of such a log, at any time. Each resolution is
followed at once by what came of it, and no call returns before that. -/
theorem log_wellNested (kb : KnowledgeBase) (goals : List Term) (limits : Limits) :
    let search := kb.query goals limits
    (∀ reports events, LoggedCalls search reports events →
      let log := kb.queryEvents goals ++ events
      (.exhausted ∈ reports → (∀ error, .aborted error ∉ reports) →
        WellNested 0 (brackets log)) ∧
      (∃ rest, WellNested 0 (brackets log ++ rest)) ∧ Settled log) ∧
    ∀ turns log, log <+: kb.queryEvents goals ++ search.logged turns →
      (∃ rest, WellNested 0 (brackets log ++ rest)) ∧ ∃ rest, Settled (log ++ rest) := by
  intro search
  have branched : Branched goals search [] := .start kb.matching goals limits
  have begun : Tracks [] (kb.queryEvents goals) [] := .other rfl (.nil [])
  have settledBegun : Settled (kb.queryEvents goals) := .other rfl .nil
  constructor
  · intro reports events calls log
    obtain ⟨turns, rfl, rfl⟩ := calls.exists_turns
    obtain ⟨last, tracks, same⟩ := Search.tracks_logged branched turns
    refine ⟨fun ended kept => ?_, (begun.append tracks).exists_wellNested,
      settledBegun.append calls.settled⟩
    have left : (search.after turns).openGoals = [] :=
      Search.openGoals_after_of_finished (fun _ => rfl) turns (Search.finished_of_exhausted ended)
    rw [same kept, left] at tracks
    exact (begun.append tracks).wellNested
  · rintro turns log ⟨more, whole⟩
    obtain ⟨last, tracks, -⟩ := Search.tracks_logged branched turns
    obtain ⟨rest, settled⟩ := (search.settledSoFar_logged turns).exists_settled
    have readAll : Tracks [] (log ++ more) last := by
      rw [whole]
      exact begun.append tracks
    obtain ⟨middle, readSome⟩ := readAll.exists_of_append
    refine ⟨readSome.exists_wellNested, more ++ rest, ?_⟩
    rw [← List.append_assoc, whole, List.append_assoc]
    exact settledBegun.append settled

/-- The query `p(Y)` over the rule `p(X) :- q(X)` and the fact `q(a)` is solved once and then
exhausted. The goal of the rule is selected below the goal of the query and left before it. -/
theorem log_wellNested_rule :
    let clauses : List Clause := [.ofParts "p" [.var "X"] [.app "q" [.var "X"]],
      .ofParts "q" [.atom "a"] []]
    let kb : KnowledgeBase := .ofClauses clauses
    let goals : List Term := [.app "p" [.var "Y"]]
    let log : List Event := [.queryStarted goals 2,
      .descended (.app "p" [.var "Y"]) 0,
      .bound "Y" (.var "X#0"),
      .resolved (.app "p" [.var "Y"])
        (.ofParts "p" [.var "X#0"] [.app "q" [.var "X#0"]]),
      .descended (.app "q" [.var "X#0"]) 1,
      .bound "X#0" (.atom "a"),
      .resolved (.app "q" [.var "X#0"]) (.ofParts "q" [.atom "a"] []),
      .solved ⟨[("Y", .atom "a")]⟩,
      .backtracked (.app "q" [.var "X#0"]),
      .backtracked (.app "p" [.var "Y"]),
      .exhausted 2]
    (∃ events, LoggedCalls (kb.query goals .unbounded)
        [.solution ⟨[("Y", .atom "a")]⟩, .exhausted] events ∧
      kb.queryEvents goals ++ events = log) ∧
      WellNested 0 (brackets log) ∧ Settled log ∧
      ∃ rest, WellNested 0 (brackets (log.take 5) ++ rest) := by
  intro clauses kb goals log
  let search := kb.query goals .unbounded
  let reply := (search.next 8).get (by decide +kernel)
  let reply' := (reply.search.next 8).get (by decide +kernel)
  let events := reply.log.toList ++ (reply'.log.toList ++ [])
  have calls : LoggedCalls search [reply.report, reply'.report] events :=
    .call (Option.some_get _).symm (.call (Option.some_get _).symm (.nil _))
  have reports : [reply.report, reply'.report] =
      [.solution ⟨[("Y", .atom "a")]⟩, .exhausted] := by decide +kernel
  have whole : kb.queryEvents goals ++ events = log := by decide +kernel
  rw [reports] at calls
  obtain ⟨returned, running⟩ := log_wellNested kb goals .unbounded
  obtain ⟨nested, -, settled⟩ := returned _ _ calls
  have started : log.take 5 <+: kb.queryEvents goals ++ search.logged 5 := by decide +kernel
  rw [whole] at nested settled
  exact ⟨⟨events, calls, whole⟩, nested (by decide) nofun, settled, (running 5 _ started).1⟩

end HornLogic
