import Mathlib.Data.List.Infix
import HornLogic.Search.Basic

/-!
# Calls and turns

A caller sees a search only through its calls of `Search.next`, each of which makes as many turns
as it needs until one reports something. `Calls` says of a list of reports, each with the number
of clause attempts made up to then, that calls one after another returned it.

Proofs look at turns instead. `Search.after` makes a number of turns, `Search.seen` lists what they
report and `Search.logged` what they log. `calls_iff` is the bridge: calls return a list exactly if
it is the beginning of what is seen in some number of turns.

When a search has ended it reports the end again and again (`seen_of_finished`).
-/

namespace HornLogic

/-- Calls of `next` one after another returned these reports, each with the number of attempts
made so far. -/
inductive Calls : Search → List (Report × Nat) → Prop where
  | nil (search : Search) : Calls search []
  | call {search : Search} {turns : Nat} {reply : Reply} {results : List (Report × Nat)} :
      search.next turns = some reply → Calls reply.search results →
      Calls search ((reply.report, reply.search.steps) :: results)

/-- What the caller sees of a turn. -/
def Turn.seen (turn : Turn) : List (Report × Nat) :=
  turn.report.toList.map fun report => (report, turn.search.steps)

theorem Turn.mem_seen_iff {turn : Turn} {report : Report} {attempts : Nat} :
    (report, attempts) ∈ turn.seen ↔ turn.report = some report ∧ turn.search.steps = attempts := by
  simp [seen]

theorem Turn.report_of_mem_seen {turn : Turn} {report : Report} {attempts : Nat}
    (member : (report, attempts) ∈ turn.seen) : turn.report = some report :=
  (mem_seen_iff.1 member).1

namespace Search

def after : Nat → Search → Search
  | 0, search => search
  | turns + 1, search => after turns search.turn.search

/-- What a number of turns report. -/
def seen : Nat → Search → List (Report × Nat)
  | 0, _ => []
  | turns + 1, search => search.turn.seen ++ seen turns search.turn.search

/-- What a number of turns log. -/
def logged : Nat → Search → List Event
  | 0, _ => []
  | turns + 1, search => search.turn.log ++ logged turns search.turn.search

theorem after_add (search : Search) (m n : Nat) :
    search.after (m + n) = (search.after m).after n := by
  induction m generalizing search with
  | zero => simp [after]
  | succ m ih =>
    rw [Nat.succ_add]
    exact ih search.turn.search

theorem after_succ (search : Search) (turns : Nat) :
    search.after (turns + 1) = (search.after turns).turn.search :=
  search.after_add turns 1

/-- What every turn keeps holds at any time, if it holds at first. -/
theorem holds_after {P : Search → Prop} (kept : ∀ search, P search → P search.turn.search)
    {search : Search} (holds : P search) (turns : Nat) : P (search.after turns) := by
  induction turns generalizing search with
  | zero => exact holds
  | succ turns ih => exact ih (kept search holds)

theorem seen_add (search : Search) (m n : Nat) :
    search.seen (m + n) = search.seen m ++ (search.after m).seen n := by
  induction m generalizing search with
  | zero => simp [seen, after]
  | succ m ih =>
    rw [Nat.succ_add]
    show search.turn.seen ++ search.turn.search.seen (m + n) = _
    rw [ih search.turn.search, ← List.append_assoc]
    rfl

theorem logged_add (search : Search) (m n : Nat) :
    search.logged (m + n) = search.logged m ++ (search.after m).logged n := by
  induction m generalizing search with
  | zero => simp [logged, after]
  | succ m ih =>
    rw [Nat.succ_add]
    show search.turn.log ++ search.turn.search.logged (m + n) = _
    rw [ih search.turn.search, ← List.append_assoc]
    rfl

theorem seen_isPrefix (search : Search) {m n : Nat} (le : m ≤ n) :
    search.seen m <+: search.seen n := by
  obtain ⟨more, rfl⟩ := Nat.exists_eq_add_of_le le
  rw [seen_add]
  exact List.prefix_append _ _

/-- What is seen of turns is seen of one of them. -/
theorem exists_turn_of_mem_seen {search : Search} {turns : Nat} {result : Report × Nat}
    (member : result ∈ search.seen turns) :
    ∃ earlier < turns, result ∈ (search.after earlier).turn.seen := by
  induction turns generalizing search with
  | zero => simp [seen] at member
  | succ turns ih =>
    rcases List.mem_append.1 member with first | later
    · exact ⟨0, Nat.succ_pos turns, first⟩
    · obtain ⟨earlier, less, found⟩ := ih later
      exact ⟨earlier + 1, Nat.succ_lt_succ less, found⟩

theorem turn_of_finished {search : Search} (finished : search.phase = .finished) :
    search.turn = { search, report := some .exhausted } := by
  rw [Search.turn, finished]

/-- A search that has ended stays as it is. -/
theorem after_of_finished {search : Search} (finished : search.phase = .finished) (turns : Nat) :
    search.after turns = search := by
  induction turns with
  | zero => rfl
  | succ turns ih =>
    show search.turn.search.after turns = search
    rw [turn_of_finished finished, ih]

theorem finished_of_lt {search : Search} {earlier later : Nat} (less : earlier < later)
    (finished : (search.after earlier).turn.search.phase = .finished) :
    (search.after later).phase = .finished := by
  obtain ⟨more, rfl⟩ := Nat.exists_eq_add_of_lt less
  rw [Nat.add_assoc, after_add]
  show ((search.after earlier).turn.search.after more).phase = .finished
  rw [after_of_finished finished, finished]

/-- A search that has ended reports the end at every turn. -/
theorem seen_of_finished {search : Search} (finished : search.phase = .finished) (turns : Nat) :
    search.seen turns = List.replicate turns (.exhausted, search.steps) := by
  induction turns with
  | zero => rfl
  | succ turns ih =>
    show search.turn.seen ++ search.turn.search.seen turns = _
    rw [turn_of_finished finished, ih]
    rfl

/-- A search that has ended logs nothing any more. -/
theorem logged_of_finished {search : Search} (finished : search.phase = .finished) (turns : Nat) :
    search.logged turns = [] := by
  induction turns with
  | zero => rfl
  | succ turns ih =>
    show search.turn.log ++ search.turn.search.logged turns = []
    rw [turn_of_finished finished, ih]
    rfl

/-! ## From calls to turns and back -/

/-- A call makes turns of which only the last one reports something, and gives their log. -/
theorem exists_turns_of_nextAfter {log : Array Event} {turns : Nat} {search : Search}
    {reply : Reply} (returned : nextAfter log turns search = some reply) :
    ∃ made, search.after made = reply.search ∧
      search.seen made = [(reply.report, reply.search.steps)] ∧
      reply.log.toList = log.toList ++ search.logged made := by
  induction turns generalizing log search with
  | zero => simp [nextAfter] at returned
  | succ turns ih =>
    rw [nextAfter] at returned
    rcases turn : search.turn with ⟨next, _ | report, events⟩
    · rw [turn] at returned
      obtain ⟨made, after, seen, logged⟩ := ih returned
      refine ⟨made + 1, ?_, ?_, ?_⟩
      · show search.turn.search.after made = _
        rw [turn, after]
      · show search.turn.seen ++ search.turn.search.seen made = _
        rw [turn, seen]
        rfl
      · show _ = log.toList ++ (search.turn.log ++ search.turn.search.logged made)
        rw [turn, logged]
        simp
    · rw [turn] at returned
      obtain rfl := Option.some.inj returned
      refine ⟨1, ?_, ?_, ?_⟩
      · show search.turn.search = _
        rw [turn]
      · show search.turn.seen ++ [] = _
        rw [turn]
        rfl
      · show _ = log.toList ++ (search.turn.log ++ [])
        rw [turn]
        simp

/-- If turns report something, a call returns the first of it, and the rest is seen from there. -/
theorem exists_nextAfter_of_seen (log : Array Event) {turns : Nat} {search : Search}
    {result : Report × Nat} {results : List (Report × Nat)}
    (seen : search.seen turns = result :: results) :
    ∃ made reply rest, nextAfter log made search = some reply ∧
      (reply.report, reply.search.steps) = result ∧ reply.search.seen rest = results := by
  induction turns generalizing log search with
  | zero => simp [Search.seen] at seen
  | succ turns ih =>
    have split : search.turn.seen ++ search.turn.search.seen turns = result :: results := seen
    rcases turn : search.turn with ⟨next, _ | report, events⟩
    · rw [turn] at split
      obtain ⟨made, reply, rest, returned, first, later⟩ := ih (log ++ events) split
      refine ⟨made + 1, reply, rest, ?_, first, later⟩
      rw [nextAfter, turn]
      exact returned
    · rw [turn] at split
      obtain ⟨first, later⟩ := List.cons.inj split
      refine ⟨1, { search := next, report, log := log ++ events }, turns, ?_, first, later⟩
      rw [nextAfter, turn]

/-- Calls return the beginnings of what turns report. -/
theorem calls_iff {search : Search} {results : List (Report × Nat)} :
    Calls search results ↔ ∃ turns, results <+: search.seen turns := by
  constructor
  · intro calls
    induction calls with
    | nil => exact ⟨0, List.nil_prefix⟩
    | @call search _ reply results returned _ ih =>
      obtain ⟨made, after, first, -⟩ := exists_turns_of_nextAfter returned
      obtain ⟨later, isPrefix⟩ := ih
      refine ⟨made + later, ?_⟩
      rw [seen_add, first, after]
      simpa using isPrefix
  · rintro ⟨turns, isPrefix⟩
    -- Each call takes the first report off the list that is still to be seen.
    induction results generalizing search turns with
    | nil => exact .nil search
    | cons result results ih =>
      obtain ⟨rest, whole⟩ := isPrefix
      obtain ⟨made, reply, more, returned, rfl, later⟩ :=
        exists_nextAfter_of_seen #[] whole.symm
      exact .call returned (ih more (by rw [later]; exact List.prefix_append _ _))

end Search

end HornLogic
