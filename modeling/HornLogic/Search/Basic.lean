import HornLogic.NameSupply
import HornLogic.Limits
import HornLogic.Event

/-!
# The search for solutions

A search solves goals from left to right and tries clauses in order, depth first. It is a
machine that moves in turns, and each turn does one thing:

* with goals to enter, it gives a solution if there are none, else it pushes a choice point for
  the first goal, with the clauses offered for it, unless the branch is too deep;
* with choice points to go on from, it returns to the bindings that the topmost one was pushed
  under and tries its next clause, renamed apart, or pops it when it has no clauses left;
* with neither, it is exhausted.

A clause is tried by unifying the goal with its head. On success the body, followed by the
goals that waited behind the goal, is entered one step deeper. The choice point stays on the
stack meanwhile, so that a later turn tries the clauses after this one. Bindings are shared by
the whole stack, and going back is a rollback to the mark of the choice point on top.

A turn may report a solution, an error or the end. `Search.next` makes turns until one of them
reports something. It takes the number of turns that it may make, since a search without
limits need not ever come to its next report.
-/

namespace HornLogic

/-- A selected goal with what is left to try for it. -/
structure ChoicePoint where
  /-- The goal, as it stands in the query or in the body of a renamed clause. -/
  goal : Term
  rest : List Term
  untried : List Clause
  /-- Where the trail ended when the goal was selected. -/
  mark : Mark
  /-- The number of resolution steps on the branch before the goal was selected. -/
  depth : Nat

/-- What a search does next. -/
inductive Phase where
  /-- Goals are to be solved, after a number of resolution steps on their branch. -/
  | enter (goals : List Term) (depth : Nat)
  /-- The search goes on from the topmost choice point. -/
  | resume
  | finished

/-- A state of the search for the solutions of one query. -/
structure Search where
  /-- The clauses to try for a goal that was walked, in order. -/
  offer : Term → List Clause
  limits : Limits
  /-- The variables that a solution gives values for. -/
  queryVars : List Symbol
  bindings : Bindings
  names : NameSupply
  /-- The choice points of the branch, the topmost first. -/
  stack : List ChoicePoint
  phase : Phase
  /-- The number of clauses tried so far. -/
  steps : Nat

/-- What a search tells its caller. -/
inductive Report where
  | solution (answer : Solution)
  /-- A limit was exceeded, and the search is over. -/
  | aborted (error : Error)
  | exhausted
  deriving DecidableEq

structure Turn where
  search : Search
  report : Option Report := none
  log : List Event := []

/-- The outcome of asking for the next solution. -/
structure Reply where
  search : Search
  report : Report
  log : Array Event

namespace Search

/-- The search for the goals among the clauses that `offer` gives. -/
def start (offer : Term → List Clause) (goals : List Term) (limits : Limits) : Search :=
  let queryVars := Term.varsAll goals
  { offer, limits, queryVars
    bindings := .empty
    names := .avoiding queryVars
    stack := []
    phase := .enter goals 0
    steps := 0 }

/-- The values of the query variables under the present bindings. -/
def answer (search : Search) : Solution :=
  { bindings := search.queryVars.map fun x => (x, search.bindings.resolve (.var x)) }

/-- Gives the search up with an error. -/
def abort (search : Search) (error : Error) : Turn where
  search := { search with stack := [], phase := .finished }
  report := some (.aborted error)
  log := [.aborted search.steps error]

/-- Takes the goals up at a depth: they are solved, too deep, or there is a first goal to try
clauses for. -/
def enter (search : Search) (goals : List Term) (depth : Nat) : Turn :=
  match goals with
  | [] =>
    let answer := search.answer
    { search := { search with phase := .resume }
      report := some (.solution answer)
      log := [.solved answer] }
  | goal :: rest =>
    match search.limits.checkDepth depth with
    | some error => search.abort error
    | none =>
      let point : ChoicePoint :=
        { goal, rest, depth
          untried := search.offer (search.bindings.walk goal)
          mark := search.bindings.mark }
      { search := { search with stack := point :: search.stack, phase := .resume }
        log := [.descended goal depth] }

/-- Tries a clause for the goal of a choice point that was just returned to. The stack is to
hold the choice point without this clause. -/
def attempt (search : Search) (point : ChoicePoint) (clause : Clause) : Turn :=
  let search := { search with steps := search.steps + 1 }
  match search.limits.checkSteps search.steps with
  | some error => search.abort error
  | none =>
    let (variant, names) := search.names.renameClause clause
    let unification := search.bindings.unify point.goal variant.head
    let events := unification.events
    let search := { search with bindings := unification.bindings, names }
    match unification.conflict with
    | some _ => { search, log := events }
    | none =>
      { search := { search with phase := .enter (variant.body ++ point.rest) (point.depth + 1) }
        log := events ++ [.resolved point.goal variant] }

/-- Goes on from the topmost choice point, under the bindings it was pushed under. -/
def resume (search : Search) : Turn :=
  match search.stack with
  | [] =>
    { search := { search with phase := .finished }
      report := some .exhausted
      log := [.exhausted search.steps] }
  | point :: below =>
    let bindings := search.bindings.rollback point.mark
    match point.untried with
    | [] =>
      { search := { search with bindings, stack := below }
        log := [.backtracked point.goal] }
    | clause :: untried =>
      attempt { search with bindings, stack := { point with untried } :: below } point clause

/-- Makes one turn. A finished search stays as it is and reports its end again. -/
def turn (search : Search) : Turn :=
  match search.phase with
  | .enter goals depth => search.enter goals depth
  | .resume => search.resume
  | .finished => { search, report := some .exhausted }

/-- Makes turns until one reports something, after the events already logged. -/
def nextAfter (log : Array Event) : Nat → Search → Option Reply
  | 0, _ => none
  | turns + 1, search =>
    match search.turn with
    | { search, report := some report, log := events } =>
      some { search, report, log := log ++ events }
    | { search, report := none, log := events } => nextAfter (log ++ events) turns search

/-- The next report, if the search comes to one within the given number of turns. -/
def next (turns : Nat) (search : Search) : Option Reply := nextAfter #[] turns search

end Search

/-- The search for the goals in the knowledge base. -/
def KnowledgeBase.query (kb : KnowledgeBase) (goals : List Term) (limits : Limits) : Search :=
  .start kb.matching goals limits

/-- The events of beginning a query. -/
def KnowledgeBase.queryEvents (kb : KnowledgeBase) (goals : List Term) : List Event :=
  [.queryStarted goals kb.size]

end HornLogic
