import HornLogic.Clause
import HornLogic.Solution
import HornLogic.Bindings.Unify
import HornLogic.KnowledgeBase

/-!
# Events

The library keeps a log of what it does as data: operations say which events they bring about,
in order, and nothing is written anywhere. Each kind of event has a level and a message.
-/

namespace HornLogic

/-- How much attention an event asks for. -/
inductive Level where
  | trace
  | debug
  | warn
  deriving DecidableEq

def Level.text : Level → String
  | .trace => "TRACE"
  | .debug => "DEBUG"
  | .warn => "WARN"

/-- Something that happened while clauses were added or a query was answered. -/
inductive Event where
  | clauseAdded (clause : Clause)
  | queryStarted (goals : List Term) (clauses : Nat)
  | bound (x : Symbol) (t : Term)
  /-- A variable was not bound to a term because it occurs in it. -/
  | occursRejected (x : Symbol) (t : Term)
  /-- A goal was selected, after a number of resolution steps on its branch. -/
  | descended (goal : Term) (depth : Nat)
  /-- A goal unified with the head of a renamed clause. -/
  | resolved (goal : Term) (clause : Clause)
  | backtracked (goal : Term)
  | solved (answer : Solution)
  | aborted (steps : Nat) (error : Error)
  | exhausted (steps : Nat)
  deriving DecidableEq

namespace Event

/-- Errors are warnings, bindings and single steps are details, the rest is in between. -/
def level : Event → Level
  | .clauseAdded _ => .debug
  | .queryStarted _ _ => .debug
  | .bound _ _ => .trace
  | .occursRejected _ _ => .trace
  | .descended _ _ => .trace
  | .resolved _ _ => .trace
  | .backtracked _ => .trace
  | .solved _ => .debug
  | .aborted _ _ => .warn
  | .exhausted _ => .debug

def message : Event → String
  | .clauseAdded clause => "add_clause(" ++ clause.text ++ ")"
  | .queryStarted goals clauses =>
    "query(" ++ Term.bracketed goals ++ ") over " ++ toString clauses ++ " clauses"
  | .bound x t => "bind(" ++ x ++ " => " ++ t.text ++ ")"
  | .occursRejected x t => "unify: occurs-check rejects " ++ x ++ " = " ++ t.text
  | .descended goal depth =>
    "descend(goal: " ++ goal.text ++ ", depth: " ++ toString depth ++ ")"
  | .resolved goal clause =>
    "resolve(goal: " ++ goal.text ++ ", clause: " ++ clause.text ++ ")"
  | .backtracked goal => "backtrack(goal: " ++ goal.text ++ ")"
  | .solved answer => "solution: " ++ answer.text
  | .aborted steps error =>
    "query aborted after " ++ toString steps ++ " steps: " ++ error.message
  | .exhausted steps => "query exhausted after " ++ toString steps ++ " steps"

end Event

/-- The events of adding the clauses one after another. -/
def KnowledgeBase.additions (clauses : List Clause) : List Event :=
  clauses.map Event.clauseAdded

/-- What a conflict adds to the log: only a refused binding is reported. -/
def Conflict.events : Conflict → List Event
  | .occurs x t => [.occursRejected x t]
  | .clash => []
  | .tooDeep => []

/-- The events of a unification: the bindings made, then the binding refused, if one was. -/
def Unification.events (unification : Unification) : List Event :=
  let bound := unification.made.map fun (x, t) => Event.bound x t
  match unification.conflict with
  | some conflict => bound ++ conflict.events
  | none => bound

end HornLogic
