import HornLogic.Predicate
import HornLogic.Clause

/-!
# Knowledge bases

A knowledge base is a sequence of clauses in the order in which they were added, which is the
order in which resolution tries them. For each predicate it keeps the positions of the clauses
that belong to it, so that a goal is offered only clauses of its own predicate. A goal that is
a variable belongs to no predicate and is offered every clause.
-/

namespace HornLogic

/-- Clauses in order, and for each predicate the positions of its clauses, increasing. -/
structure KnowledgeBase where
  clauses : Array Clause := #[]
  index : Std.TreeMap Predicate (Array Nat) Predicate.order := ∅

namespace KnowledgeBase

def empty : KnowledgeBase := {}

def size (kb : KnowledgeBase) : Nat := kb.clauses.size

def isEmpty (kb : KnowledgeBase) : Bool := kb.clauses.isEmpty

/-- The positions of the clauses of a predicate. -/
def bucket (kb : KnowledgeBase) (predicate : Predicate) : Array Nat :=
  kb.index.getD predicate #[]

/-- The knowledge base with one clause more, at the end. -/
def add (kb : KnowledgeBase) (clause : Clause) : KnowledgeBase :=
  let position := kb.clauses.size
  { clauses := kb.clauses.push clause
    index :=
      match clause.head.predicate? with
      | some predicate => kb.index.insert predicate ((kb.bucket predicate).push position)
      | none => kb.index }

/-- The knowledge base with the clauses added one after another. -/
def addAll (kb : KnowledgeBase) (clauses : List Clause) : KnowledgeBase :=
  clauses.foldl add kb

def ofClauses (clauses : List Clause) : KnowledgeBase := empty.addAll clauses

/-- The positions of the clauses whose heads may unify with a goal, in order. The goal is to be
walked before, since a variable is taken for an unbound one. -/
def candidates (kb : KnowledgeBase) (goal : Term) : List Nat :=
  match goal.predicate? with
  | some predicate => (kb.bucket predicate).toList
  | none => List.range kb.clauses.size

/-- The clauses whose heads may unify with a goal, in order. -/
def matching (kb : KnowledgeBase) (goal : Term) : List Clause :=
  (kb.candidates goal).filterMap (kb.clauses[·]?)

@[simp] theorem clauses_add (kb : KnowledgeBase) (clause : Clause) :
    (kb.add clause).clauses = kb.clauses.push clause := rfl

theorem toList_clauses_addAll (kb : KnowledgeBase) (clauses : List Clause) :
    (kb.addAll clauses).clauses.toList = kb.clauses.toList ++ clauses := by
  induction clauses generalizing kb with
  | nil => simp [addAll]
  | cons clause clauses ih =>
    rw [addAll, List.foldl_cons, ← addAll, ih]
    simp

@[simp] theorem toList_clauses_ofClauses (clauses : List Clause) :
    (ofClauses clauses).clauses.toList = clauses := by
  rw [ofClauses, toList_clauses_addAll]
  rfl

end KnowledgeBase

end HornLogic
