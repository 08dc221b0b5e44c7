import HornLogic.Term.Instantiate
import HornLogic.Error

/-!
# Clauses

A clause is a head with a list of body goals: a fact if the body is empty, else a rule. The
head names the predicate that the clause belongs to, so it is never a bare variable. This
holds for every value of the type, and `Clause.rule` refuses a head that breaks it.

Resolution reads the head as a functor with arguments. `Clause.instantiate` therefore builds
the head of the instance from its name and its instantiated arguments, and a head `f()` becomes
the atom `f`; compounds without arguments elsewhere in the clause stay what they are.
-/

namespace HornLogic

/-- A head that is no bare variable, and the goals from which it follows. -/
structure Clause where
  head : Term
  body : List Term
  head_not_var : head.isVar = false
  deriving DecidableEq

namespace Clause

/-- The rule with the given head and body, refused if the head is a bare variable. -/
def rule (head : Term) (body : List Term) : Except Error Clause :=
  if isVar : head.isVar then .error (.variableHead head)
  else .ok { head, body, head_not_var := by simpa using isVar }

def fact (head : Term) : Except Error Clause := rule head []

/-- The clause whose head applies the functor to the arguments. -/
def ofParts (functor : Symbol) (args body : List Term) : Clause where
  head := .app functor args
  body := body
  head_not_var := Term.isVar_app functor args

def isFact (clause : Clause) : Bool := clause.body.isEmpty

/-- The distinct variables of the clause in order of first occurrence, head first. -/
def vars (clause : Clause) : List Symbol := Term.varsAll (clause.head.args ++ clause.body)

/-- The clause with every variable replaced by its value under `σ`. -/
def instantiate (σ : Symbol → Term) (clause : Clause) : Clause :=
  ofParts clause.head.name (Term.instantiateAll σ clause.head.args)
    (Term.instantiateAll σ clause.body)

/-- The text of the clause: `head.` for a fact, `head :- goal, goal.` for a rule. -/
def text (clause : Clause) : String :=
  match clause.body with
  | [] => clause.head.text ++ "."
  | body => clause.head.text ++ " :- " ++ Term.commaSeparated body ++ "."

instance : ToString Clause := ⟨text⟩

@[ext] theorem ext {c d : Clause} (head : c.head = d.head) (body : c.body = d.body) : c = d := by
  cases c; cases d; simp_all

theorem rule_eq_error_iff (head : Term) (body : List Term) (error : Error) :
    rule head body = .error error ↔ head.isVar = true ∧ error = .variableHead head := by
  unfold rule
  split
  · rename_i isVar
    simp [isVar, eq_comm]
  · rename_i notVar
    simp [notVar]

/-- An accepted rule has the head and the body it was given. -/
theorem rule_eq_ok_iff (head : Term) (body : List Term) (clause : Clause) :
    rule head body = .ok clause ↔ clause.head = head ∧ clause.body = body := by
  unfold rule
  split
  · rename_i isVar
    constructor
    · simp
    · rintro ⟨rfl, -⟩
      simp [clause.head_not_var] at isVar
  · constructor
    · rintro ⟨⟩
      simp
    · rintro ⟨rfl, rfl⟩
      rfl

@[simp] theorem head_ofParts (functor : Symbol) (args body : List Term) :
    (ofParts functor args body).head = .app functor args := rfl

@[simp] theorem body_ofParts (functor : Symbol) (args body : List Term) :
    (ofParts functor args body).body = body := rfl

end Clause

end HornLogic
