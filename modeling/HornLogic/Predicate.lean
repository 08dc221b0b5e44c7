import Std.Data.TreeMap.Basic
import HornLogic.Term.Basic

/-!
# Predicates

A clause and a goal have to do with each other only if they belong to one predicate, which is a
name together with a number of arguments. An atom belongs to the predicate of its name without
arguments, and so does a compound without arguments. A bare variable belongs to none.

Predicates are ordered by name and then by number of arguments, so that they can serve as keys.
-/

namespace HornLogic

structure Predicate where
  name : Symbol
  arity : Nat
  deriving DecidableEq

/-- By name, then by number of arguments. -/
def Predicate.order : Predicate → Predicate → Ordering :=
  compareLex (compareOn Predicate.name) (compareOn Predicate.arity)

/-- The predicate of an atom or a compound. -/
def Term.predicate? : Term → Option Predicate
  | .atom name => some ⟨name, 0⟩
  | .compound functor args => some ⟨functor, args.length⟩
  | .var _ => none

theorem Term.predicate?_eq_none_iff (t : Term) : t.predicate? = none ↔ t.isVar = true := by
  cases t <;> simp [predicate?, isVar]

@[simp] theorem Term.predicate?_app (functor : Symbol) (args : List Term) :
    (app functor args).predicate? = some ⟨functor, args.length⟩ := by
  cases args <;> rfl

end HornLogic
