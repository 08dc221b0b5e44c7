import HornLogic.Bindings.Resolve

/-!
# Unification

`Bindings.unify` looks for bindings under which two terms become equal. Both terms are walked
first. A variable is bound to the other term, the one on the left if both are variables, unless
it occurs in it; atoms must have one name; compounds must have one functor and as many
arguments, and the arguments are unified from left to right under the bindings made so far. The
first conflict ends the attempt, and the bindings that it made are taken back.

A walk may lead to a larger term, so the recursion is on a bound for the depth of the two
terms once all bindings that the attempt can make are made. Such a binding binds a variable of
the two terms or of the trail to a term that is part of them. With `m` the sum of all their
sizes, the trail holds at most `m` entries before and gets at most `2 * m` more, and each of them
adds at most `m` to the depth of a term, so `unifyDepth` is more than the depth. The attempt
reports `Conflict.tooDeep` if the bound is used up, which bindings without cycles never bring
about.
-/

namespace HornLogic

/-- Why two terms do not unify. -/
inductive Conflict where
  /-- Two different atoms, functors, numbers of arguments or kinds of term met. -/
  | clash
  /-- The variable occurs in the term it would have to be bound to. -/
  | occurs (x : Symbol) (t : Term)
  /-- The terms are nested more deeply than any terms can be under bindings without cycles. -/
  | tooDeep
  deriving DecidableEq

/-- Where an attempt to unify has got to: the bindings made, and the conflict that ended it. -/
structure Attempt where
  bindings : Bindings
  conflict : Option Conflict := none

/-- The outcome of unifying two terms. -/
structure Unification where
  /-- The bindings afterwards; after a conflict, what they were before. -/
  bindings : Bindings
  conflict : Option Conflict
  /-- The bindings made on the way, in order, those taken back again included. -/
  made : List (Symbol × Term)

def Unification.succeeded (unification : Unification) : Bool := unification.conflict.isNone

namespace Bindings

def bindIfAbsent (s : Bindings) (x : Symbol) (t : Term) : Attempt :=
  if s.occurs x t then { bindings := s, conflict := some (.occurs x t) }
  else { bindings := s.bind x t }

/-- Unifies two lists of arguments pair by pair, from left to right, until a conflict. -/
def unifyArgs (unifyPair : Term → Term → Bindings → Attempt) :
    List Term → List Term → Bindings → Attempt
  | [], [], s => { bindings := s }
  | t :: ts, u :: us, s =>
    match unifyPair t u s with
    | { bindings := s, conflict := none } => unifyArgs unifyPair ts us s
    | { bindings := s, conflict := some conflict } => { bindings := s, conflict := some conflict }
  | _, _, s => { bindings := s, conflict := some .clash }

/-- Unifies two terms that are nested at most to the given depth. -/
def unifyWithin : Nat → Term → Term → Bindings → Attempt
  | 0, _, _, s => { bindings := s, conflict := some .tooDeep }
  | depth + 1, t, u, s =>
    match s.walk t, s.walk u with
    | .var x, .var y =>
      if x = y then { bindings := s } else s.bindIfAbsent x (.var y)
    | .var x, u => s.bindIfAbsent x u
    | t, .var y => s.bindIfAbsent y t
    | .atom a, .atom b =>
      if a = b then { bindings := s } else { bindings := s, conflict := some .clash }
    | .compound f ts, .compound g us =>
      if f = g ∧ ts.length = us.length then unifyArgs (unifyWithin depth) ts us s
      else { bindings := s, conflict := some .clash }
    | _, _ => { bindings := s, conflict := some .clash }

/-- A depth that two terms cannot exceed while they are unified. -/
def unifyDepth (s : Bindings) (t u : Term) : Nat :=
  let m := t.size + u.size + s.load
  (3 * m + 1) * (m + 1)

/-- What comes of an attempt that was begun at the mark: a conflict takes its bindings back. -/
def conclude (mark : Mark) : Attempt → Unification
  | { bindings := s, conflict := none } =>
    { bindings := s, conflict := none, made := s.entriesSince mark }
  | { bindings := s, conflict := some conflict } =>
    let made := s.entriesSince mark
    { bindings := s.rollback mark, conflict := some conflict, made }

/-- Unifies two terms, or leaves the bindings as they were. -/
def unify (s : Bindings) (t u : Term) : Unification :=
  let mark := s.mark
  let depth := s.unifyDepth t u
  conclude mark (unifyWithin depth t u s)

@[simp] theorem conflict_conclude (mark : Mark) (attempt : Attempt) :
    (conclude mark attempt).conflict = attempt.conflict := by
  rcases attempt with ⟨s, _ | conflict⟩ <;> rfl

/-- The bindings of an attempt stay exactly if it met no conflict. -/
theorem bindings_conclude (mark : Mark) (attempt : Attempt) :
    (conclude mark attempt).bindings =
      if attempt.conflict.isNone then attempt.bindings else attempt.bindings.rollback mark := by
  rcases attempt with ⟨s, _ | conflict⟩ <;> rfl

end Bindings

end HornLogic
