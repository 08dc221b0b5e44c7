/-!
# Terms

The values that Horn clauses talk about. A term is an atom, a logic variable, or a compound:
a functor over a list of argument terms. The type also holds compounds without arguments.
They print as `f()` and differ from the atom `f`, although both stand for the same predicate;
`Term.app` is the constructor that never makes one.

The arguments of a compound form a list, so the type is nested in `List`. Functions on it are
pairs of structural recursions, one over a term and one over a list of terms, and the lemmas
beside them restate the second in the words of `List`. `Term.induct` is the induction
principle that goes with this: in the case of a compound the claim may be assumed of every
argument.
-/

namespace HornLogic

/-- Name of an atom, of a variable or of a functor. -/
abbrev Symbol := String

/-- An atom, a logic variable, or a functor applied to argument terms. -/
inductive Term where
  | atom (name : Symbol)
  | var (name : Symbol)
  /-- A functor with its arguments, of which there may be none. -/
  | compound (functor : Symbol) (args : List Term)
  deriving Inhabited

namespace Term

/-- Structural induction: for a compound, the claim holds of each argument. -/
@[elab_as_elim, induction_eliminator]
theorem induct {motive : Term → Prop}
    (atom : ∀ name, motive (.atom name))
    (var : ∀ name, motive (.var name))
    (compound : ∀ functor args, (∀ arg ∈ args, motive arg) → motive (.compound functor args))
    (term : Term) : motive term :=
  @Term.rec motive (fun args => ∀ arg ∈ args, motive arg) atom var compound
    (fun _ member => nomatch member)
    (fun _ _ head tail arg member => by
      cases member with
      | head => exact head
      | tail _ inTail => exact tail arg inTail)
    term

/-- The functor applied to the arguments. Without arguments this is the atom of that name. -/
def app (functor : Symbol) : List Term → Term
  | [] => .atom functor
  | arg :: args => .compound functor (arg :: args)

/-- The name of an atom or a variable, the functor of a compound. -/
def name : Term → Symbol
  | .atom name => name
  | .var name => name
  | .compound functor _ => functor

/-- The arguments of a compound; none for an atom or a variable. -/
def args : Term → List Term
  | .compound _ args => args
  | _ => []

def arity (term : Term) : Nat := term.args.length

/-- Whether the term is a bare variable. -/
def isVar : Term → Bool
  | .var _ => true
  | _ => false

theorem isVar_iff {term : Term} : term.isVar = true ↔ ∃ x, term = .var x := by
  cases term <;> simp [isVar]

@[simp] theorem isVar_app (functor : Symbol) (args : List Term) :
    (app functor args).isVar = false := by
  cases args <;> rfl

@[simp] theorem name_app (functor : Symbol) (args : List Term) :
    (app functor args).name = functor := by
  cases args <;> rfl

@[simp] theorem args_app (functor : Symbol) (args : List Term) :
    (app functor args).args = args := by
  cases args <;> rfl

/-! ## Equality

Two terms are the same when they have the same shape and the same names. `sameAs` decides
this by comparing constructor by constructor, and equality of terms is decided through it. -/

mutual

/-- Whether two terms have the same constructors and names throughout. -/
def sameAs : Term → Term → Bool
  | .atom a, .atom b => a == b
  | .var x, .var y => x == y
  | .compound f ts, .compound g us => f == g && sameAsAll ts us
  | _, _ => false

def sameAsAll : List Term → List Term → Bool
  | [], [] => true
  | t :: ts, u :: us => t.sameAs u && sameAsAll ts us
  | _, _ => false

end

private theorem sameAsAll_iff (ts : List Term)
    (sound : ∀ t ∈ ts, ∀ u, t.sameAs u = true ↔ t = u) (us : List Term) :
    sameAsAll ts us = true ↔ ts = us := by
  induction ts generalizing us with
  | nil => cases us <;> simp [sameAsAll]
  | cons t ts ih =>
    cases us with
    | nil => simp [sameAsAll]
    | cons u us =>
      simp [sameAsAll, sound t (by simp), ih (fun t member => sound t (by simp [member]))]

/-- The comparison of shapes and names decides equality. -/
theorem sameAs_iff (t u : Term) : t.sameAs u = true ↔ t = u := by
  induction t generalizing u with
  | atom name => cases u <;> simp [sameAs]
  | var name => cases u <;> simp [sameAs]
  | compound functor args ih =>
    cases u with
    | compound functor' args' => simp [sameAs, sameAsAll_iff args ih args']
    | _ => simp [sameAs]

instance : DecidableEq Term := fun t u => decidable_of_iff _ (sameAs_iff t u)

/-! ## Size -/

mutual

/-- The number of atoms, variables and functors in the term. -/
def size : Term → Nat
  | .atom _ => 1
  | .var _ => 1
  | .compound _ args => sizeAll args + 1

def sizeAll : List Term → Nat
  | [] => 0
  | t :: ts => t.size + sizeAll ts

end

theorem size_pos (t : Term) : 0 < t.size := by
  cases t <;> simp [size]

theorem size_le_sizeAll {t : Term} {ts : List Term} (member : t ∈ ts) :
    t.size ≤ sizeAll ts := by
  induction ts with
  | nil => nomatch member
  | cons u us ih =>
    simp only [sizeAll]
    cases member with
    | head => omega
    | tail _ inTail =>
      have := ih inTail
      omega

theorem size_lt_of_mem {t : Term} {args : List Term} (member : t ∈ args) (functor : Symbol) :
    t.size < (compound functor args).size :=
  Nat.lt_succ_of_le (size_le_sizeAll member)

end Term

end HornLogic
