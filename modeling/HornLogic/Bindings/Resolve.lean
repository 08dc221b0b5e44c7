import HornLogic.Term.Instantiate
import HornLogic.Bindings.Basic

/-!
# Terms under bindings

Three views of a term under bindings: `walk` follows a bound variable until something else
than a bound variable is reached, `resolve` replaces bound variables throughout, and `occurs`
asks whether a variable is in the resolved term without building it.

A bound term may contain bound variables again, so none of the three follows the structure of
the term it is given. Each follows a chain of look-ups instead. As long as no variable leads
back to itself, the variables of a chain are different variables of the trail, and a chain has
at most as many links as the trail has entries. The recursion is on that number. `resolve` and
`occurs` count the links in the same way, so that `occurs_iff` holds of all bindings whatever.
-/

namespace HornLogic.Bindings

/-- Follows at most the given number of variable bindings. -/
def walkWithin (s : Bindings) : Nat → Term → Term
  | hops + 1, .var x =>
    match s.lookup x with
    | some t => walkWithin s hops t
    | none => .var x
  | _, t => t

/-- The atom, compound or unbound variable that the term stands for. -/
def walk (s : Bindings) (t : Term) : Term := s.walkWithin s.size t

/-- The value of a variable, over chains of at most the given number of links. -/
def valueWithin (s : Bindings) : Nat → Symbol → Term
  | 0, x => .var x
  | links + 1, x =>
    match s.lookup x with
    | some t => t.instantiate (valueWithin s links)
    | none => .var x

/-- The value of a variable: what it is bound to, itself resolved. -/
def value (s : Bindings) (x : Symbol) : Term := s.valueWithin s.size x

/-- The term with every bound variable in it, at any depth, replaced by its value. -/
def resolve (s : Bindings) (t : Term) : Term := t.instantiate (s.valueWithin s.size)

/-- Whether `x` is reached from `y` over chains of at most the given number of links. -/
def reachesWithin (s : Bindings) (x : Symbol) : Nat → Symbol → Bool
  | 0, y => x == y
  | links + 1, y =>
    match s.lookup y with
    | some t => t.anyVar (reachesWithin s x links)
    | none => x == y

/-- Whether `x` occurs in `t` once every bound variable is replaced by its value. -/
def occurs (s : Bindings) (x : Symbol) (t : Term) : Bool :=
  t.anyVar (s.reachesWithin x s.size)

@[simp] theorem resolve_atom (s : Bindings) (name : Symbol) :
    s.resolve (.atom name) = .atom name := by
  simp [resolve]

@[simp] theorem resolve_var (s : Bindings) (x : Symbol) : s.resolve (.var x) = s.value x := by
  simp [resolve, value]

@[simp] theorem resolve_compound (s : Bindings) (functor : Symbol) (args : List Term) :
    s.resolve (.compound functor args) = .compound functor (args.map s.resolve) := by
  unfold resolve
  simp

@[simp] theorem walk_atom (s : Bindings) (name : Symbol) : s.walk (.atom name) = .atom name := by
  rw [walk]
  cases s.size <;> rfl

@[simp] theorem walk_compound (s : Bindings) (functor : Symbol) (args : List Term) :
    s.walk (.compound functor args) = .compound functor args := by
  rw [walk]
  cases s.size <;> rfl

/-- Nothing but a variable is walked from. -/
theorem walk_of_not_var (s : Bindings) {t : Term} (notVar : t.isVar = false) : s.walk t = t := by
  cases t with
  | var x => simp [Term.isVar] at notVar
  | atom name => exact walk_atom s name
  | compound functor args => exact walk_compound s functor args

theorem reachesWithin_iff (s : Bindings) (x : Symbol) (links : Nat) (y : Symbol) :
    s.reachesWithin x links y = true ↔ x ∈ (s.valueWithin links y).occurrences := by
  induction links generalizing y with
  | zero => simp [reachesWithin, valueWithin]
  | succ links ih =>
    rw [reachesWithin, valueWithin]
    cases s.lookup y with
    | none => simp
    | some t =>
      simp only [Term.anyVar_eq_any, List.any_eq_true, Term.mem_occurrences_instantiate, ih]

/-- The occurs test says whether the variable is in the resolved term. -/
theorem occurs_iff (s : Bindings) (x : Symbol) (t : Term) :
    s.occurs x t = true ↔ x ∈ (s.resolve t).occurrences := by
  simp only [occurs, resolve, Term.anyVar_eq_any, List.any_eq_true,
    Term.mem_occurrences_instantiate, reachesWithin_iff]

end HornLogic.Bindings
