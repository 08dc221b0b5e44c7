import Std.Data.ExtTreeMap.Basic
import HornLogic.Term.Text

/-!
# Bindings

What a search knows about its variables. The bindings are kept as a trail, a log that new
entries are added to at the end, together with an index that finds the newest entry of a
variable. To go back to an earlier state one remembers the length of the trail as a mark and
later takes away what was added since.

A variable may be bound again while it is bound; the new entry shadows the old one and records
where the old one stands. So the index can be put right when the new entry is taken away, and a
rollback needs nothing but the trail.

Every entry also carries the total size of the terms on the trail up to itself. Nothing here
depends on it; it bounds, without a look at the whole trail, how deep a term can become when
its variables are replaced by their values.
-/

namespace HornLogic

/-- One entry of the trail. -/
structure Binding where
  var : Symbol
  term : Term
  /-- The position of the entry for the same variable that this one shadows. -/
  shadowed : Option Nat
  /-- The sizes of the terms on the trail, from the first entry to this one, added up. -/
  load : Nat
  deriving DecidableEq

/-- A length of the trail to which one may go back. -/
structure Mark where
  position : Nat
  deriving DecidableEq, Ord

def Mark.text (mark : Mark) : String := "Checkpoint(" ++ toString mark.position ++ ")"

/-- A trail of bindings, oldest first, and the position of the newest entry of each variable. -/
structure Bindings where
  trail : Array Binding := #[]
  index : Std.ExtTreeMap Symbol Nat := ∅

namespace Bindings

def empty : Bindings := {}

def size (s : Bindings) : Nat := s.trail.size

def isEmpty (s : Bindings) : Bool := s.trail.isEmpty

/-- The sizes of all terms on the trail, added up. -/
def load (s : Bindings) : Nat := (s.trail.back?.map Binding.load).getD 0

/-- Variables and terms of the trail, oldest first, shadowed entries included. -/
def entries (s : Bindings) : List (Symbol × Term) :=
  s.trail.toList.map fun binding => (binding.var, binding.term)

/-- The entries that were made after the mark. -/
def entriesSince (s : Bindings) (mark : Mark) : List (Symbol × Term) :=
  (s.trail.extract mark.position s.trail.size).toList.map fun binding =>
    (binding.var, binding.term)

/-- The term that the variable is bound to by its newest entry. -/
def lookup (s : Bindings) (x : Symbol) : Option Term :=
  match s.index[x]? with
  | some position => s.trail[position]?.map Binding.term
  | none => none

/-- Adds an entry for the variable. Whether the variable occurs in the term is not asked here. -/
def bind (s : Bindings) (x : Symbol) (t : Term) : Bindings :=
  let entry : Binding :=
    { var := x, term := t, shadowed := s.index[x]?, load := s.load + t.size }
  let position := s.trail.size
  { trail := s.trail.push entry, index := s.index.insert x position }

def mark (s : Bindings) : Mark := ⟨s.trail.size⟩

/-- Takes the newest entry away. The entry it shadowed becomes visible again. -/
def undoLast (s : Bindings) : Bindings :=
  match s.trail.back? with
  | none => s
  | some last =>
    { trail := s.trail.pop
      index :=
        match last.shadowed with
        | some position => s.index.insert last.var position
        | none => s.index.erase last.var }

/-- Takes the given number of newest entries away. -/
def undo : Nat → Bindings → Bindings
  | 0, s => s
  | count + 1, s => undo count s.undoLast

/-- Takes away every entry made since the mark. A mark beyond the end of the trail changes
nothing. -/
def rollback (s : Bindings) (mark : Mark) : Bindings :=
  s.undo (s.trail.size - mark.position)

def text (s : Bindings) : String :=
  let entryTexts := s.entries.map fun (x, t) => x ++ ": " ++ t.text
  "\x7b" ++ ", ".intercalate entryTexts ++ "\x7d"

@[simp] theorem trail_bind (s : Bindings) (x : Symbol) (t : Term) :
    (s.bind x t).trail =
      s.trail.push
        { var := x, term := t, shadowed := s.index[x]?, load := s.load + t.size } := rfl

@[simp] theorem load_empty : empty.load = 0 := rfl

@[simp] theorem load_bind (s : Bindings) (x : Symbol) (t : Term) :
    (s.bind x t).load = s.load + t.size := by
  simp [load]

@[simp] theorem trail_undoLast (s : Bindings) : s.undoLast.trail = s.trail.pop := by
  unfold undoLast
  split
  · rename_i none
    rw [Array.back?_eq_none_iff.1 none]
    rfl
  · rfl

/-- A rollback keeps the entries before the mark, and nothing else. -/
theorem trail_undo (count : Nat) (s : Bindings) :
    (undo count s).trail = s.trail.extract 0 (s.trail.size - count) := by
  induction count generalizing s with
  | zero => simp [undo]
  | succ count ih =>
    rw [undo, ih, trail_undoLast, Array.size_pop]
    ext i below below'
    · simp; omega
    · simp

theorem trail_rollback (s : Bindings) (mark : Mark) :
    (s.rollback mark).trail = s.trail.extract 0 (min s.trail.size mark.position) := by
  rw [rollback, trail_undo]
  congr 1
  omega

/-- A rollback to a mark that is not left behind changes nothing. -/
theorem rollback_of_le {s : Bindings} {mark : Mark} (reached : s.trail.size ≤ mark.position) :
    s.rollback mark = s := by
  rw [rollback, Nat.sub_eq_zero_of_le reached, undo]

end Bindings

end HornLogic
