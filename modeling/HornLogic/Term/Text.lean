import HornLogic.Term.Basic

/-!
# The text of a term

Atoms and variables are written by their names, compounds as `f(a, b)`. Nothing is quoted, so
the text of a term tells a variable from an atom only by its name.

The writer appends to a text that is already there, so that a deep term takes time in
proportion to its text. `Term.text` writes to the empty text, and `Term.writeTo_eq` says that
this is all there is to it.
-/

namespace HornLogic.Term

mutual

/-- Writes the term after the text `before`. -/
def writeTo (before : String) : Term → String
  | .atom name => before ++ name
  | .var name => before ++ name
  | .compound functor args => writeArgsTo (before ++ functor ++ "(") args ++ ")"

/-- Writes the terms after the text `before`, with a comma and a blank between two of them. -/
def writeArgsTo (before : String) : List Term → String
  | [] => before
  | [t] => t.writeTo before
  | t :: ts => writeArgsTo (t.writeTo before ++ ", ") ts

end

def text (t : Term) : String := t.writeTo ""

/-- The texts of the terms, with a comma and a blank between two of them. -/
def commaSeparated (ts : List Term) : String := writeArgsTo "" ts

/-- A list of goals as it is shown in messages, in square brackets. -/
def bracketed (ts : List Term) : String := "[" ++ commaSeparated ts ++ "]"

instance : ToString Term := ⟨text⟩

theorem writeArgsTo_cons_cons (before : String) (t u : Term) (us : List Term) :
    writeArgsTo before (t :: u :: us) = writeArgsTo (t.writeTo before ++ ", ") (u :: us) := by
  simp [writeArgsTo]

private theorem writeArgsTo_eq (ts : List Term)
    (appends : ∀ t ∈ ts, ∀ before, t.writeTo before = before ++ t.writeTo "")
    (before : String) : writeArgsTo before ts = before ++ writeArgsTo "" ts := by
  induction ts generalizing before with
  | nil => simp [writeArgsTo]
  | cons t ts ih =>
    have later := ih fun u member => appends u (by simp [member])
    cases ts with
    | nil => simpa [writeArgsTo] using appends t (by simp) before
    | cons u us =>
      rw [writeArgsTo_cons_cons, writeArgsTo_cons_cons, appends t (by simp), later,
        later (writeTo "" t ++ ", ")]
      simp [String.append_assoc]

/-- Writing appends the text of the term and leaves what stands before it alone. -/
theorem writeTo_eq (t : Term) (before : String) : t.writeTo before = before ++ t.text := by
  rw [text]
  induction t generalizing before with
  | atom name => simp [writeTo]
  | var name => simp [writeTo]
  | compound functor args ih =>
    rw [writeTo, writeTo, writeArgsTo_eq args ih, writeArgsTo_eq args ih ("" ++ functor ++ "(")]
    simp [String.append_assoc]

@[simp] theorem text_atom (name : Symbol) : (atom name).text = name := by
  simp [text, writeTo]

@[simp] theorem text_var (name : Symbol) : (var name).text = name := by
  simp [text, writeTo]

theorem text_compound (functor : Symbol) (args : List Term) :
    (compound functor args).text = functor ++ "(" ++ commaSeparated args ++ ")" := by
  rw [text, writeTo, writeArgsTo_eq args fun t _ before => writeTo_eq t before, commaSeparated]
  simp

@[simp] theorem commaSeparated_nil : commaSeparated [] = "" := rfl

@[simp] theorem commaSeparated_singleton (t : Term) : commaSeparated [t] = t.text := by
  simp [commaSeparated, writeArgsTo, text]

theorem commaSeparated_cons (t : Term) {ts : List Term} (more : ts ≠ []) :
    commaSeparated (t :: ts) = t.text ++ ", " ++ commaSeparated ts := by
  cases ts with
  | nil => contradiction
  | cons u us =>
    rw [commaSeparated, writeArgsTo_cons_cons,
      writeArgsTo_eq _ fun t _ before => writeTo_eq t before]
    simp [commaSeparated, text]

end HornLogic.Term
