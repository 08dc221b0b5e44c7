import HornLogic.Term.Text

/-!
# Solutions

A solution answers a query with a value for each variable of the query. The variables stand in
order of first occurrence in the goals.
-/

namespace HornLogic

/-- The variables of a query with their values. -/
structure Solution where
  bindings : List (Symbol × Term)
  deriving DecidableEq

namespace Solution

def get? (solution : Solution) (x : Symbol) : Option Term := solution.bindings.lookup x

def size (solution : Solution) : Nat := solution.bindings.length

def isEmpty (solution : Solution) : Bool := solution.bindings.isEmpty

/-- The text of the solution: `X = a, Y = b`, or `true` if there are no variables. -/
def text (solution : Solution) : String :=
  match solution.bindings with
  | [] => "true"
  | bindings => ", ".intercalate (bindings.map fun (x, t) => x ++ " = " ++ t.text)

def braced (solution : Solution) : String := "\x7b" ++ solution.text ++ "\x7d"

instance : ToString Solution := ⟨text⟩

end Solution

end HornLogic
