import HornLogic.Clause

/-!
# Fresh variable names

Each use of a clause in a proof needs variables of its own. A name supply makes their names
from a counter that serves all variables alike: a fresh name is a stem, the character `#` and
a number that was not used before. The stem is the part of the source name before its first
`#`, so that names do not grow when a renamed clause is renamed again. Reserved names, such as
the variables of the query, are passed over; the counter moves past their numbers too.

A term or clause is renamed through one table that lists its variables in order of first
occurrence with their fresh names. The numbers in the table increase in that order.
-/

namespace HornLogic

/-- A source of fresh names. -/
structure NameSupply where
  /-- The first number not used yet. -/
  counter : Nat := 0
  /-- Names that are never given out. -/
  reserved : List Symbol := []

/-- Variables with the names that replace them. -/
abbrev Renaming := List (Symbol × Symbol)

/-- The variable that replaces `x`; a variable without a new name stays. -/
def Renaming.variable (table : Renaming) (x : Symbol) : Term :=
  .var ((table.lookup x).getD x)

namespace NameSupply

/-- A supply that gives out every name but those listed. -/
def avoiding (names : List Symbol) : NameSupply := { reserved := names }

/-- The part of a name before its first `#`. -/
def stem (name : Symbol) : Symbol := String.ofList (name.toList.takeWhile (· != '#'))

/-- The name made of a stem and a number. -/
def numbered (stem : Symbol) (number : Nat) : Symbol := stem ++ "#" ++ toString number

/-- The first number, counting on from a given one, whose name with this stem is not reserved.
At most `tries` numbers are passed over. -/
def firstFree (reserved : List Symbol) (stem : Symbol) : Nat → Nat → Nat
  | 0, number => number
  | tries + 1, number =>
    if numbered stem number ∈ reserved then firstFree reserved stem tries (number + 1)
    else number

/-- A fresh name for a variable, and the supply without it. Different numbers give different
names, so no more numbers need to be passed over than names are reserved. -/
def fresh (supply : NameSupply) (name : Symbol) : Symbol × NameSupply :=
  let base := stem name
  let number := firstFree supply.reserved base supply.reserved.length supply.counter
  (numbered base number, { supply with counter := number + 1 })

/-- Fresh names for the listed variables, one after another. -/
def freshNames (supply : NameSupply) : List Symbol → Renaming × NameSupply
  | [] => ([], supply)
  | x :: xs =>
    let (name, supply) := supply.fresh x
    let (table, supply) := supply.freshNames xs
    ((x, name) :: table, supply)

/-- The term with its variables replaced by fresh ones. -/
def rename (supply : NameSupply) (t : Term) : Term × NameSupply :=
  let (table, supply) := supply.freshNames t.vars
  (t.instantiate table.variable, supply)

/-- The clause with its variables replaced by fresh ones, the same in head and body. -/
def renameClause (supply : NameSupply) (clause : Clause) : Clause × NameSupply :=
  let (table, supply) := supply.freshNames clause.vars
  (clause.instantiate table.variable, supply)

/-- The supply with its counter at zero again and the same reserved names. -/
def reset (supply : NameSupply) : NameSupply := { supply with counter := 0 }

theorem numbered_inj {stem : Symbol} {m n : Nat} :
    numbered stem m = numbered stem n ↔ m = n := by
  refine ⟨fun same => ?_, fun same => same ▸ rfl⟩
  have digits : Nat.toDigits 10 m = Nat.toDigits 10 n := by
    simpa [numbered, Nat.toString_eq_repr, ← String.toList_inj] using same
  simpa using congrArg (fun digits => Nat.ofDigitChars 10 digits 0) digits

theorem le_firstFree (reserved : List Symbol) (stem : Symbol) (tries number : Nat) :
    number ≤ firstFree reserved stem tries number := by
  induction tries generalizing number with
  | zero => exact Nat.le_refl _
  | succ tries ih =>
    rw [firstFree]
    split
    · exact Nat.le_of_succ_le (ih (number + 1))
    · exact Nat.le_refl _

/-- A fresh name uses up its number and those that were passed over. -/
theorem counter_lt_fresh (supply : NameSupply) (name : Symbol) :
    supply.counter < (supply.fresh name).2.counter :=
  Nat.lt_succ_of_le (le_firstFree _ _ _ _)

@[simp] theorem reserved_fresh (supply : NameSupply) (name : Symbol) :
    (supply.fresh name).2.reserved = supply.reserved := rfl

/-- A table of fresh names lists the variables it was made for, in their order. -/
theorem map_fst_freshNames (supply : NameSupply) (xs : List Symbol) :
    (supply.freshNames xs).1.map Prod.fst = xs := by
  induction xs generalizing supply with
  | nil => rfl
  | cons x xs ih => simp [freshNames, ih]

end NameSupply

end HornLogic
