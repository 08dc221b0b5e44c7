import Mathlib.Data.Finset.Card
import Mathlib.Order.Bounds.Defs
import Mathlib.Order.Interval.Finset.Nat
import HornLogic.Proofs.Names.Variant

/-!
# Fresh names over time

A supply is asked for a fresh name, for a renamed term or for a renamed clause, again and again, and
it may be reset in between. Each time it issues names, those of the variables of what it gives out.
Whatever is asked for, these are fresh names for some listed names, made one after another
(`issue_eq`).

`Served` keeps account of what was issued. Since the last reset no name was issued twice, because
issued names are used names. No name that was ever issued is reserved. And an issued name is a stem
with a number, so that a name made from it has the same stem and another number
(`names_of_served`).
-/

namespace HornLogic.NameSupply

/-! ## Requests -/

/-- What a supply may be asked for. -/
inductive Request where
  | fresh (name : Symbol)
  | rename (t : Term)
  | renameClause (clause : Clause)

/-- The names that fresh names are asked for, in order. -/
def Request.sources : Request → List Symbol
  | .fresh name => [name]
  | .rename t => t.vars
  | .renameClause clause => clause.vars

/-- The names that are issued on a request, and the supply after it. -/
def issue (supply : NameSupply) : Request → List Symbol × NameSupply
  | .fresh name =>
    let (name, supply) := supply.fresh name
    ([name], supply)
  | .rename t =>
    let (t, supply) := supply.rename t
    (t.vars, supply)
  | .renameClause clause =>
    let (clause, supply) := supply.renameClause clause
    (clause.vars, supply)

/-- The variables of renamed terms are the names that were made for them. -/
theorem varsAll_instantiate_freshNames (supply : NameSupply) (ts : List Term) :
    Term.varsAll (ts.map (Term.instantiate (supply.freshNames (Term.varsAll ts)).1.variable)) =
      (supply.freshNames (Term.varsAll ts)).1.map Prod.snd := by
  have fresh := freshTable_freshNames supply (Term.varsAll ts)
  have nodup := Term.nodup_varsAll ts
  have entries := fresh.eq_map nodup
  have names := congrArg (List.map Prod.snd) entries
  rw [List.map_map] at names
  exact (Term.varsAll_rename (fresh.injective nodup)).trans names.symm

/-- On every request fresh names are made for its sources, one after another. -/
theorem issue_eq (supply : NameSupply) (request : Request) :
    supply.issue request = ((supply.freshNames request.sources).1.map Prod.snd,
      (supply.freshNames request.sources).2) := by
  cases request with
  | fresh name => rfl
  | rename t =>
    refine Prod.ext ?_ rfl
    exact supply.varsAll_instantiate_freshNames [t]
  | renameClause clause =>
    refine Prod.ext ?_ rfl
    have names := supply.varsAll_instantiate_freshNames (clause.head.args ++ clause.body)
    rw [List.map_append] at names
    refine Eq.trans ?_ names
    simp [issue, renameClause, Clause.instantiate, Clause.vars, Term.instantiateAll_eq_map]

theorem freshTable_issue (supply : NameSupply) (request : Request) :
    ∃ table, (supply.issue request).1 = table.map Prod.snd ∧
      FreshTable supply (supply.issue request).2 request.sources table := by
  rw [issue_eq]
  exact ⟨_, rfl, freshTable_freshNames supply request.sources⟩

@[simp] theorem reserved_issue (supply : NameSupply) (request : Request) :
    (supply.issue request).2.reserved = supply.reserved := by
  rw [issue_eq, reserved_freshNames]

/-- What is made from a name has its stem. -/
theorem map_stem_issue (supply : NameSupply) (request : Request) :
    (supply.issue request).1.map stem = request.sources.map stem := by
  rw [issue_eq]
  generalize request.sources = xs
  induction xs generalizing supply with
  | nil => rfl
  | cons x xs ih =>
    have first : stem (supply.fresh x).1 = stem x := stem_numbered (hash_not_mem_stem x) _
    simp only [freshNames, List.map_cons, first, ih]

/-! ## The number of a fresh name -/

/-- Numbers are passed over only if their names are reserved, and these names are all different. -/
theorem firstFree_le (reserved : List Symbol) (base : Symbol) (number : Nat) :
    firstFree reserved base reserved.length number ≤ number + reserved.toFinset.card := by
  let found := firstFree reserved base reserved.length number
  have passed : ((Finset.Ico number found).image (numbered base)) ⊆ reserved.toFinset := by
    intro name member
    obtain ⟨n, between, rfl⟩ := Finset.mem_image.1 member
    have bounds := Finset.mem_Ico.1 between
    exact List.mem_toFinset.2 (reserved_of_lt_firstFree bounds.1 bounds.2)
  have count := Finset.card_le_card passed
  rw [Finset.card_image_of_injective _ fun m n same => numbered_inj.1 same, Nat.card_Ico] at count
  omega

/-- The number found is the least one that may be given. -/
theorem isLeast_firstFree (reserved : List Symbol) (base : Symbol) (number : Nat) :
    IsLeast {n | number ≤ n ∧ numbered base n ∉ reserved}
      (firstFree reserved base reserved.length number) := by
  refine ⟨⟨le_firstFree _ _ _ _, firstFree_not_reserved _ _ _⟩, ?_⟩
  rintro n ⟨atLeast, free⟩
  exact Nat.le_of_not_lt fun before => free (reserved_of_lt_firstFree atLeast before)

/-! ## Names in the course of time -/

/-- A supply that avoids the reserved names has come to this state by requests and resets. The names
in `issued` were issued since the last reset, and those in `earlier` before. -/
inductive Served (reserved : List Symbol) :
    NameSupply → (issued earlier : List Symbol) → Prop where
  | start : Served reserved (.avoiding reserved) [] []
  | request {supply : NameSupply} {issued earlier : List Symbol} (request : Request) :
      Served reserved supply issued earlier →
      Served reserved (supply.issue request).2 (issued ++ (supply.issue request).1) earlier
  | reset {supply : NameSupply} {issued earlier : List Symbol} :
      Served reserved supply issued earlier →
      Served reserved supply.reset [] (earlier ++ issued)

/-- What is known of the names that were issued. -/
structure Accounted (reserved : List Symbol) (supply : NameSupply) (issued earlier : List Symbol) :
    Prop where
  avoids : supply.reserved = reserved
  distinct : issued.Nodup
  used : ∀ x ∈ issued, supply.Used x
  unreserved : ∀ x ∈ earlier ++ issued, x ∉ reserved
  /-- The stem of a name can be read off, since it ends at the first `#`. -/
  isNumbered : ∀ x ∈ earlier ++ issued, ∃ n, x = numbered (stem x) n

variable {supply : NameSupply} {reserved issued earlier : List Symbol}

/-- A used name that is not reserved is a stem with a number. -/
theorem Used.eq_numbered {x : Symbol} (used : supply.Used x) (free : x ∉ supply.reserved) :
    ∃ n, x = numbered (stem x) n := by
  rcases used with taken | ⟨base, n, plain, -, rfl⟩
  · exact absurd taken free
  · exact ⟨n, by rw [stem_numbered plain]⟩

theorem Accounted.request (accounted : Accounted reserved supply issued earlier)
    (request : Request) :
    Accounted reserved (supply.issue request).2 (issued ++ (supply.issue request).1) earlier := by
  obtain ⟨table, names, fresh⟩ := supply.freshTable_issue request
  have avoids : (supply.issue request).2.reserved = reserved := by
    rw [reserved_issue, accounted.avoids]
  have free (x : Symbol) (member : x ∈ (supply.issue request).1) : x ∉ reserved := by
    rw [names] at member
    exact fun taken => fresh.fresh x member (.inl (accounted.avoids ▸ taken))
  have usedNow (x : Symbol) (member : x ∈ (supply.issue request).1) :
      (supply.issue request).2.Used x :=
    fresh.used x (names ▸ member)
  refine ⟨avoids, ?_, ?_, ?_, ?_⟩
  · rw [List.nodup_append']
    refine ⟨accounted.distinct, names ▸ fresh.distinct, fun x before now => ?_⟩
    exact fresh.fresh x (names ▸ now) (accounted.used x before)
  · rw [List.forall_mem_append]
    exact ⟨fun x member => fresh.mono x (accounted.used x member), usedNow⟩
  · rw [← List.append_assoc, List.forall_mem_append]
    exact ⟨accounted.unreserved, free⟩
  · rw [← List.append_assoc, List.forall_mem_append]
    refine ⟨accounted.isNumbered, fun x member => (usedNow x member).eq_numbered ?_⟩
    rw [avoids]
    exact free x member

theorem Accounted.reset (accounted : Accounted reserved supply issued earlier) :
    Accounted reserved supply.reset [] (earlier ++ issued) where
  avoids := accounted.avoids
  distinct := .nil
  used := nofun
  unreserved := by
    rw [List.append_nil]
    exact accounted.unreserved
  isNumbered := by
    rw [List.append_nil]
    exact accounted.isNumbered

theorem Served.accounted (served : Served reserved supply issued earlier) :
    Accounted reserved supply issued earlier := by
  induction served with
  | start => exact ⟨rfl, .nil, nofun, nofun, nofun⟩
  | request request _ ih => exact ih.request request
  | reset _ ih => exact ih.reset

/-- Let a supply have been asked for names in any way and perhaps been reset. No name was issued
twice since the last reset, and none that is reserved was ever issued. A fresh name for any name is
found: its stem is what stands before the first `#`, and its number is the least one from the
counter on that does not make a reserved name. To try one number after another ends there, and no
more numbers are skipped than names are reserved. The counter goes on after it. And whatever is made
from a name has the same stem, so a fresh name for an issued one differs from it in the number
only. -/
theorem names_of_served (served : Served reserved supply issued earlier) :
    issued.Nodup ∧ (∀ x ∈ earlier ++ issued, x ∉ reserved) ∧
    (∀ name, ∃ n skipped,
      supply.fresh name = (numbered (stem name) n, { supply with counter := n + 1 }) ∧
      IsLeast {k | supply.counter ≤ k ∧ numbered (stem name) k ∉ reserved} n ∧
      Numbering reserved supply.counter [name] [(name, numbered (stem name) n)] skipped (n + 1) ∧
      n = supply.counter + skipped.length ∧ skipped.length ≤ reserved.toFinset.card) ∧
    (∀ request, (supply.issue request).1.map stem = request.sources.map stem) ∧
    ∀ x ∈ earlier ++ issued, ∃ m n,
      x = numbered (stem x) m ∧ (supply.fresh x).1 = numbered (stem x) n := by
  have accounted := served.accounted
  obtain rfl := accounted.avoids
  refine ⟨accounted.distinct, accounted.unreserved, ?_, map_stem_issue supply, ?_⟩
  · intro name
    let n := firstFree supply.reserved (stem name) supply.reserved.length supply.counter
    obtain ⟨skipped, numbering⟩ := supply.exists_numbering [name]
    have last : n + 1 = supply.counter + 1 + skipped.length := numbering.end_eq
    have count : n ≤ supply.counter + supply.reserved.toFinset.card := firstFree_le _ _ _
    exact ⟨n, skipped, rfl, isLeast_firstFree _ _ _, numbering, by omega, by omega⟩
  · intro x member
    obtain ⟨m, isNumbered⟩ := accounted.isNumbered x member
    exact ⟨m, _, isNumbered, rfl⟩

/-- While `#0` and `X#1` are reserved, the empty name and, after a reset, the variables of
`f(X#5, X)` get fresh names. -/
theorem names_of_served_hash :
    let reserved := ["X#1", "#0"]
    let first := (avoiding reserved).issue (.fresh "")
    let second := first.2.reset.issue (.rename (.compound "f" [.var "X#5#2", .var "X"]))
    let third := second.2.issue (.fresh "X#2")
    first.1 = ["#1"] ∧ second.1 = ["X#0", "X#2"] ∧ third.1 = ["X#3"] ∧
      (second.1 ++ third.1).Nodup ∧
      (∀ x ∈ first.1 ++ (second.1 ++ third.1), x ∉ reserved) ∧
      ∃ n, third.2.fresh "X#3" = (numbered "X" n, { third.2 with counter := n + 1 }) ∧
        IsLeast {k | third.2.counter ≤ k ∧ numbered "X" k ∉ reserved} n := by
  intro reserved first second third
  have served : Served reserved third.2 (second.1 ++ third.1) first.1 :=
    .request (.fresh "X#2") (.request (.rename _) (.reset (.request (.fresh "") .start)))
  obtain ⟨distinct, unreserved, found, -, -⟩ := names_of_served served
  obtain ⟨n, skipped, made, least, -, -, -⟩ := found "X#3"
  have base : stem "X#3" = "X" := by decide +kernel
  rw [base] at made least
  exact ⟨by decide +kernel, by decide +kernel, by decide +kernel, distinct, unreserved, n, made,
    least⟩

end HornLogic.NameSupply
