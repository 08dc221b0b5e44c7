import Mathlib.Data.List.Basic
import Mathlib.Data.List.Induction
import Std.Data.TreeMap.Lemmas
import HornLogic.KnowledgeBase
import HornLogic.Proofs.Names.Renaming
import HornLogic.Proofs.Unification.Level

/-!
# The predicate index

A knowledge base finds the clauses for a goal through its index. The index holds for each predicate
exactly the positions of its clauses, in increasing order (`Indexed`). This is so without clauses,
and adding a clause keeps it so. Hence the clauses offered for a goal are the clauses of the
knowledge base that suit it, in the order in which they were added (`matching_ofClauses`): those of
its predicate, or all of them if the goal is a variable.

A clause that is not offered would not have unified with the goal anyway, under whatever names
(`unify_clash_of_not_suits`).
-/

namespace HornLogic

/-! ## The order on predicates -/

instance : Std.TransCmp Predicate.order :=
  inferInstanceAs (Std.TransCmp (compareLex (compareOn Predicate.name) (compareOn Predicate.arity)))

theorem Predicate.order_eq_iff {p q : Predicate} : p.order q = .eq ↔ p = q := by
  obtain ⟨name, arity⟩ := p
  obtain ⟨name', arity'⟩ := q
  simp [Predicate.order, compareLex, compareOn, Ordering.then_eq_eq]

/-- Whether the clause has the predicate of the goal; every clause suits a variable. -/
def Clause.suits (goal : Term) (clause : Clause) : Bool :=
  match goal.predicate? with
  | some predicate => clause.head.predicate? == some predicate
  | none => true

namespace KnowledgeBase

variable {kb : KnowledgeBase}

def predicateAt (kb : KnowledgeBase) (position : Nat) : Option Predicate :=
  kb.clauses[position]?.bind fun clause => clause.head.predicate?

/-- The index lists for each predicate the positions of its clauses, in order. -/
def Indexed (kb : KnowledgeBase) : Prop :=
  ∀ predicate, (kb.bucket predicate).toList =
    (List.range kb.size).filter fun position => kb.predicateAt position == some predicate

theorem indexed_empty : empty.Indexed := by
  intro predicate
  simp [bucket, empty, size]

theorem bucket_add (kb : KnowledgeBase) (clause : Clause) (predicate : Predicate) :
    (kb.add clause).bucket predicate =
      if clause.head.predicate? = some predicate then (kb.bucket predicate).push kb.size
      else kb.bucket predicate := by
  cases key : clause.head.predicate? with
  | none => simp [add, bucket, key]
  | some own =>
    have inserted : (kb.add clause).bucket predicate =
        (kb.index.insert own ((kb.bucket own).push kb.size)).getD predicate #[] := by
      simp [add, bucket, key, size]
    rw [inserted, Std.TreeMap.getD_insert]
    by_cases same : own = predicate
    · subst same
      rw [if_pos (Predicate.order_eq_iff.2 rfl), if_pos rfl]
    · rw [if_neg (fun equal => same (Predicate.order_eq_iff.1 equal)), if_neg (by simpa using same)]
      rfl

theorem predicateAt_add {position : Nat} (old : position < kb.size) (clause : Clause) :
    (kb.add clause).predicateAt position = kb.predicateAt position := by
  unfold size at old
  simp [predicateAt, Array.getElem?_push, Nat.ne_of_lt old]

theorem predicateAt_add_self (kb : KnowledgeBase) (clause : Clause) :
    (kb.add clause).predicateAt kb.size = clause.head.predicate? := by
  simp [predicateAt, size]

theorem Indexed.add (indexed : kb.Indexed) (clause : Clause) : (kb.add clause).Indexed := by
  intro predicate
  have size : (kb.add clause).size = kb.size + 1 := by simp [KnowledgeBase.size]
  have old : ((List.range kb.size).filter fun position =>
        (kb.add clause).predicateAt position == some predicate) =
      (kb.bucket predicate).toList := by
    rw [indexed predicate]
    apply List.filter_congr
    intro position member
    rw [predicateAt_add (List.mem_range.1 member)]
  -- Only the new position is left to look at.
  rw [size, List.range_succ, List.filter_append, old, bucket_add]
  by_cases own : clause.head.predicate? = some predicate
  · simp [predicateAt_add_self, own]
  · simp [predicateAt_add_self, own]

theorem Indexed.addAll (indexed : kb.Indexed) (clauses : List Clause) :
    (kb.addAll clauses).Indexed := by
  induction clauses generalizing kb with
  | nil => exact indexed
  | cons clause clauses ih => exact ih (indexed.add clause)

theorem indexed_ofClauses (clauses : List Clause) : (ofClauses clauses).Indexed :=
  indexed_empty.addAll clauses

/-- Reading the clauses at all positions gives all clauses. -/
theorem filterMap_range_clauses (kb : KnowledgeBase) :
    (List.range kb.size).filterMap (kb.clauses[·]?) = kb.clauses.toList := by
  unfold size
  simp only [← Array.getElem?_toList, ← Array.length_toList]
  induction kb.clauses.toList using List.reverseRecOn with
  | nil => rfl
  | append_singleton clauses clause ih =>
    rw [List.length_append, List.length_singleton, List.range_succ, List.filterMap_append]
    congr 1
    · refine Eq.trans (List.filterMap_congr fun position member => ?_) ih
      exact List.getElem?_append_left (List.mem_range.1 member)
    · simp

/-- With a right index a goal is offered the clauses that suit it, in order. -/
theorem Indexed.matching_eq (indexed : kb.Indexed) (goal : Term) :
    kb.matching goal = kb.clauses.toList.filter (·.suits goal) := by
  cases key : goal.predicate? with
  | none =>
    -- Every clause suits a variable.
    have all : (fun clause : Clause => clause.suits goal) = fun _ => true := by
      funext clause
      simp [Clause.suits, key]
    rw [all, List.filter_true, ← filterMap_range_clauses]
    simp [matching, candidates, key, size]
  | some predicate =>
    rw [← filterMap_range_clauses, List.filter_filterMap]
    simp only [matching, candidates, key]
    rw [indexed predicate, List.filterMap_filter]
    apply List.filterMap_congr
    intro position _
    -- A position is kept by the index if and only if its clause is kept by the filter.
    cases atPosition : kb.clauses[position]? with
    | none => simp [predicateAt, atPosition]
    | some clause => simp [predicateAt, atPosition, Clause.suits, key, Option.filter]

/-- A knowledge base offers for a goal those of its clauses that suit it, in order. -/
theorem matching_ofClauses (clauses : List Clause) (goal : Term) :
    (ofClauses clauses).matching goal = clauses.filter (·.suits goal) := by
  rw [(indexed_ofClauses clauses).matching_eq, toList_clauses_ofClauses]

end KnowledgeBase

/-! ## Clauses that are not offered -/

theorem Clause.predicate?_head_instantiate (clause : Clause) (ρ : Symbol → Term) :
    (clause.instantiate ρ).head.predicate? = clause.head.predicate? := by
  have notVar := clause.head_not_var
  rw [head_instantiate, Term.instantiate_app, Term.predicate?_app, List.length_map]
  cases shape : clause.head with
  | var x => simp [shape, Term.isVar] at notVar
  | atom name => rfl
  | compound functor args => rfl

theorem Bindings.Agree.predicate?_eq {t u : Term} (agree : Agree t u) :
    t.predicate? = u.predicate? := by
  rcases agree.exists_shape with ⟨a, rfl, rfl⟩ | ⟨f, ts, us, rfl, rfl, lengths⟩
  · rfl
  · simp [Term.predicate?, lengths]

/-- A clause that does not suit what the goal walks to clashes with the goal, however the clause is
renamed. -/
theorem Bindings.unify_clash_of_not_suits {s : Bindings} {goal : Term} {clause : Clause}
    (unsuited : clause.suits (s.walk goal) = false) (supply : NameSupply) :
    (s.unify goal (supply.renameClause clause).1.head).conflict = some .clash := by
  have notVar := (supply.renameClause clause).1.head_not_var
  have walked := walk_of_not_var s notVar
  have own : (supply.renameClause clause).1.head.predicate? = clause.head.predicate? :=
    clause.predicate?_head_instantiate _
  generalize (supply.renameClause clause).1.head = head at notVar walked own
  cases key : (s.walk goal).predicate? with
  | none => simp [Clause.suits, key] at unsuited
  | some predicate =>
    have goalNotVar : (s.walk goal).isVar = false := by
      rw [← Bool.not_eq_true, ← Term.predicate?_eq_none_iff, key]
      simp
    have disagree : ¬ Agree (s.walk goal) (s.walk head) := by
      intro agree
      rw [walked] at agree
      simp [Clause.suits, key, ← own, ← agree.predicate?_eq] at unsuited
    have positive : s.unifyDepth goal head ≠ 0 := by
      unfold unifyDepth
      simp
    obtain ⟨depth, bound⟩ := Nat.exists_eq_succ_of_ne_zero positive
    rw [unify, conflict_conclude, bound]
    rw [unifyWithin_clash depth goalNotVar (by rw [walked]; exact notVar) disagree]

end HornLogic
