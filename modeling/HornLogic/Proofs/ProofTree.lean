import Mathlib.Data.List.Forall2
import Mathlib.Logic.Equiv.Basic
import HornLogic.Proofs.Provability

/-!
# Proof trees

A term may be provable in several ways. A `ProofTree` says in which one: which clause the term is an
instance of, and in which way each goal of the body is provable. Clauses are named by their
position, so that a clause which is listed twice makes two proofs. There are no terms in a tree; it
is the same tree that proves a term and the instances of the term.

A conjunction is proved by a forest, with one tree for each goal. Nothing in a tree depends on where
it stands in the forest, so whoever permutes the goals only has to permute the trees in the same way
(`exists_rearrangement`). This is a bijection between the forests for goals in one order and those
for the same goals in another order.
-/

namespace HornLogic

/-- How a term is proved: by the clause at this position, with proofs of its body. -/
inductive ProofTree where
  | node (position : Nat) (premises : List ProofTree)
  deriving Inhabited

namespace ProofTree

/-- The position of the clause at the root. -/
def position : ProofTree → Nat
  | node position _ => position

/-- The tree is a proof of the term. -/
inductive Proves (clauses : List Clause) : ProofTree → Term → Prop where
  | resolve {position : Nat} {premises : List ProofTree} {clause : Clause} (ρ : Symbol → Term) :
      clauses[position]? = some clause →
      List.Forall₂ (Proves clauses) premises (clause.instantiate ρ).body →
      Proves clauses (.node position premises) (clause.instantiate ρ).head

variable {clauses : List Clause} {t : Term}

/-- What a tree proves is an instance of the head of its clause. -/
theorem Proves.exists_instance {position : Nat} {premises : List ProofTree}
    (proves : (node position premises).Proves clauses t) :
    ∃ clause ρ, clauses[position]? = some clause ∧ (clause.instantiate ρ).head = t ∧
      List.Forall₂ (Proves clauses) premises (clause.instantiate ρ).body := by
  cases proves with
  | @resolve _ _ clause ρ found proofs => exact ⟨clause, ρ, found, rfl, proofs⟩

theorem Proves.provable {tree : ProofTree} (proves : tree.Proves clauses t) :
    Provable clauses t := by
  refine @Proves.rec clauses (fun _ t _ => Provable clauses t)
    (fun _ goals _ => ∀ goal ∈ goals, Provable clauses goal) ?_ ?_ ?_ tree t proves
  · intro position premises clause ρ found _ body
    rw [Clause.head_instantiate]
    refine .resolve clause ρ (List.mem_of_getElem? found) fun goal member => body _ ?_
    rw [Clause.body_instantiate]
    exact List.mem_map_of_mem member
  · exact nofun
  · intro tree goal trees goals _ _ first others
    exact List.forall_mem_cons.2 ⟨first, others⟩

/-- Provable terms are those that have a proof tree. -/
theorem provable_iff : Provable clauses t ↔ ∃ tree : ProofTree, tree.Proves clauses t := by
  refine ⟨fun provable => ?_, fun ⟨_, proves⟩ => proves.provable⟩
  induction provable with
  | resolve clause ρ member _ ih =>
    obtain ⟨position, found⟩ := List.mem_iff_getElem?.1 member
    choose! tree proves using ih
    have proofs : List.Forall₂ (Proves clauses) (clause.body.map tree)
        (clause.body.map (Term.instantiate ρ)) := by
      rw [List.forall₂_map_left_iff, List.forall₂_map_right_iff]
      exact List.forall₂_same.2 proves
    refine ⟨node position (clause.body.map tree), ?_⟩
    rw [← Clause.head_instantiate]
    rw [← Clause.body_instantiate] at proofs
    exact .resolve ρ found proofs

end ProofTree

/-- The trees of the forest are proofs of the goals under the assignment. -/
def Solves (clauses : List Clause) (forest : List ProofTree) (goals : List Term)
    (θ : Symbol → Term) : Prop :=
  List.Forall₂ (fun tree goal => tree.Proves clauses (goal.instantiate θ)) forest goals

/-- Assignments that agree on the variables of the goals have the same proofs. -/
theorem Solves.congr {clauses : List Clause} {forest : List ProofTree} {goals : List Term}
    {θ θ' : Symbol → Term} (solves : Solves clauses forest goals θ)
    (agree : ∀ goal ∈ goals, goal.instantiate θ' = goal.instantiate θ) :
    Solves clauses forest goals θ' := by
  induction solves with
  | nil => exact .nil
  | cons first _ ih =>
    rw [List.forall_mem_cons] at agree
    exact .cons (by rwa [agree.1]) (ih agree.2)

/-! ## Permuted goals -/

section Rearrangement

variable {α β : Type}

/-- Rearranges a list behind its first element. -/
def rearrangeTail (φ : Equiv.Perm (List α)) : Equiv.Perm (List α) where
  toFun
    | [] => []
    | x :: xs => x :: φ xs
  invFun
    | [] => []
    | x :: xs => x :: φ.symm xs
  left_inv := by
    intro xs
    cases xs <;> simp
  right_inv := by
    intro xs
    cases xs <;> simp

/-- Exchanges the first two elements of a list. -/
def exchangeFirst : Equiv.Perm (List α) where
  toFun
    | x :: y :: xs => y :: x :: xs
    | xs => xs
  invFun
    | x :: y :: xs => y :: x :: xs
    | xs => xs
  left_inv := by
    intro xs
    rcases xs with _ | ⟨x, _ | ⟨y, xs⟩⟩ <;> rfl
  right_inv := by
    intro xs
    rcases xs with _ | ⟨x, _ | ⟨y, xs⟩⟩ <;> rfl

/-- When the elements of a list are permuted, lists that are related to it one by one can be
rearranged in the same way, whatever the relation. -/
theorem exists_rearrangement {ys ys' : List β} (perm : ys.Perm ys') :
    ∃ φ : Equiv.Perm (List α), ∀ (R : α → β → Prop) (xs : List α),
      List.Forall₂ R (φ xs) ys' ↔ List.Forall₂ R xs ys := by
  induction perm with
  | nil => exact ⟨.refl _, fun _ _ => .rfl⟩
  | @cons y ys ys' _ ih =>
    obtain ⟨φ, related⟩ := ih
    refine ⟨rearrangeTail φ, fun R xs => ?_⟩
    cases xs with
    | nil => simp [rearrangeTail]
    | cons x xs =>
      show List.Forall₂ R (x :: φ xs) (y :: ys') ↔ List.Forall₂ R (x :: xs) (y :: ys)
      rw [List.forall₂_cons, List.forall₂_cons, related]
  | swap y y' ys =>
    refine ⟨exchangeFirst, fun R xs => ?_⟩
    rcases xs with _ | ⟨x, _ | ⟨x', xs⟩⟩
    · simp [exchangeFirst]
    · simp [exchangeFirst]
    · show List.Forall₂ R (x' :: x :: xs) (y :: y' :: ys) ↔
        List.Forall₂ R (x :: x' :: xs) (y' :: y :: ys)
      simp only [List.forall₂_cons]
      exact and_left_comm
  | trans _ _ ih ih' =>
    obtain ⟨φ, related⟩ := ih
    obtain ⟨φ', related'⟩ := ih'
    exact ⟨φ.trans φ', fun R xs => (related' R (φ xs)).trans (related R xs)⟩

end Rearrangement

end HornLogic
