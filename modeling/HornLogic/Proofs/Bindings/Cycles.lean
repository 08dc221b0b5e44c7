import Mathlib.Logic.Relation
import HornLogic.Proofs.Bindings.Reached

/-!
# Cycles of look-ups

Whether bindings have a cycle is seen from look-ups alone: a variable leads to those that occur in
its term, and no variable may lead back to itself in any number of steps (`NoCycle`). How the
bindings came about does not matter for this, nor do entries of the trail that are shadowed.

Bindings have finitely many entries. So, when there is no cycle, the number of bound variables that
can be reached from a variable is a rank, and the bindings are `Acyclic` in the sense that resolving
and unifying rely on (`Reached.acyclic_iff`).
-/

namespace HornLogic.Bindings

/-- The first variable is bound to a term in which the second one occurs. -/
def Leads (s : Bindings) (x y : Symbol) : Prop :=
  ∃ t, s.lookup x = some t ∧ y ∈ t.occurrences

/-- No variable leads back to itself, whether directly or through others. -/
def NoCycle (s : Bindings) : Prop :=
  ∀ x, ¬ Relation.TransGen s.Leads x x

variable {s : Bindings}

/-- A rank falls along every path. -/
theorem Ranks.lt_of_transGen {rank : Symbol → Nat} (ranks : s.Ranks rank) {x y : Symbol}
    (path : Relation.TransGen s.Leads x y) : rank y < rank x := by
  induction path with
  | single edge =>
    obtain ⟨t, found, occurs⟩ := edge
    exact ranks x t found _ occurs
  | tail _ edge ih =>
    obtain ⟨t, found, occurs⟩ := edge
    exact Nat.lt_trans (ranks _ t found _ occurs) ih

open Classical in
/-- Without a cycle, fewer variables of the trail can be reached with every step. -/
theorem NoCycle.exists_ranks (noCycle : s.NoCycle) (indexed : s.Indexed) :
    ∃ rank, s.Ranks rank := by
  let reachable (x : Symbol) : Finset Symbol :=
    {z ∈ s.trailVars | Relation.ReflTransGen s.Leads x z}
  refine ⟨fun x => (reachable x).card, ?_⟩
  intro x t found y occurs
  have edge : s.Leads x y := ⟨t, found, occurs⟩
  apply Finset.card_lt_card
  rw [Finset.ssubset_iff_of_subset]
  · -- The variable itself is no longer reached, since that would close a cycle.
    refine ⟨x, ?_, ?_⟩
    · exact Finset.mem_filter.2 ⟨mem_trailVars indexed found, .refl⟩
    · intro member
      have back := (Finset.mem_filter.1 member).2
      exact noCycle x (.head' edge back)
  · intro z member
    obtain ⟨inTrail, path⟩ := Finset.mem_filter.1 member
    exact Finset.mem_filter.2 ⟨inTrail, .head edge path⟩

/-- For bindings with any history, to be without cycles is to be acyclic. -/
theorem Reached.acyclic_iff (reached : s.Reached Unguarded) : s.Acyclic ↔ s.NoCycle := by
  have built : s.Built Unguarded := reached.built fun _ _ _ => trivial
  constructor
  · intro acyclic x path
    obtain ⟨rank, ranks⟩ := acyclic.ranked
    exact Nat.lt_irrefl _ (ranks.lt_of_transGen path)
  · intro noCycle
    exact ⟨built.indexed, built.loaded, noCycle.exists_ranks built.indexed⟩

/-- Bindings under which `X` is bound to `a` and then again to `f(Y)`. -/
def rebound : Bindings :=
  (empty.bind "X" (.atom "a")).bind "X" (.compound "f" [.var "Y"])

theorem reached_rebound : rebound.Reached Unguarded := .bind (.bind .empty trivial) trivial

theorem noCycle_rebound : rebound.NoCycle := by
  have ranks : rebound.Ranks fun x => if x = "X" then 1 else 0 := by
    intro x t found y occurs
    rw [rebound, lookup_bind (indexed_empty.bind _ _), lookup_bind indexed_empty] at found
    by_cases same : x = "X"
    · rw [if_pos same] at found
      obtain rfl := Option.some.inj found
      obtain rfl : y = "Y" := by simpa [Term.occurrences_compound] using occurs
      simp [same]
    · simp [same] at found
  exact reached_rebound.acyclic_iff.1 (reached_rebound.acyclic_of_ranks ⟨_, ranks⟩)

end HornLogic.Bindings
