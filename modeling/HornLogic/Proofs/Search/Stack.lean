import HornLogic.Proofs.Bindings.Reached
import HornLogic.Proofs.Search.Turns

/-!
# The stack of choice points

Choice points remember marks on one trail. From the top of the stack downwards the marks do not
increase, and none lies beyond the end of the trail (`Stacked`). Every turn keeps it so.

Therefore what is done at one choice point is undone exactly at any choice point below: whatever
a turn does to the bindings, going back to the mark of a choice point leads to the same bindings
as before the turn (`Stacked.rollback_turn`).

A turn does nothing else to the bindings than to unify and to go back (`Search.reached_turn`).
-/

namespace HornLogic

/-- The marks of the choice points lie on the trail, in the order of the stack. -/
structure Stacked (search : Search) : Prop where
  marks : search.stack.Pairwise fun above below => below.mark.position ≤ above.mark.position
  reached : ∀ point ∈ search.stack, point.mark.position ≤ search.bindings.size

namespace Stacked

variable {search : Search} {point : ChoicePoint} {below : List ChoicePoint}

theorem start (offer : Term → List Clause) (goals : List Term) (limits : Limits) :
    Stacked (.start offer goals limits) where
  marks := .nil
  reached := nofun

theorem mark_le (stacked : Stacked search) (stack : search.stack = point :: below)
    {other : ChoicePoint} (member : other ∈ point :: below) :
    other.mark.position ≤ point.mark.position := by
  rcases List.mem_cons.1 member with rfl | later
  · exact Nat.le_refl _
  · have marks := stacked.marks
    rw [stack, List.pairwise_cons] at marks
    exact marks.1 other later

theorem rollback_top (stacked : Stacked search) (stack : search.stack = point :: below)
    {other : ChoicePoint} (member : other ∈ point :: below) :
    (search.bindings.rollback point.mark).rollback other.mark =
      search.bindings.rollback other.mark :=
  Bindings.rollback_rollback (stacked.mark_le stack member) search.bindings

theorem size_rollback_top (stacked : Stacked search) (stack : search.stack = point :: below) :
    (search.bindings.rollback point.mark).size = point.mark.position := by
  have reached := stacked.reached point (stack ▸ List.mem_cons_self)
  rw [Bindings.size_rollback]
  omega

/-- An attempt is undone by going back to any choice point. -/
theorem rollback_unification (stacked : Stacked search) (stack : search.stack = point :: below)
    (clause : Clause) {other : ChoicePoint} (member : other ∈ point :: below) :
    (search.unification point clause).bindings.rollback other.mark =
      search.bindings.rollback other.mark := by
  have le : other.mark.position ≤ (search.bindings.rollback point.mark).size := by
    rw [stacked.size_rollback_top stack]
    exact stacked.mark_le stack member
  rw [Search.unification, (Bindings.unify_grows_any _ _ _).rollback_of_le le]
  exact stacked.rollback_top stack member

/-- An attempt leaves the marks where they are on the trail. -/
theorem attempt (stacked : Stacked search) (stack : search.stack = point :: below)
    (clause : Clause) (untried : List Clause) (names : NameSupply) (phase : Phase) (steps : Nat) :
    Stacked
      { search with
        bindings := (search.unification point clause).bindings
        names
        stack := { point with untried } :: below
        phase
        steps } where
  marks := by
    have marks := stacked.marks
    rw [stack, List.pairwise_cons] at marks
    exact List.pairwise_cons.2 marks
  reached := by
    intro other member
    have grown : (search.bindings.rollback point.mark).size ≤
        (search.unification point clause).bindings.size :=
      (Bindings.unify_grows_any _ _ _).size_le
    rw [stacked.size_rollback_top stack] at grown
    have le : other.mark.position ≤ point.mark.position := by
      rcases List.mem_cons.1 member with rfl | later
      · exact Nat.le_refl _
      · exact stacked.mark_le stack (List.mem_cons_of_mem _ later)
    exact Nat.le_trans le grown

theorem turn (stacked : Stacked search) : Stacked search.turn.search := by
  have cases := search.turnCase
  generalize search.turn = turn, search.variant? = made at cases
  cases cases with
  | solved => exact ⟨stacked.marks, stacked.reached⟩
  | tooDeep => exact ⟨.nil, nofun⟩
  | descended goal rest depth phase within =>
    constructor
    · exact List.pairwise_cons.2 ⟨stacked.reached, stacked.marks⟩
    · intro point member
      rcases List.mem_cons.1 member with rfl | earlier
      · exact Nat.le_refl _
      · exact stacked.reached point earlier
  | exhausted => exact ⟨.nil, nofun⟩
  | popped point below phase stack untried =>
    have marks := stacked.marks
    rw [stack, List.pairwise_cons] at marks
    refine ⟨marks.2, ?_⟩
    intro other member
    show other.mark.position ≤ (search.bindings.rollback point.mark).size
    rw [stacked.size_rollback_top stack]
    exact marks.1 other member
  | tooMany => exact ⟨.nil, nofun⟩
  | failed point below clause untried _ _ stack => exact stacked.attempt stack clause untried ..
  | resolved point below clause untried _ stack => exact stacked.attempt stack clause untried ..
  | finished => exact stacked

theorem after (stacked : Stacked search) (turns : Nat) : Stacked (search.after turns) :=
  Search.holds_after (fun _ stacked => stacked.turn) stacked turns

/-- Whatever a turn does to the bindings, going back to a choice point leads to the same bindings
before and after it. -/
theorem rollback_turn (stacked : Stacked search) {other : ChoicePoint}
    (member : other ∈ search.stack) :
    search.turn.search.bindings.rollback other.mark = search.bindings.rollback other.mark := by
  have cases := search.turnCase
  generalize search.turn = turn, search.variant? = made at cases
  cases cases with
  | solved => rfl
  | tooDeep => rfl
  | descended => rfl
  | exhausted => rfl
  | popped _ _ _ stack => exact stacked.rollback_top stack (stack ▸ member)
  | tooMany _ _ _ _ _ _ stack => exact stacked.rollback_top stack (stack ▸ member)
  | failed _ _ clause _ _ _ stack =>
    exact stacked.rollback_unification stack clause (stack ▸ member)
  | resolved _ _ clause _ _ stack =>
    exact stacked.rollback_unification stack clause (stack ▸ member)
  | finished => rfl

end Stacked

/-! ## How the bindings come about -/

/-- A turn unifies, goes back, or leaves the bindings as they are. -/
theorem Search.reached_turn {search : Search} (reached : search.bindings.Reached Bindings.Guard) :
    search.turn.search.bindings.Reached Bindings.Guard := by
  have cases := search.turnCase
  generalize search.turn = turn, search.variant? = made at cases
  cases cases with
  | popped point => exact .rollback point.mark reached
  | tooMany point => exact .rollback point.mark reached
  | failed point => exact .unify _ _ (.rollback point.mark reached)
  | resolved point => exact .unify _ _ (.rollback point.mark reached)
  | _ => exact reached

theorem Search.reached_after {search : Search} (reached : search.bindings.Reached Bindings.Guard)
    (turns : Nat) : (search.after turns).bindings.Reached Bindings.Guard :=
  holds_after (P := fun now => now.bindings.Reached Bindings.Guard)
    (fun _ reached => Search.reached_turn reached) reached turns

end HornLogic
