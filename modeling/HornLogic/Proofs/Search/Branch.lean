import HornLogic.Proofs.Search.Calls
import HornLogic.Proofs.Search.Turns

/-!
# The branch of a search

The search tree has the goal lists that wait as its nodes and resolution steps as its edges. At any
time a search stands on one branch of it. `Search.branch` keeps the clause instances of the steps
on this branch, the first one first. A step that succeeds adds the instance it used. Going back to
a choice point takes away what was added since the goal was selected there.

The instances determine the goals that wait, and how deeply each of them is nested in the proof
attempted on the branch. The goals of the query are not nested, and what a clause puts in the place
of a goal is nested one level deeper than this goal (`nested`).

`Branched` ties this to the state of a search. When goals are entered, the branch has one step for
each choice point, the depth is the number of steps, and the goals are those that the branch
determines; and for a choice point all this was so when its goal was selected. Every turn preserves
it (`Branched.turn`).
-/

namespace HornLogic

/-! ## Branches and nesting -/

/-- The first goal is replaced by the body of a clause, nested one level deeper. -/
def resolveFirst : List (Term × Nat) → Clause → List (Term × Nat)
  | [], _ => []
  | (_, level) :: rest, variant => variant.body.map (fun goal => (goal, level + 1)) ++ rest

/-- The goals left after resolution with the clauses of a branch, each with the number of clauses
that it is nested in. -/
def nested (goals : List Term) (branch : List Clause) : List (Term × Nat) :=
  branch.foldl resolveFirst (goals.map fun goal => (goal, 0))

namespace Search

/-- The clause instance with which the next turn resolves a goal, if it succeeds. -/
def resolvent? (search : Search) : Option Clause :=
  match search.turn.search.phase with
  | .enter _ _ => search.variant?
  | _ => none

/-- The branch after the next turn. Of the steps on it, those before the goal of the topmost choice
point was selected stay, one for each choice point below. -/
def nextBranch (search : Search) (branch : List Clause) : List Clause :=
  match search.phase, search.stack with
  | .resume, _ :: below => branch.take below.length ++ search.resolvent?.toList
  | _, _ => branch

def branchAfter : Nat → Search → List Clause → List Clause
  | 0, _, branch => branch
  | turns + 1, search, branch => branchAfter turns search.turn.search (search.nextBranch branch)

/-- The clause instances that the branch uses after a number of turns, the first one first. -/
def branch (start : Search) (turns : Nat) : List Clause := start.branchAfter turns []

/-- The goal that is to be selected after a number of turns, with its nesting. -/
def selected? (start : Search) (goals : List Term) (turns : Nat) : Option (Term × Nat) :=
  match (start.after turns).phase with
  | .enter _ _ => (nested goals (start.branch turns)).head?
  | _ => none

end Search

theorem nested_append_singleton (goals : List Term) (branch : List Clause) (variant : Clause) :
    nested goals (branch ++ [variant]) = resolveFirst (nested goals branch) variant := by
  simp [nested]

/-- A goal is nested in no more rules than the branch uses. -/
theorem level_le_of_mem_nested (goals : List Term) (branch : List Clause) {goal : Term}
    {level : Nat} (member : (goal, level) ∈ nested goals branch) :
    level ≤ branch.countP fun variant => !variant.isFact := by
  induction branch using List.reverseRecOn generalizing goal level with
  | nil =>
    have zero : ∃ asked ∈ goals, asked = goal ∧ 0 = level := by simpa [nested] using member
    obtain ⟨_, _, _, rfl⟩ := zero
    exact Nat.zero_le _
  | append_singleton earlier variant ih =>
    rw [nested_append_singleton] at member
    rw [List.countP_append, List.countP_singleton]
    cases before : nested goals earlier with
    | nil => simp [before, resolveFirst] at member
    | cons first rest =>
      obtain ⟨_, outer⟩ := first
      rw [before] at ih member
      rcases List.mem_append.1 member with inBody | inRest
      · -- A goal of the body is nested once more, and the clause is a rule since it has a body.
        obtain ⟨_, ofBody, same⟩ := List.mem_map.1 inBody
        obtain ⟨rfl, rfl⟩ := Prod.mk.inj same
        have rule : variant.isFact = false := by
          simpa [Clause.isFact] using List.ne_nil_of_mem ofBody
        have outerLe := ih List.mem_cons_self
        simp only [rule, Bool.not_false, if_true]
        omega
      · have restLe := ih (List.mem_cons_of_mem _ inRest)
        omega

/-- If the branch uses rules only, the first goal is nested in all of them. -/
theorem level_eq_length_of_rules {goals : List Term} {branch : List Clause}
    (rules : ∀ variant ∈ branch, variant.isFact = false) {goal : Term} {level : Nat}
    {rest : List (Term × Nat)} (first : nested goals branch = (goal, level) :: rest) :
    level = branch.length := by
  induction branch using List.reverseRecOn generalizing goal level rest with
  | nil =>
    cases goals with
    | nil => simp [nested] at first
    | cons asked goals =>
      obtain ⟨same, -⟩ := List.cons.inj first
      exact (Prod.mk.inj same).2.symm
  | append_singleton earlier variant ih =>
    rw [nested_append_singleton] at first
    have rule := rules variant (by simp)
    cases before : nested goals earlier with
    | nil => simp [before, resolveFirst] at first
    | cons outer others =>
      obtain ⟨_, outerLevel⟩ := outer
      have outerEq := ih (fun other member => rules other (List.mem_append_left _ member)) before
      cases body : variant.body with
      | nil => simp [Clause.isFact, body] at rule
      | cons inner inners =>
        rw [before, resolveFirst, body] at first
        obtain ⟨same, -⟩ := List.cons.inj first
        have deeper : outerLevel + 1 = level := (Prod.mk.inj same).2
        rw [List.length_append, List.length_singleton]
        omega

/-! ## The invariant -/

/-- The branch has led to the goals and the depth at which the search stands, and before that to
those of each choice point. -/
structure Branched (goals : List Term) (search : Search) (branch : List Clause) : Prop where
  entering : ∀ waiting depth, search.phase = .enter waiting depth →
    branch.length = search.stack.length ∧ depth = branch.length ∧
      (nested goals branch).map Prod.fst = waiting
  stack : ∀ point below, point :: below <:+ search.stack →
    point.depth = below.length ∧ (branch.take below.length).length = below.length ∧
      (nested goals (branch.take below.length)).map Prod.fst = point.goal :: point.rest
  /-- No goal was selected at a depth over the limit. -/
  within : ∀ point ∈ search.stack, search.limits.checkDepth point.depth = none

namespace Branched

variable {goals : List Term} {search : Search} {branch : List Clause} {point : ChoicePoint}
  {below : List ChoicePoint}

theorem start (offer : Term → List Clause) (goals : List Term) (limits : Limits) :
    Branched goals (.start offer goals limits) [] where
  entering := by
    rintro _ _ ⟨⟩
    exact ⟨rfl, rfl, by simp [nested, Function.comp_def]⟩
  stack := by
    intro point below suffix
    simpa [Search.start] using suffix.length_le
  within := nofun

/-- What was so for the choice points below the topmost one still is when the steps made since are
taken away. -/
theorem stack_below (branched : Branched goals search branch)
    (stack : search.stack = point :: below) {other : ChoicePoint} {others : List ChoicePoint}
    (suffix : other :: others <:+ below) (added : List Clause) :
    other.depth = others.length ∧
      ((branch.take below.length ++ added).take others.length).length = others.length ∧
      (nested goals ((branch.take below.length ++ added).take others.length)).map Prod.fst =
        other.goal :: other.rest := by
  have shorter : others.length ≤ below.length :=
    Nat.le_of_lt (Nat.lt_of_succ_le suffix.length_le)
  have kept : (branch.take below.length).length = below.length :=
    (branched.stack point below (stack ▸ List.suffix_rfl)).2.1
  rw [List.take_append_of_le_length (by omega), List.take_take, Nat.min_eq_left shorter]
  exact branched.stack other others (stack ▸ suffix.trans (List.suffix_cons _ _))

/-- The topmost choice point is back, with fewer clauses to try, and perhaps a step was made. -/
theorem stack_top (branched : Branched goals search branch)
    (stack : search.stack = point :: below) (untried : List Clause) (added : List Clause)
    (other : ChoicePoint) (others : List ChoicePoint)
    (suffix : other :: others <:+ { point with untried } :: below) :
    other.depth = others.length ∧
      ((branch.take below.length ++ added).take others.length).length = others.length ∧
      (nested goals ((branch.take below.length ++ added).take others.length)).map Prod.fst =
        other.goal :: other.rest := by
  rcases List.suffix_cons_iff.1 suffix with same | later
  · obtain ⟨rfl, rfl⟩ := List.cons.inj same
    obtain ⟨depth, length, waiting⟩ :=
      branched.stack point others (stack ▸ List.suffix_rfl)
    rw [List.take_append_of_le_length (by omega), List.take_take, Nat.min_self]
    exact ⟨depth, length, waiting⟩
  · exact branched.stack_below stack later added

theorem within_top (branched : Branched goals search branch)
    (stack : search.stack = point :: below) (untried : List Clause) :
    ∀ other ∈ { point with untried } :: below, search.limits.checkDepth other.depth = none := by
  intro other member
  rcases List.mem_cons.1 member with rfl | later
  · exact branched.within point (stack ▸ List.mem_cons_self)
  · exact branched.within other (stack ▸ List.mem_cons_of_mem _ later)

/-- Nothing is left of a branch when the search has stopped. -/
theorem of_stopped (phase : search.phase = .finished) (stack : search.stack = [])
    (branch : List Clause) : Branched goals search branch where
  entering waiting depth entered := nomatch phase.symm.trans entered
  stack point below suffix := by
    rw [stack] at suffix
    simpa using suffix.length_le
  within point member := by
    rw [stack] at member
    contradiction

/-- A turn takes the branch along. -/
theorem turn (branched : Branched goals search branch) :
    Branched goals search.turn.search (search.nextBranch branch) := by
  have cases := search.turnCase
  unfold Search.nextBranch Search.resolvent?
  generalize search.turn = turn, search.variant? = made at cases
  cases cases with
  | solved depth phase =>
    simp only [phase]
    exact { branched with entering := nofun }
  | tooDeep => exact .of_stopped rfl rfl _
  | descended goal rest depth phase within =>
    obtain ⟨length, same, waiting⟩ := branched.entering _ _ phase
    simp only [phase]
    refine { entering := nofun, stack := ?_, within := ?_ }
    · intro point below suffix
      rcases List.suffix_cons_iff.1 suffix with new | earlier
      · obtain ⟨rfl, rfl⟩ := List.cons.inj new
        rw [List.take_of_length_le (Nat.le_of_eq length)]
        exact ⟨same.trans length, length, waiting⟩
      · exact branched.stack point below earlier
    · intro point member
      rcases List.mem_cons.1 member with rfl | earlier
      · exact within
      · exact branched.within point earlier
  | exhausted => exact .of_stopped rfl rfl _
  | popped point below phase stack untried =>
    simp only [phase, stack]
    refine { entering := nofun, stack := ?_, within := ?_ }
    · intro other others suffix
      exact branched.stack_below stack suffix []
    · intro other member
      exact branched.within other (stack ▸ List.mem_cons_of_mem _ member)
  | tooMany => exact .of_stopped rfl rfl _
  | failed point below clause untried conflict phase stack clauses within outcome =>
    simp only [phase, stack]
    exact
      { entering := nofun
        stack := branched.stack_top stack untried []
        within := branched.within_top stack untried }
  | resolved point below clause untried phase stack clauses within outcome =>
    simp only [phase, stack]
    refine
      { entering := ?_
        stack := branched.stack_top stack untried _
        within := branched.within_top stack untried }
    rintro _ _ ⟨⟩
    obtain ⟨depth, length, waiting⟩ := branched.stack point below (stack ▸ List.suffix_rfl)
    refine ⟨?_, ?_, ?_⟩
    · simp [length]
    · simp [length, depth]
    · -- The goal of the choice point comes first, and the clause instance takes its place.
      rw [Option.toList_some, nested_append_singleton]
      cases before : nested goals (branch.take below.length) with
      | nil => simp [before] at waiting
      | cons first rest =>
        rw [before, List.map_cons] at waiting
        simp [resolveFirst, (List.cons.inj waiting).2, Function.comp_def]
  | finished phase =>
    simp only [phase]
    exact branched

theorem after (branched : Branched goals search branch) (turns : Nat) :
    Branched goals (search.after turns) (search.branchAfter turns branch) := by
  induction turns generalizing search branch with
  | zero => exact branched
  | succ turns ih => exact ih branched.turn

end Branched

/-- The branch of a query leads to where the search for it stands. -/
theorem branched_after (offer : Term → List Clause) (goals : List Term) (limits : Limits)
    (turns : Nat) :
    Branched goals ((Search.start offer goals limits).after turns)
      ((Search.start offer goals limits).branch turns) :=
  (Branched.start offer goals limits).after turns

end HornLogic
