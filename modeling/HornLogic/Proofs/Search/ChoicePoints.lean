import HornLogic.Proofs.Bindings.Rollback
import HornLogic.Proofs.Search.Branch
import HornLogic.Proofs.Search.Stack

/-!
# Choice points come back as they were pushed

A turn can do three things to the stack (`Search.stack_turn`). It pushes a choice point for a goal
that is entered, it takes a clause off the topmost choice point, or it pops some. So a choice point
that is on the stack was pushed at some earlier turn and has stayed there since, with the same ones
below it (`Pushed`). What it has not tried is the end of what it was offered.

All this time the bindings only changed above its mark. Going back to the mark gives the bindings
under which the choice point was pushed, the index included. Hence the clauses that are offered for
its goal now are those that were offered then (`choicePoints_query`).
-/

namespace HornLogic

/-! ## The stack from turn to turn -/

/-- A turn pushes a choice point, takes a clause off the topmost one, or keeps a lower part of the
stack. -/
theorem Search.stack_turn (search : Search) :
    (∃ goal rest depth, search.phase = .enter (goal :: rest) depth ∧
      search.turn.search.bindings = search.bindings ∧
      search.turn.search.stack =
        { goal, rest, depth
          untried := search.offer (search.bindings.walk goal)
          mark := search.bindings.mark } :: search.stack) ∨
    (∃ point below clause untried, search.stack = point :: below ∧
      point.untried = clause :: untried ∧
      search.turn.search.stack = { point with untried } :: below) ∨
    search.turn.search.stack <:+ search.stack := by
  have cases := search.turnCase
  generalize search.turn = turn, search.variant? = made at cases
  cases cases with
  | descended goal rest depth phase => exact .inl ⟨goal, rest, depth, phase, rfl, rfl⟩
  | failed point below clause untried _ _ stack clauses =>
    exact .inr (.inl ⟨point, below, clause, untried, stack, clauses, rfl⟩)
  | resolved point below clause untried _ stack clauses =>
    exact .inr (.inl ⟨point, below, clause, untried, stack, clauses, rfl⟩)
  | popped point below _ stack => exact .inr (.inr (stack ▸ List.suffix_cons point below))
  | solved => exact .inr (.inr List.suffix_rfl)
  | finished => exact .inr (.inr List.suffix_rfl)
  | tooDeep => exact .inr (.inr List.nil_suffix)
  | exhausted => exact .inr (.inr List.nil_suffix)
  | tooMany => exact .inr (.inr List.nil_suffix)

/-! ## When a choice point was pushed -/

/-- The choice point was pushed by the turn that came after `earlier` turns, on top of the choice
points `below`, and has been on the stack up to now, after `turns` turns. -/
structure Pushed (start : Search) (earlier turns : Nat) (point : ChoicePoint)
    (below : List ChoicePoint) : Prop where
  before : earlier < turns
  /-- Its goal was the first of those that were entered. -/
  entered : (start.after earlier).phase = .enter (point.goal :: point.rest) point.depth
  stack : (start.after earlier).stack = below
  /-- The clauses it has not tried are the last of those it was offered. -/
  untried : point.untried <:+
    (start.after earlier).offer ((start.after earlier).bindings.walk point.goal)
  kept : ∀ later, earlier < later → later ≤ turns →
    ∃ above untried, (start.after later).stack = above ++ { point with untried } :: below
  restored : (start.after turns).bindings.rollback point.mark = (start.after earlier).bindings

variable {start : Search} {earlier turns : Nat} {point : ChoicePoint} {below : List ChoicePoint}

/-- Another turn has kept the choice point, perhaps with one clause less. -/
theorem Pushed.succ (pushed : Pushed start earlier turns point below)
    (stacked : Stacked (start.after turns)) (member : point ∈ (start.after turns).stack)
    {above : List ChoicePoint} {untried : List Clause} (fewer : untried <:+ point.untried)
    (stack : (start.after (turns + 1)).stack = above ++ { point with untried } :: below) :
    Pushed start earlier (turns + 1) { point with untried } below where
  before := Nat.lt_succ_of_lt pushed.before
  entered := pushed.entered
  stack := pushed.stack
  untried := fewer.trans pushed.untried
  kept later since upTo := by
    rcases Nat.le_succ_iff.1 upTo with before | rfl
    · exact pushed.kept later since before
    · exact ⟨above, untried, stack⟩
  restored := by
    rw [Search.after_succ]
    exact (stacked.rollback_turn member).trans pushed.restored

/-- Every choice point on the stack was pushed at some earlier turn and has been there since. -/
theorem exists_pushed (empty : start.stack = []) (stacked : Stacked start) {turns : Nat}
    {above : List ChoicePoint} (stack : (start.after turns).stack = above ++ point :: below) :
    ∃ earlier, Pushed start earlier turns point below := by
  induction turns generalizing above point with
  | zero =>
    have nothing : [] = above ++ point :: below := empty.symm.trans stack
    simp at nothing
  | succ turns ih =>
    have stays {top : ChoicePoint} {others : List ChoicePoint} {untried : List Clause}
        (was : (start.after turns).stack = others ++ top :: below)
        (fewer : untried <:+ top.untried) (now : { top with untried } = point) :
        ∃ earlier, Pushed start earlier (turns + 1) point below := by
      subst now
      obtain ⟨earlier, pushed⟩ := ih was
      exact ⟨earlier, pushed.succ (stacked.after turns) (by simp [was]) fewer stack⟩
    have next := stack
    rw [Search.after_succ] at next
    rcases (start.after turns).stack_turn with ⟨goal, rest, depth, phase, bindings, pushes⟩ |
      ⟨top, others, clause, untried, was, toTry, takes⟩ | ⟨popped, keeps⟩
    · rw [pushes] at next
      rcases List.cons_eq_append_iff.1 next with ⟨rfl, here⟩ | ⟨above, rfl, further⟩
      · -- The choice point is the one that was pushed just now.
        obtain ⟨rfl, rfl⟩ := List.cons.inj here
        refine ⟨turns, Nat.lt_succ_self turns, phase, rfl, List.suffix_rfl, ?_, ?_⟩
        · intro later since upTo
          obtain rfl : later = turns + 1 := by omega
          exact ⟨[], _, stack⟩
        · rw [Search.after_succ, bindings]
          exact Bindings.rollback_mark _
      · exact stays further List.suffix_rfl rfl
    · rw [takes] at next
      rcases List.cons_eq_append_iff.1 next with ⟨rfl, here⟩ | ⟨above, rfl, further⟩
      · -- The choice point is the topmost one without its first clause.
        obtain ⟨now, rfl⟩ := List.cons.inj here
        rw [← List.nil_append (top :: below)] at was
        exact stays was (toTry ▸ List.suffix_cons clause untried) now.symm
      · rw [further, ← List.cons_append] at was
        exact stays was List.suffix_rfl rfl
    · rw [next, ← List.append_assoc] at keeps
      exact stays keeps.symm List.suffix_rfl rfl

/-! ## The invariant -/

/-- If each choice point is as deep as there are others below it, the depths count up from the
bottom. -/
theorem depths_eq_range {stack : List ChoicePoint}
    (depths : ∀ point below, point :: below <:+ stack → point.depth = below.length) :
    stack.reverse.map ChoicePoint.depth = List.range stack.length := by
  induction stack with
  | nil => rfl
  | cons point below ih =>
    have lower := ih fun other others suffix =>
      depths other others (suffix.trans (List.suffix_cons point below))
    rw [List.reverse_cons, List.map_append, lower, List.map_singleton,
      depths point below List.suffix_rfl, List.length_cons, List.range_succ]

/-- At any time during a query, the depths of the choice points count up from the bottom of the
stack. Their marks do not decrease in this direction, and lie on the trail. No variable is bound
twice. And to go back to the mark of a choice point, as the search does each time it goes on from
there, gives the very bindings under which it was pushed. So its untried clauses are the last of
those that the knowledge base offers for what its goal walks to then. -/
theorem choicePoints_query (kb : KnowledgeBase) (goals : List Term) (limits : Limits)
    (turns : Nat) :
    let start := kb.query goals limits
    let search := start.after turns
    search.stack.reverse.map ChoicePoint.depth = List.range search.stack.length ∧
    (search.stack.reverse.map fun point => point.mark.position).Pairwise (· ≤ ·) ∧
    (∀ point ∈ search.stack, point.mark.position ≤ search.bindings.size) ∧
    (search.bindings.entries.map Prod.fst).Nodup ∧
    ∀ above point below, search.stack = above ++ point :: below →
      point.untried <:+ kb.matching ((search.bindings.rollback point.mark).walk point.goal) ∧
      ∃ earlier, Pushed start earlier turns point below := by
  intro start search
  have stacked : Stacked start := .start kb.matching goals limits
  have branched := branched_after kb.matching goals limits turns
  have stackedNow : Stacked search := stacked.after turns
  have reached : search.bindings.Reached Bindings.Guard := Search.reached_after .empty turns
  refine ⟨?_, ?_, stackedNow.reached, ?_, ?_⟩
  · exact depths_eq_range fun point below suffix => (branched.stack point below suffix).1
  · rw [List.pairwise_map, List.pairwise_reverse]
    exact stackedNow.marks
  · exact reached.guarded.nodup
  · intro above point below stack
    obtain ⟨earlier, pushed⟩ := exists_pushed rfl stacked stack
    have offered := pushed.untried
    rw [Search.offer_after, ← pushed.restored] at offered
    exact ⟨offered, earlier, pushed⟩

/-- After seven turns the first clause for `q(X)` has been tried, the goal `r(X)` has failed under
it, and the search goes on from the choice point for `q(X)` with the second clause. -/
theorem choicePoints_query_q :
    let kb := KnowledgeBase.ofClauses
      [.ofParts "q" [.atom "a"] [], .ofParts "q" [.atom "b"] [], .ofParts "r" [.atom "b"] [],
        .ofParts "p" [.var "X"] [.app "q" [.var "X"], .app "r" [.var "X"]]]
    let start := kb.query [.app "p" [.var "Y"]] .unbounded
    let search := start.after 7
    search.bindings.entries = [("Y", .var "X#0"), ("X#0", .atom "a")] ∧
    ∃ point below, search.stack = point :: below ∧
      (search.bindings.rollback point.mark).entries = [("Y", .var "X#0")] ∧
      point.untried.length = 1 ∧
      point.untried <:+ kb.matching ((search.bindings.rollback point.mark).walk point.goal) ∧
      ∃ earlier, Pushed start earlier 7 point below := by
  intro kb start search
  have top : search.stack.head?.map (fun point =>
      ((search.bindings.rollback point.mark).entries, point.untried.length)) =
      some ([("Y", .var "X#0")], 1) := by
    decide +kernel
  obtain ⟨-, -, -, -, pushed⟩ := choicePoints_query kb [.app "p" [.var "Y"]] .unbounded 7
  cases stack : search.stack with
  | nil => simp [stack] at top
  | cons point below =>
    simp only [stack, List.head?_cons, Option.map_some, Option.some.injEq, Prod.mk.injEq] at top
    exact ⟨by decide +kernel, point, below, rfl, top.1, top.2, pushed [] point below stack⟩

end HornLogic
