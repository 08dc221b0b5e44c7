import HornLogic.Proofs.Search.Embedding
import HornLogic.Proofs.Search.Solutions

/-!
# Conjunctions

A conjunction is solved from left to right. The search finds the solutions of the first goals, and
with each of them it solves the other goals, as a query of their own would do with the values of the
solution put in. So its solutions are the solutions of these queries put together, in order, and its
attempts are the sum of theirs (`ended_append`).

The queries do not know of each other and make up the same fresh names. That is why a solution of
the first goals is renamed apart before it is put into the others, and a solution of the others
before it is put into the first one. The conjunction has its own names for all of these variables.

In the proof, the search for the first goals is embedded in the one for the conjunction
(`conjunction`). Where the former has a solution, the bindings of the latter give the variables of
the conjunction what the solution gives them, under other names (`Shown`). Therefore the search for
the others is embedded there, too, although it begins with no bindings at all (`Shown.embedded`,
`Shown.surroundings`). Both times, what the smaller search found is there in the larger one by one
and the same argument: a permutation takes the names of the renamed solution to the names in the
larger search (`Embedded.exists_perm`).
-/

namespace HornLogic

/-! ## Solutions put together -/

namespace Solution

/-- The goals with the values of the solution put in. -/
def apply (answer : Solution) (goals : List Term) : List Term :=
  goals.map (Term.instantiate answer.value)

/-- The values that the first solution gives the variables, with those of the second one put in. -/
def andThen (vars : List Symbol) (answer later : Solution) : Solution :=
  { bindings := vars.map fun x => (x, (answer.value x).instantiate later.value) }

end Solution

/-- A solution, and what comes of the query for the goals that remain when it is put into them. -/
structure Continuation where
  answer : Solution
  answers : List (Solution × Nat)
  attempts : Nat

/-- A solution of the first goals is continued under names that are apart from the other goals, and
with these the query for the other goals ends. -/
structure Continues (clauses : List Clause) (first others : List Term) (found : Solution)
    (next : Continuation) : Prop where
  renamed : found.RenamedApart (Term.varsAll first) (Term.varsAll others) next.answer
  ended : Ended clauses (next.answer.apply others) next.answers next.attempts

/-- The joint solution is the one of the first goals with the later one put in. The fresh variables
of the later one are first renamed apart, no matter how. The joint solution has other names yet for
all variables that the conjunction does not have. -/
structure Joined (first others : List Term) (answer later joint : Solution) : Prop where
  exists_renamed : ∃ later', later.RenamedApart (Term.varsAll (answer.apply others))
    (Term.varsAll first ++ answer.vars) later'
  eq_rename : ∀ later', later.RenamedApart (Term.varsAll (answer.apply others))
      (Term.varsAll first ++ answer.vars) later' →
    ∃ π : Equiv.Perm Symbol, (∀ x ∈ Term.varsAll (first ++ others), π x = x) ∧
      joint = (answer.andThen (Term.varsAll (first ++ others)) later').rename π

/-- A solution that is continued has a joint solution with each of the later ones, in order. -/
def JoinedAll (first others : List Term) (next : Continuation) (block : List (Solution × Nat)) :
    Prop :=
  List.Forall₂ (fun later joint => Joined first others next.answer later.1 joint.1) next.answers
    block

/-! ## A solution inside a larger search -/

section Query

variable {asked known : List Symbol} {γ : Equiv.Perm Symbol} {base s s' : Bindings}
  {dict : Dictionary} {ledger ledger' : Ledger}

/-- When a query inside a larger search has a solution, renamed apart from what else is known there,
then one permutation takes the names of all variables to those in the larger search, and the larger
search has the values that the solution shows. -/
theorem Embedded.exists_perm
    (embedded : Embedded (.ofQuery asked γ) base (unasked asked known γ) dict s s' ledger ledger')
    {avoided : List Symbol} {answer : Solution} (avoids : ∀ x ∈ known, x ∉ asked → x ∈ avoided)
    (renamed : (s.answer asked).RenamedApart asked avoided answer) :
    ∃ π : Equiv.Perm Symbol, (∀ x ∈ known, π x = γ x) ∧
      (∀ x ∈ answer.vars, ledger'.names.Used (π x)) ∧
      ∀ x ∈ known, base.lookup (γ x) = none → s'.value (γ x) = (answer.value x).rename π := by
  obtain ⟨τ, fixed, moved, rfl⟩ := renamed
  have inDict (y : Symbol) (member : y ∈ (s.answer asked).vars) : y ∈ dict.names := by
    obtain ⟨x, inAsked, occurs⟩ := Bindings.mem_vars_answer.1 member
    have covers := (embedded.asked x inAsked).covers.resolve embedded.all
    rw [Bindings.resolve_var] at covers
    exact covers y occurs
  have same (x : Symbol) (member : x ∈ asked) : dict.perm x = γ x := embedded.extension.2 x member
  have other (x : Symbol) (member : x ∈ known) (missing : x ∉ asked) :=
    embedded.apart (γ x) ⟨x, member, missing, rfl⟩
  obtain ⟨π, first, second⟩ : ∃ π : Equiv.Perm Symbol, (∀ x ∈ known, π x = γ x) ∧
      ∀ y ∈ (s.answer asked).vars, π (τ y) = dict.perm y := by
    apply Dictionary.exists_perm_join
    · intro y member both
      by_cases inAsked : y ∈ asked
      · rw [fixed y inAsked, same y inAsked]
      · have missing := not_mem_of_fixed fixed inAsked
        exact absurd (avoids _ both missing) (moved y member inAsked)
    · intro y member unknown x inKnown equal
      by_cases inAsked : x ∈ asked
      · rw [← same x inAsked] at equal
        obtain rfl := dict.perm.injective equal
        rw [fixed x inAsked] at unknown
        exact unknown inKnown
      · exact (other x inKnown inAsked).2.1 y (inDict y member) equal.symm
  refine ⟨π, first, ?_, ?_⟩
  · intro x member
    obtain ⟨y, inAnswer, rfl⟩ := Solution.mem_vars_rename.1 member
    rw [second y inAnswer]
    exact (embedded.within y (inDict y inAnswer)).2
  · intro x inKnown unbound
    by_cases inAsked : x ∈ asked
    · have pair : s'.resolve (.var (γ x)) = (s.resolve (.var x)).rename dict.perm :=
        (embedded.asked x inAsked).pair
      rw [Bindings.resolve_var, Bindings.resolve_var] at pair
      rw [pair, Bindings.value_rename_answer_of_mem fixed inAsked, Term.rename_rename]
      refine Term.rename_congr fun y occurs => ?_
      exact (second y (Bindings.mem_vars_answer.2 ⟨x, inAsked, occurs⟩)).symm
    · rw [Bindings.value_rename_answer_of_not_mem fixed inAsked, Term.rename_var, first x inKnown]
      exact Bindings.value_of_unbound ((other x inKnown inAsked).2.2 unbound)

end Query

/-! ## The goals that remain -/

section Remaining

variable {clauses : List Clause} {first others : List Term} {answer : Solution}
  {γ : Equiv.Perm Symbol} {s s' : Bindings} {ledger ledger' : Ledger}

/-- In the search for the conjunction, the bindings give its variables what the solution of the
first goals gives them, under other names. -/
structure Shown (first others : List Term) (answer : Solution) (γ : Equiv.Perm Symbol)
    (s' : Bindings) (ledger' : Ledger) : Prop where
  acyclic : s'.Acyclic
  all : s'.All ledger'.names.Covers
  fixed : ∀ x ∈ Term.varsAll (first ++ others), γ x = x
  used : ∀ x ∈ Term.varsAll (first ++ others) ++ answer.vars, ledger'.names.Used (γ x)
  value : ∀ x ∈ Term.varsAll (first ++ others), s'.value x = (answer.value x).rename γ
  hidden : ∀ x ∉ Term.varsAll first, answer.value x = .var x

/-- The variables that a solution leaves in the values are unbound in the search for the
conjunction. -/
theorem Shown.unbound (shown : Shown first others answer γ s' ledger') {x y : Symbol}
    (member : x ∈ Term.varsAll (first ++ others)) (occurs : y ∈ (answer.value x).occurrences) :
    y ∈ Term.varsAll (first ++ others) ++ answer.vars ∧ s'.lookup (γ y) = none := by
  constructor
  · rcases Solution.eq_or_mem_vars_of_mem_value occurs with rfl | inAnswer
    · exact List.mem_append_left _ member
    · exact List.mem_append_right _ inAnswer
  · apply shown.acyclic.lookup_of_mem_resolve (t := .var x)
    rw [Bindings.resolve_var, shown.value x member, Term.occurrences_rename]
    exact List.mem_map_of_mem occurs

/-- The query for the other goals, with the solution put in, is embedded in the search for the
conjunction. -/
theorem Shown.embedded (shown : Shown first others answer γ s' ledger') :
    let asked := Term.varsAll (answer.apply others)
    let known := Term.varsAll (first ++ others) ++ answer.vars
    Embedded (.ofQuery asked γ) s' (unasked asked known γ) (.ofQuery asked γ) .empty s'
        (.start asked) ledger' ∧
      EmbeddedTask (.ofQuery asked γ) .empty s' ledger' [] (.solve (answer.apply others))
        (.solve others) := by
  intro asked known
  have unbound (y : Symbol) (member : y ∈ asked) : y ∈ known ∧ s'.lookup (γ y) = none := by
    obtain ⟨x, inOthers, occurs⟩ := Term.mem_varsAll_map_instantiate.1 member
    exact shown.unbound (Term.mem_varsAll_append.2 (.inr inOthers)) occurs
  refine ⟨embedded_start shown.acyclic shown.all shown.used (fun y member => (unbound y member).1)
    fun y member => (unbound y member).2, ?_⟩
  have live (goal : Term) (member : goal ∈ others) : Live (.ofQuery asked γ) .empty s' ledger'
      (goal.instantiate answer.value) goal := by
    have inBoth (x : Symbol) (occurs : x ∈ goal.occurrences) :
        x ∈ Term.varsAll (first ++ others) :=
      Term.mem_varsAll_append.2 (.inr (Term.mem_varsAll.2 ⟨goal, member, occurs⟩))
    refine ⟨?_, ?_, ?_⟩
    · intro y occurs
      exact Term.mem_varsAll.2 ⟨_, List.mem_map_of_mem member, occurs⟩
    · intro x occurs
      rw [← shown.fixed x (inBoth x occurs)]
      exact shown.used x (List.mem_append_left _ (inBoth x occurs))
    · show s'.resolve goal =
        (Bindings.empty.resolve (goal.instantiate answer.value)).rename γ
      rw [Bindings.resolve_empty, Term.rename_instantiate, Bindings.resolve_eq_instantiate]
      exact Term.instantiate_congr fun x occurs => shown.value x (inBoth x occurs)
  have lives : List.Forall₂ (Live (.ofQuery asked γ) .empty s' ledger') (answer.apply others)
      others := by
    rw [Solution.apply, List.forall₂_map_left_iff, List.forall₂_same]
    exact live
  have task : EmbeddedTask (.ofQuery asked γ) .empty s' ledger' []
      (.solve (answer.apply others)) (.solve (others ++ [])) := .solve lives
  rwa [List.append_nil] at task

/-- Where the query for the other goals has a solution, the search for the conjunction has the joint
solution. -/
theorem Shown.joined (shown : Shown first others answer γ s' ledger') {dict : Dictionary}
    {t t' : Bindings} {next next' : Ledger}
    (embedded : Embedded (.ofQuery (Term.varsAll (answer.apply others)) γ) s'
      (unasked (Term.varsAll (answer.apply others))
        (Term.varsAll (first ++ others) ++ answer.vars) γ) dict t t' next next') :
    Joined first others answer (t.answer (Term.varsAll (answer.apply others)))
      (t'.answer (Term.varsAll (first ++ others))) where
  exists_renamed := Solution.exists_renamedApart _ _ _
  eq_rename := by
    intro later renamed
    have avoids : ∀ x ∈ Term.varsAll (first ++ others) ++ answer.vars,
        x ∉ Term.varsAll (answer.apply others) → x ∈ Term.varsAll first ++ answer.vars := by
      intro x member missing
      rcases List.mem_append.1 member with inGoals | inAnswer
      · by_cases inFirst : x ∈ Term.varsAll first
        · exact List.mem_append_left _ inFirst
        · -- A variable of the others only is left as it is, so it is asked for.
          have inOthers := (Term.mem_varsAll_append.1 inGoals).resolve_left inFirst
          refine absurd (Term.mem_varsAll_map_instantiate.2 ⟨x, inOthers, ?_⟩) missing
          rw [shown.hidden x inFirst]
          simp
      · exact List.mem_append_right _ inAnswer
    obtain ⟨π, agree, -, values⟩ := embedded.exists_perm avoids renamed
    have value (x : Symbol) (member : x ∈ Term.varsAll (first ++ others)) :
        t'.value x = ((answer.value x).instantiate later.value).rename π := by
      have solved : s'.SolvedBy t'.value :=
        embedded.grows.solvedBy shown.acyclic embedded.acyclic'.solvedBy_value
      calc t'.value x
          = (s'.value x).instantiate t'.value := (solved.instantiate_valueWithin s'.size x).symm
        _ = (answer.value x).instantiate fun y => t'.value (γ y) := by
            rw [shown.value x member, Term.instantiate_rename]
        _ = (answer.value x).instantiate fun y => (later.value y).rename π := by
            refine Term.instantiate_congr fun y occurs => ?_
            obtain ⟨known, unbound⟩ := shown.unbound member occurs
            exact values y known unbound
        _ = ((answer.value x).instantiate later.value).rename π :=
            (Term.rename_instantiate _ _ _).symm
    have fixed (x : Symbol) (member : x ∈ Term.varsAll (first ++ others)) : π x = x :=
      (agree x (List.mem_append_left _ member)).trans (shown.fixed x member)
    refine ⟨π, fixed, ?_⟩
    simp only [Bindings.answer, Solution.andThen, Solution.rename, List.map_map,
      Solution.mk.injEq]
    refine List.map_congr_left fun x member => ?_
    simp only [Function.comp_apply, Bindings.resolve_var, fixed x member, value x member]

end Remaining

/-! ## Conjunctions of queries -/

section Conjunction

variable {clauses : List Clause} {first others : List Term}

/-- Where the query for the first goals has a solution, the search for the conjunction has bindings
that show it, renamed in whatever way. -/
theorem Embedded.exists_shown {s s' : Bindings} {dict : Dictionary} {ledger ledger' : Ledger}
    {answer : Solution}
    (embedded : Embedded (.ofQuery (Term.varsAll first) (.refl _)) .empty
      (unasked (Term.varsAll first) (Term.varsAll (first ++ others)) (.refl _)) dict s s' ledger
      ledger')
    (renamed : (s.answer (Term.varsAll first)).RenamedApart (Term.varsAll first)
      (Term.varsAll others) answer) :
    ∃ γ, Shown first others answer γ s' ledger' := by
  have avoids : ∀ x ∈ Term.varsAll (first ++ others), x ∉ Term.varsAll first →
      x ∈ Term.varsAll others :=
    fun x member => (Term.mem_varsAll_append.1 member).resolve_left
  obtain ⟨γ, fixed, used, values⟩ := embedded.exists_perm avoids renamed
  refine ⟨γ, ?_⟩
  exact
    { acyclic := embedded.acyclic'
      all := embedded.all'
      fixed
      used := by
        intro x member
        rcases List.mem_append.1 member with inGoals | inAnswer
        · rw [fixed x inGoals]
          by_cases inFirst : x ∈ Term.varsAll first
          · have covers := (embedded.asked x inFirst).covers'
            exact covers x (by simp)
          · exact (embedded.apart x ⟨x, inGoals, inFirst, rfl⟩).1
        · exact used x inAnswer
      value := fun x member => values x member (Bindings.lookup_empty x)
      hidden := by
        intro x missing
        obtain ⟨π, fixed, -, rfl⟩ := renamed
        exact Bindings.value_rename_answer_of_not_mem fixed missing }

/-- Where the search for the conjunction has come to a solution of the first goals, it is around the
query that continues the solution. Nothing is left to do at a solution of this query, so the blocks
have one joint solution each. -/
def Shown.surroundings {answer : Solution} {γ : Equiv.Perm Symbol} {s' : Bindings}
    {ledger' : Ledger} (shown : Shown first others answer γ s' ledger') (clauses : List Clause) :
    Surroundings clauses (Term.varsAll (answer.apply others)) (Solution × Nat) where
  vars' := Term.varsAll (first ++ others)
  start := .ofQuery (Term.varsAll (answer.apply others)) γ
  base := s'
  apart := unasked (Term.varsAll (answer.apply others))
    (Term.varsAll (first ++ others) ++ answer.vars) γ
  rest := []
  Leaf found later := found = later.1
  Block later block :=
    List.Forall₂ (fun later joint => Joined first others answer later.1 joint.1) [later] block
  cost _ := 0
  goesOn embedded _ same :=
    ⟨_, _, .solved _ _, rfl, .cons (same ▸ shown.joined embedded) .nil⟩

/-- There it goes through the search tree of this query. -/
theorem Shown.explored {next : Continuation} {γ : Equiv.Perm Symbol} {s' : Bindings}
    {ledger' : Ledger} (shown : Shown first others next.answer γ s' ledger')
    (ended : Ended clauses (next.answer.apply others) next.answers next.attempts) :
    ∃ block last', Explored clauses (Term.varsAll (first ++ others)) (.solve others) s' ledger'
        block last' ∧ last'.attempts = ledger'.attempts + next.attempts ∧
      JoinedAll first others next block := by
  obtain ⟨last, attempts, explored⟩ := ended_iff.1 ended
  obtain ⟨embedded, task⟩ := shown.embedded
  obtain ⟨blocks, last', explored', counted, joined⟩ :=
    explored.embed (shown.surroundings clauses) embedded nofun task
      (List.forall₂_same.2 fun _ _ => rfl)
  refine ⟨blocks.flatten, last', explored', ?_, ?_⟩
  · simpa [Shown.surroundings, Ledger.start, attempts] using counted
  · have flat := List.rel_flatten (List.forall₂_map_left_iff.2 joined)
    rwa [← List.flatMap_def, List.flatMap_singleton'] at flat

/-- The search for the conjunction is around the query for its first goals. Where this has a
solution, the other goals are solved as in the query that continues the solution. -/
def conjunction (clauses : List Clause) (first others : List Term) :
    Surroundings clauses (Term.varsAll first) Continuation where
  vars' := Term.varsAll (first ++ others)
  start := .ofQuery (Term.varsAll first) (.refl _)
  base := .empty
  apart := unasked (Term.varsAll first) (Term.varsAll (first ++ others)) (.refl _)
  rest := others
  Leaf := Continues clauses first others
  Block := JoinedAll first others
  cost := Continuation.attempts
  goesOn embedded _ continues :=
    have ⟨_, shown⟩ := embedded.exists_shown continues.renamed
    shown.explored continues.ended

/-- If the query for some goals ends, and for each of its solutions the query for the other goals
with the solution put in, then the query for the conjunction ends. Its solutions are the joint ones,
in order, and it makes as many attempts as all these queries together. -/
theorem ended_append {answers : List (Solution × Nat)} {attempts : Nat} {nexts : List Continuation}
    (ended : Ended clauses first answers attempts)
    (continued : List.Forall₂ (fun next found => Continues clauses first others found.1 next) nexts
      answers) :
    ∃ blocks, Ended clauses (first ++ others) blocks.flatten
        (attempts + (nexts.map Continuation.attempts).sum) ∧
      List.Forall₂ (JoinedAll first others) nexts blocks := by
  obtain ⟨last, rfl, explored⟩ := ended_iff.1 ended
  have inFirst (x : Symbol) (member : x ∈ Term.varsAll first) :
      x ∈ Term.varsAll (first ++ others) := Term.mem_varsAll_append.2 (.inl member)
  have embedded : Embedded (.ofQuery (Term.varsAll first) (.refl _)) .empty
      (unasked (Term.varsAll first) (Term.varsAll (first ++ others)) (.refl _))
      (.ofQuery (Term.varsAll first) (.refl _)) .empty .empty (.start (Term.varsAll first))
      (.start (Term.varsAll (first ++ others))) :=
    embedded_start Bindings.acyclic_empty (Bindings.all_empty _) (fun x member => .inl member)
      inFirst fun x _ => Bindings.lookup_empty x
  have goals : List.Forall₂ (Live (.ofQuery (Term.varsAll first) (.refl _)) .empty .empty
      (.start (Term.varsAll (first ++ others)))) first first := by
    refine List.forall₂_same.2 fun goal member => ?_
    have asked (x : Symbol) (occurs : x ∈ goal.occurrences) : x ∈ Term.varsAll first :=
      Term.mem_varsAll.2 ⟨goal, member, occurs⟩
    refine ⟨asked, fun x occurs => .inl (inFirst x (asked x occurs)), ?_⟩
    show Bindings.empty.resolve goal = (Bindings.empty.resolve goal).rename id
    rw [Term.rename_id]
  have waiting : ∀ goal ∈ others,
      (Ledger.start (Term.varsAll (first ++ others))).names.Covers goal :=
    fun goal member x occurs =>
      .inl (Term.mem_varsAll.2 ⟨goal, List.mem_append_right _ member, occurs⟩)
  obtain ⟨blocks, last', explored', counted, joined⟩ :=
    explored.embed (conjunction clauses first others) embedded waiting (.solve goals) continued
  refine ⟨blocks, ended_iff.2 ⟨last', ?_, explored'⟩, joined⟩
  simpa [conjunction, Ledger.start] using counted

/-- The goal `p(X, W)` has two solutions. The first one leaves `W` open, and both clauses of `q`
answer for its fresh variable; with the second one only one of them does. -/
theorem ended_append_q :
    let clauses : List Clause := [.ofParts "p" [.atom "a", .var "Y"] [],
      .ofParts "p" [.atom "b", .atom "b"] [], .ofParts "q" [.var "U"] [],
      .ofParts "q" [.atom "c"] []]
    let first : List Term := [.app "p" [.var "X", .var "W"]]
    let others : List Term := [.app "q" [.var "W"]]
    let answers : List (Solution × Nat) :=
      [(⟨[("X", .atom "a"), ("W", .var "Y#0")]⟩, 1), (⟨[("X", .atom "b"), ("W", .atom "b")]⟩, 2)]
    let nexts : List Continuation :=
      [{ answer := ⟨[("X", .atom "a"), ("W", .var "Y#0")]⟩
         answers := [(⟨[("Y#0", .var "U#0")]⟩, 1), (⟨[("Y#0", .atom "c")]⟩, 2)]
         attempts := 2 },
       { answer := ⟨[("X", .atom "b"), ("W", .atom "b")]⟩
         answers := [(⟨[]⟩, 1)]
         attempts := 2 }]
    let joint : List (Solution × Nat) :=
      [(⟨[("X", .atom "a"), ("W", .var "U#1")]⟩, 2), (⟨[("X", .atom "a"), ("W", .atom "c")]⟩, 3),
        (⟨[("X", .atom "b"), ("W", .atom "b")]⟩, 5)]
    Ended clauses first answers 2 ∧
      List.Forall₂ (fun next found => Continues clauses first others found.1 next) nexts answers ∧
      Ended clauses (first ++ others) joint 6 ∧
      ∃ blocks, blocks.flatten = joint ∧
        List.Forall₂ (JoinedAll first others) nexts blocks := by
  intro clauses first others answers nexts joint
  have ended : Ended clauses first answers 2 := Search.calls_iff.2 ⟨12, by decide +kernel⟩
  have endedJoint : Ended clauses (first ++ others) joint 6 :=
    Search.calls_iff.2 ⟨24, by decide +kernel⟩
  have apart (answer : Solution) (avoids : ∀ x ∈ answer.vars, x ∉ Term.varsAll first →
      x ∉ Term.varsAll others) (same : answer = answer.rename id) :
      answer.RenamedApart (Term.varsAll first) (Term.varsAll others) answer :=
    ⟨.refl _, fun _ _ => rfl, avoids, same⟩
  have continued : List.Forall₂
      (fun next found => Continues clauses first others found.1 next) nexts answers :=
    .cons ⟨apart _ (by decide +kernel) (by decide +kernel),
        Search.calls_iff.2 ⟨12, by decide +kernel⟩⟩
      (.cons ⟨apart _ (by decide +kernel) (by decide +kernel),
        Search.calls_iff.2 ⟨12, by decide +kernel⟩⟩ .nil)
  obtain ⟨blocks, conjunction, joined⟩ := ended_append ended continued
  exact ⟨ended, continued, endedJoint, blocks, (conjunction.unique endedJoint).1, joined⟩

end Conjunction

end HornLogic
