import HornLogic.Proofs.ProofTree
import HornLogic.Proofs.Search.Explored
import HornLogic.Proofs.Search.Solutions

/-!
# Solutions and proof forests

The search for some goals goes through their proofs. Each solution has a forest of proof trees for
the goals, and it is the most general one that has this forest (`MostGeneral`). When the search has
ended, it has met every forest that proves some instance of the goals, and none of them twice. So
the solutions are as many as the forests (`Ended.exists_forests`). This says which solutions there
are, and how often each of them is found, without a word about the order of the search.

The proof is by induction on the search tree. To resolve a goal with a clause is to put some trees
of the forest for what is left under a new root (`graft`). Unification loses nothing: an assignment
that solves the bindings and makes the forest a proof of the goals solves the new bindings too, with
the new variables chosen suitably (`Ready.exists_graft`).
-/

namespace HornLogic

variable {clauses : List Clause} {vars : List Symbol} {goals rest : List Term} {goal : Term}
  {s last : Bindings} {ledger next : Ledger} {clause : Clause} {position : Nat}
  {forest : List ProofTree} {θ : Symbol → Term}

/-! ## States of a search -/

/-- The bindings make sense, and all variables of the bindings and the goals are in use. -/
structure Ready (s : Bindings) (ledger : Ledger) (goals : List Term) : Prop where
  acyclic : s.Acyclic
  all : s.All ledger.names.Covers
  covers : ∀ t ∈ goals, ledger.names.Covers t

theorem Ready.later (ready : Ready s ledger goals) (keeps : ledger.Keeps next) :
    Ready s next goals where
  acyclic := ready.acyclic
  all := keeps.all ready.all
  covers t member := keeps.covers (ready.covers t member)

theorem Ready.attempt (ready : Ready s ledger (goal :: rest)) (clause : Clause) :
    Ready (s.unify goal (ledger.variant clause).head).bindings (ledger.next clause)
      ((ledger.variant clause).body ++ rest) := by
  have later := ready.later (ledger.keeps_next clause)
  have grows := Bindings.unify_grows NameSupply.Covers.arg (later.covers goal List.mem_cons_self)
    (ledger.covers_head clause) later.all
  refine ⟨grows.acyclic later.acyclic, grows.all later.all, fun t member => ?_⟩
  rcases List.mem_append.1 member with inBody | inRest
  · exact ledger.covers_body clause inBody
  · exact later.covers t (List.mem_cons_of_mem _ inRest)

/-! ## One resolution -/

/-- The forest in which the first trees are the premises of a new one. -/
def graft (position count : Nat) (forest : List ProofTree) : List ProofTree :=
  .node position (forest.take count) :: forest.drop count

theorem graft_injective (position count : Nat) : Function.Injective (graft position count) := by
  intro forest forest' same
  obtain ⟨⟨-, first⟩, others⟩ : (position = position ∧ forest.take count = forest'.take count) ∧
      forest.drop count = forest'.drop count := by simpa [graft] using same
  rw [← List.take_append_drop count forest, first, others, List.take_append_drop]

/-- An instance of a renamed clause is an instance of the clause. -/
theorem Ledger.exists_instance_variant (ledger : Ledger) (clause : Clause) (θ : Symbol → Term) :
    ∃ ρ, (ledger.variant clause).instantiate θ = clause.instantiate ρ :=
  ⟨_, Clause.instantiate_instantiate_eq fun _ _ => rfl⟩

theorem Ledger.head_instantiate_variant (ledger : Ledger) (clause : Clause) (θ : Symbol → Term) :
    ((ledger.variant clause).instantiate θ).head = (ledger.variant clause).head.instantiate θ := by
  rw [Clause.head_instantiate, ledger.app_head_variant]

/-- A forest for the body and the other goals makes one for the goal and the other goals. -/
theorem Solves.graft (ledger : Ledger) (found : clauses[position]? = some clause)
    (same : goal.instantiate θ = (ledger.variant clause).head.instantiate θ)
    (solves : Solves clauses forest ((ledger.variant clause).body ++ rest) θ) :
    Solves clauses (graft position (ledger.variant clause).body.length forest) (goal :: rest)
      θ := by
  obtain ⟨ρ, renamed⟩ := ledger.exists_instance_variant clause θ
  have premises : List.Forall₂ (ProofTree.Proves clauses)
      (forest.take (ledger.variant clause).body.length) (clause.instantiate ρ).body := by
    rw [← renamed, Clause.body_instantiate, List.forall₂_map_right_iff]
    exact List.forall₂_take_append _ _ _ solves
  refine .cons ?_ (List.forall₂_drop_append _ _ _ solves)
  rw [same, ← ledger.head_instantiate_variant, renamed]
  exact .resolve ρ found premises

/-- Whatever forest proves the goals by the clause, under an assignment that solves the bindings,
the attempt succeeds, and the premises with the other trees prove what is left to solve. -/
theorem Ready.exists_graft (ready : Ready s ledger (goal :: rest)) (solved : s.SolvedBy θ)
    (found : clauses[position]? = some clause) {premises others : List ProofTree}
    (solves : Solves clauses (.node position premises :: others) (goal :: rest) θ) :
    (s.unify goal (ledger.variant clause).head).conflict = none ∧
      graft position (ledger.variant clause).body.length (premises ++ others) =
        .node position premises :: others ∧
      ∃ θ', (∀ x, ledger.names.Used x → θ' x = θ x) ∧
        (s.unify goal (ledger.variant clause).head).bindings.SolvedBy θ' ∧
        Solves clauses (premises ++ others) ((ledger.variant clause).body ++ rest) θ' := by
  obtain ⟨proves, solvesOthers⟩ := List.forall₂_cons.1 solves
  obtain ⟨clause', ρ, found', head, body⟩ := proves.exists_instance
  obtain rfl : clause = clause' := Option.some.inj (found.symm.trans found')
  obtain ⟨success, θ', agree, renamed, solvedNext⟩ := exists_assignment_of_attempt
    ready.acyclic ready.all (ready.covers goal List.mem_cons_self) solved head
  rw [← renamed, Clause.body_instantiate] at body
  have count : premises.length = (ledger.variant clause).body.length := by
    simpa using body.length_eq
  refine ⟨success, ?_, θ', agree, solvedNext, List.rel_append ?_ ?_⟩
  · rw [← count, graft, List.take_left, List.drop_left]
  · exact List.forall₂_map_right_iff.1 body
  · refine Solves.congr solvesOthers fun t member => ?_
    exact (ready.covers t (List.mem_cons_of_mem _ member)).instantiate_eq agree

/-! ## What a search has reached -/

/-- From some bindings the search has reached others, by resolutions that make up the forest. What
solves the last bindings are the assignments for which the forest is a proof of the goals, up to the
values of variables that were not in use. -/
structure Reaches (clauses : List Clause) (goals : List Term) (s : Bindings) (ledger : Ledger)
    (forest : List ProofTree) (last : Bindings) : Prop where
  acyclic : last.Acyclic
  solves : ∀ θ, last.SolvedBy θ → s.SolvedBy θ ∧ Solves clauses forest goals θ
  general : ∀ θ, s.SolvedBy θ → Solves clauses forest goals θ →
    ∃ θ', (∀ x, ledger.names.Used x → θ' x = θ x) ∧ last.SolvedBy θ'

theorem Reaches.later (reaches : Reaches clauses goals s next forest last)
    (keeps : ledger.Keeps next) : Reaches clauses goals s ledger forest last :=
  { reaches with
    general := by
      intro θ solved solves
      obtain ⟨θ', agree, solved'⟩ := reaches.general θ solved solves
      exact ⟨θ', fun x used => agree x (keeps x used), solved'⟩ }

/-- What is reached after an attempt that succeeds is reached by one more resolution before it. -/
theorem Reaches.graft (ready : Ready s ledger (goal :: rest))
    (success : (s.unify goal (ledger.variant clause).head).conflict = none)
    (found : clauses[position]? = some clause)
    (reaches : Reaches clauses ((ledger.variant clause).body ++ rest)
      (s.unify goal (ledger.variant clause).head).bindings (ledger.next clause) forest last) :
    Reaches clauses (goal :: rest) s ledger
      (graft position (ledger.variant clause).body.length forest) last where
  acyclic := reaches.acyclic
  solves := by
    intro θ solved
    obtain ⟨solvedNext, solves⟩ := reaches.solves θ solved
    obtain ⟨solvedBefore, same⟩ := (ready.acyclic.solvedBy_unify_iff success θ).1 solvedNext
    exact ⟨solvedBefore, solves.graft ledger found same⟩
  general := by
    intro θ solved solves
    obtain ⟨-, whole, θ', agree, solvedNext, solvesNext⟩ :=
      ready.exists_graft solved found solves
    rw [graft_injective _ _ whole] at solvesNext
    obtain ⟨θ'', agree', solved'⟩ := reaches.general θ' solvedNext solvesNext
    refine ⟨θ'', fun x used => ?_, solved'⟩
    rw [agree' x (ledger.keeps_next clause x used), agree x used]

/-! ## What a search tree has found -/

/-- The solution shows bindings that the search has reached by the forest. -/
def FoundBy (clauses : List Clause) (vars : List Symbol) (goals : List Term) (s : Bindings)
    (ledger : Ledger) (forest : List ProofTree) (found : Solution × Nat) : Prop :=
  ∃ last, Reaches clauses goals s ledger forest last ∧ found.1 = last.answer vars

/-- The first tree has the clause at one of the positions at its root. -/
def RootIn (positions : List Nat) (forest : List ProofTree) : Prop :=
  ∃ tree ∈ forest.head?, tree.position ∈ positions

/-- The solutions are those of the forests that prove the goals and are allowed, one for each. -/
structure Surveyed (clauses : List Clause) (vars : List Symbol) (goals : List Term) (s : Bindings)
    (ledger : Ledger) (Allowed : List ProofTree → Prop) (forests : List (List ProofTree))
    (answers : List (Solution × Nat)) : Prop where
  nodup : forests.Nodup
  allowed : ∀ forest ∈ forests, Allowed forest
  found : List.Forall₂ (FoundBy clauses vars goals s ledger) forests answers
  complete : ∀ forest θ, Allowed forest → s.SolvedBy θ → Solves clauses forest goals θ →
    forest ∈ forests

variable {positions : List Nat} {forests early later : List (List ProofTree)}
  {answers earlyAnswers laterAnswers : List (Solution × Nat)}

theorem Surveyed.solved (acyclic : s.Acyclic) :
    Surveyed clauses vars [] s ledger (fun _ => True) [[]] [(s.answer vars, ledger.attempts)] where
  nodup := List.nodup_singleton _
  allowed _ _ := trivial
  found := by
    refine .cons ⟨s, ?_, rfl⟩ .nil
    exact ⟨acyclic, fun θ solved => ⟨solved, .nil⟩, fun θ solved _ => ⟨θ, fun _ _ => rfl, solved⟩⟩
  complete := by
    intro forest θ _ _ solves
    cases solves
    exact List.mem_singleton_self _

/-- No other clauses can be at the root than those that are tried. -/
theorem Surveyed.selected
    (surveyed : Surveyed clauses vars (goal :: rest) s ledger (RootIn positions) forests answers)
    (offered : ∀ position clause, clauses[position]? = some clause →
      clause.suits (s.walk goal) = true → position ∈ positions) :
    Surveyed clauses vars (goal :: rest) s ledger (fun _ => True) forests answers :=
  { surveyed with
    allowed := fun _ _ => trivial
    complete := by
      intro forest θ _ solved solves
      refine surveyed.complete forest θ ?_ solved solves
      cases solves with
      | @cons tree _ others _ proves _ =>
        obtain ⟨position, premises⟩ := tree
        obtain ⟨clause, ρ, found, head, -⟩ := proves.exists_instance
        have suits : clause.suits (s.walk goal) = true :=
          Clause.suits_of_instantiate_eq ((solved.instantiate_walk goal).trans head.symm)
        exact ⟨_, rfl, offered position clause found suits⟩ }

theorem Surveyed.exhausted :
    Surveyed clauses vars (goal :: rest) s ledger (RootIn []) [] [] where
  nodup := List.nodup_nil
  allowed := nofun
  found := .nil
  complete := by
    rintro forest θ ⟨tree, -, none⟩ _ _
    exact absurd none List.not_mem_nil

/-- There is no proof by a clause that fails to resolve the goal. -/
theorem Surveyed.failed (ready : Ready s ledger (goal :: rest))
    (found : clauses[position]? = some clause) {conflict : Conflict}
    (outcome : (s.unify goal (ledger.variant clause).head).conflict = some conflict)
    (surveyed : Surveyed clauses vars (goal :: rest) s (ledger.next clause) (RootIn positions)
      forests answers) :
    Surveyed clauses vars (goal :: rest) s ledger (RootIn (position :: positions)) forests
      answers where
  nodup := surveyed.nodup
  allowed forest member := by
    obtain ⟨tree, first, root⟩ := surveyed.allowed forest member
    exact ⟨tree, first, List.mem_cons_of_mem _ root⟩
  found := surveyed.found.imp fun _ _ ⟨last, reaches, shown⟩ =>
    ⟨last, reaches.later (ledger.keeps_next clause), shown⟩
  complete := by
    rintro forest θ ⟨tree, first, root⟩ solved solves
    rcases List.mem_cons.1 root with rfl | inPositions
    · obtain ⟨others, rfl⟩ := List.head?_eq_some_iff.1 first
      obtain ⟨position, premises⟩ := tree
      have success :=
        (ready.exists_graft solved found solves).1
      rw [success] at outcome
      exact absurd outcome nofun
    · exact surveyed.complete forest θ ⟨tree, first, inPositions⟩ solved solves

/-- The proofs by a clause that resolves the goal are those that come from a proof of what is left;
the other proofs have other clauses at the root. -/
theorem Surveyed.resolved (ready : Ready s ledger (goal :: rest))
    (found : clauses[position]? = some clause) (new : position ∉ positions)
    (success : (s.unify goal (ledger.variant clause).head).conflict = none)
    (keeps : ledger.Keeps next)
    (body : Surveyed clauses vars ((ledger.variant clause).body ++ rest)
      (s.unify goal (ledger.variant clause).head).bindings (ledger.next clause) (fun _ => True)
      early earlyAnswers)
    (surveyed : Surveyed clauses vars (goal :: rest) s next (RootIn positions) later laterAnswers) :
    Surveyed clauses vars (goal :: rest) s ledger (RootIn (position :: positions))
      (early.map (graft position (ledger.variant clause).body.length) ++ later)
      (earlyAnswers ++ laterAnswers) where
  nodup := by
    refine (body.nodup.map (graft_injective _ _)).append surveyed.nodup ?_
    intro forest inEarly inLater
    obtain ⟨premises, -, rfl⟩ := List.mem_map.1 inEarly
    obtain ⟨tree, first, root⟩ := surveyed.allowed _ inLater
    obtain rfl := Option.some.inj first
    exact new root
  allowed := by
    intro forest member
    rcases List.mem_append.1 member with inEarly | inLater
    · obtain ⟨premises, -, rfl⟩ := List.mem_map.1 inEarly
      exact ⟨_, rfl, List.mem_cons_self⟩
    · obtain ⟨tree, first, root⟩ := surveyed.allowed _ inLater
      exact ⟨tree, first, List.mem_cons_of_mem _ root⟩
  found := by
    refine List.rel_append (List.forall₂_map_left_iff.2 (body.found.imp ?_))
      (surveyed.found.imp ?_)
    · rintro forest answer ⟨last, reaches, shown⟩
      exact ⟨last, reaches.graft ready success found, shown⟩
    · rintro forest answer ⟨last, reaches, shown⟩
      exact ⟨last, reaches.later keeps, shown⟩
  complete := by
    rintro forest θ ⟨tree, first, root⟩ solved solves
    rcases List.mem_cons.1 root with rfl | inPositions
    · obtain ⟨others, rfl⟩ := List.head?_eq_some_iff.1 first
      obtain ⟨position, premises⟩ := tree
      obtain ⟨-, whole, θ', -, solvedNext, solvesNext⟩ :=
        ready.exists_graft solved found solves
      have member := body.complete _ θ' trivial solvedNext solvesNext
      exact List.mem_append_left _ (List.mem_map.2 ⟨_, member, whole⟩)
    · exact List.mem_append_right _
        (surveyed.complete forest θ ⟨tree, first, inPositions⟩ solved solves)

/-! ## The search tree -/

/-- The clauses that are offered for a goal have positions of their own. -/
theorem exists_positions (clauses : List Clause) (suits : Clause → Bool) :
    ∃ positions : List Nat, positions.Nodup ∧
      List.Forall₂ (fun position clause => clauses[position]? = some clause) positions
        (clauses.filter suits) ∧
      ∀ position clause, clauses[position]? = some clause → suits clause = true →
        position ∈ positions := by
  let numbered := clauses.zipIdx.filter fun pair => suits pair.1
  have parts : clauses.filter suits = numbered.map Prod.fst := by
    rw [← List.zipIdx_map_fst 0 clauses, List.filter_map]
    rfl
  refine ⟨numbered.map Prod.snd, ?_, ?_, ?_⟩
  · have sublist : (numbered.map Prod.snd).Sublist (clauses.zipIdx.map Prod.snd) :=
      List.filter_sublist.map _
    refine sublist.nodup ?_
    rw [List.zipIdx_map_snd]
    exact List.nodup_range'
  · rw [parts, List.forall₂_map_left_iff, List.forall₂_map_right_iff, List.forall₂_same]
    intro pair member
    exact List.mem_zipIdx_iff_getElem?.1 (List.mem_of_mem_filter member)
  · intro position clause found suitable
    refine List.mem_map.2 ⟨(clause, position), List.mem_filter.2 ⟨?_, suitable⟩, rfl⟩
    exact List.mem_zipIdx_iff_getElem?.2 found

/-- The solutions found for a task are those of all forests for its goals. If a goal was selected,
only the clauses that are left may be at the root. -/
def Task.Surveyed (clauses : List Clause) (vars : List Symbol) (s : Bindings) (ledger : Ledger)
    (answers : List (Solution × Nat)) : Task → Prop
  | .solve goals => Ready s ledger goals → ∃ forests,
      HornLogic.Surveyed clauses vars goals s ledger (fun _ => True) forests answers
  | .attempt goal rest untried => Ready s ledger (goal :: rest) → ∀ positions : List Nat,
      positions.Nodup →
      List.Forall₂ (fun position clause => clauses[position]? = some clause) positions untried →
      ∃ forests,
        HornLogic.Surveyed clauses vars (goal :: rest) s ledger (RootIn positions) forests answers

theorem Explored.surveyed {task : Task} {final : Ledger}
    (explored : Explored clauses vars task s ledger answers final) :
    task.Surveyed clauses vars s ledger answers := by
  induction explored with
  | solved s ledger =>
    intro ready
    exact ⟨_, .solved ready.acyclic⟩
  | @selected goal rest s ledger last answers _ ih =>
    intro ready
    obtain ⟨positions, nodup, found, offered⟩ :=
      exists_positions clauses (·.suits (s.walk goal))
    obtain ⟨forests, surveyed⟩ := ih ready positions nodup found
    exact ⟨forests, surveyed.selected offered⟩
  | exhausted goal rest s ledger =>
    intro ready positions _ found
    cases found
    exact ⟨_, .exhausted⟩
  | @failed goal rest s clause untried conflict ledger last answers outcome _ ih =>
    intro ready positions nodup found
    cases found with
    | @cons position _ positions _ first others =>
      obtain ⟨forests, surveyed⟩ :=
        ih (ready.later (ledger.keeps_next clause)) positions (List.nodup_cons.1 nodup).2 others
      exact ⟨forests, surveyed.failed ready first outcome⟩
  | @resolved goal rest s clause untried ledger middle last early later success body _ ihBody
      ihUntried =>
    intro ready positions nodup found
    have keeps : ledger.Keeps middle := (ledger.keeps_next clause).trans body.keeps
    cases found with
    | @cons position _ positions _ first others =>
      obtain ⟨new, nodup⟩ := List.nodup_cons.1 nodup
      obtain ⟨premises, surveyedBody⟩ := ihBody (ready.attempt clause)
      obtain ⟨forests, surveyed⟩ := ihUntried (ready.later keeps) positions nodup others
      exact ⟨_, .resolved ready first new success keeps surveyedBody surveyed⟩

/-! ## Queries that have ended -/

/-- The forest proves the goals with the values of the solution, and every assignment for which it
proves the goals is an instance of the solution. -/
structure MostGeneral (clauses : List Clause) (goals : List Term) (forest : List ProofTree)
    (answer : Solution) : Prop where
  solves : Solves clauses forest goals answer.value
  general : ∀ θ, Solves clauses forest goals θ →
    ∃ ρ : Symbol → Term, ∀ x ∈ Term.varsAll goals, θ x = (answer.value x).instantiate ρ
  shown : ∀ x ∈ Term.varsAll goals, answer.get? x = some (answer.value x)
  hidden : ∀ x ∉ Term.varsAll goals, answer.get? x = none

/-- The solution shows bindings that its forest has reached from nothing. -/
theorem Reaches.mostGeneral
    (reaches : Reaches clauses goals .empty (.start (Term.varsAll goals)) forest last) :
    MostGeneral clauses goals forest (last.answer (Term.varsAll goals)) where
  solves := by
    refine Solves.congr (reaches.solves last.value reaches.acyclic.solvedBy_value).2 ?_
    intro goal member
    refine Term.instantiate_congr fun x occurs => ?_
    exact last.value_answer_of_mem (Term.mem_varsAll.2 ⟨goal, member, occurs⟩)
  general := by
    intro θ solves
    obtain ⟨ρ, agree, solved⟩ := reaches.general θ (Bindings.solvedBy_empty θ) solves
    refine ⟨ρ, fun x asked => ?_⟩
    rw [← agree x (.inl asked), last.value_answer_of_mem asked]
    exact (solved.instantiate_valueWithin last.size x).symm
  shown := by
    intro x asked
    rw [last.value_answer_of_mem asked]
    exact last.value_answer asked
  hidden x missing := last.get?_answer_of_not_mem missing

/-- A query that has ended has one solution for each forest that proves an instance of its goals. -/
theorem Ended.exists_forests {attempts : Nat} (ended : Ended clauses goals answers attempts) :
    ∃ forests, forests.Nodup ∧
      List.Forall₂ (fun forest found => MostGeneral clauses goals forest found.1) forests answers ∧
      ∀ forest, forest ∈ forests ↔ ∃ θ, Solves clauses forest goals θ := by
  obtain ⟨final, -, explored⟩ := ended_iff.1 ended
  have ready : Ready .empty (.start (Term.varsAll goals)) goals :=
    ⟨Bindings.acyclic_empty, Bindings.all_empty _,
      fun goal member x occurs => .inl (Term.mem_varsAll.2 ⟨goal, member, occurs⟩)⟩
  obtain ⟨forests, surveyed⟩ := explored.surveyed ready
  have found : List.Forall₂ (fun forest found => MostGeneral clauses goals forest found.1) forests
      answers := by
    refine surveyed.found.imp ?_
    rintro forest found ⟨last, reaches, shown⟩
    rw [shown]
    exact reaches.mostGeneral
  have solved : ∀ forest ∈ forests, ∃ θ, Solves clauses forest goals θ := by
    intro forest member
    obtain ⟨i, within, rfl⟩ := List.getElem_of_mem member
    exact ⟨_, (found.get within (found.length_eq ▸ within)).solves⟩
  refine ⟨forests, surveyed.nodup, found, fun forest => ⟨solved forest, ?_⟩⟩
  rintro ⟨θ, solves⟩
  exact surveyed.complete forest θ trivial (Bindings.solvedBy_empty θ) solves

end HornLogic
