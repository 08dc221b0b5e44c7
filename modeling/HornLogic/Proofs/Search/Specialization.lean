import HornLogic.Proofs.Search.Explored

/-!
# A special query has fewer solutions

If some of the variables of a query are given values beforehand, the search can only become smaller.
Suppose that the search for the general goals ends. Then the search for their instances ends too,
after no more attempts, and its solutions are instances of solutions of the general search, in the
same order (`ended_instantiate`).

The proof follows the general search through its search tree. At each place the terms of the special
search resolve to instances of what the terms of the general one resolve to (`Specializes`). A
clause that suits the special goal suits the general one, and if the special goal unifies with its
head then so does the general goal. For what solves the special bindings afterwards can be read as a
solution of the general ones, and unification is most general (`Specializes.unify`). The clauses
that fail in the general search fail in the special one, too, or are not even tried
(`resolved_or_vain`). So the special search tree lies within the general one, clause by clause
(`Specialized`), and as a whole (`Explored.specialize`).
-/

namespace HornLogic

/-- Under the second bindings the second term is an instance of what the first term is under the
first bindings. The variables of the first term are in use. -/
structure Specializes (ledger : Ledger) (η : Symbol → Term) (s s' : Bindings) (t t' : Term) :
    Prop where
  covers : ledger.names.Covers t
  resolve : s'.resolve t' = (s.resolve t).instantiate η

variable {clauses : List Clause} {vars vars' : List Symbol} {η θ : Symbol → Term}
  {s s' : Bindings} {ledger ledger' : Ledger} {goal goal' : Term}

/-! ## One clause -/

theorem Specializes.later {t t' : Term} (special : Specializes ledger η s s' t t') {next : Ledger}
    (keeps : ledger.Keeps next) : Specializes next η s s' t t' where
  covers := keeps.covers special.covers
  resolve := special.resolve

/-- A clause that suits the special goal suits the general one. -/
theorem Specializes.suits (special : Specializes ledger η s s' goal goal') (acyclic : s.Acyclic)
    (acyclic' : s'.Acyclic) {clause : Clause} (suits : clause.suits (s'.walk goal') = true) :
    clause.suits (s.walk goal) = true := by
  unfold Clause.suits at suits ⊢
  cases known : (s.walk goal).predicate? with
  | none => rfl
  | some predicate =>
    rw [← acyclic.predicate?_resolve] at known
    rw [← acyclic'.predicate?_resolve, special.resolve,
      Term.predicate?_instantiate known η] at suits
    exact suits

/-- The clauses that suit the special goal are offered for the general one. -/
theorem Specializes.filter_suits (special : Specializes ledger η s s' goal goal')
    (acyclic : s.Acyclic) (acyclic' : s'.Acyclic) :
    (clauses.filter (·.suits (s.walk goal))).filter (·.suits (s'.walk goal')) =
      clauses.filter (·.suits (s'.walk goal')) := by
  rw [List.filter_filter]
  refine List.filter_congr fun clause _ => ?_
  cases suits : clause.suits (s'.walk goal') with
  | true => simp [special.suits acyclic acyclic' suits]
  | false => simp

/-- If the special goal unifies with the head of a clause then the general goal does, and all that
was an instance before is one afterwards, as are the goals of the body. -/
theorem Specializes.unify (special : Specializes ledger η s s' goal goal') (acyclic : s.Acyclic)
    (acyclic' : s'.Acyclic) (all : s.All ledger.names.Covers) {clause : Clause}
    (success' : (s'.unify goal' (ledger'.variant clause).head).conflict = none) :
    let next := (s.unify goal (ledger.variant clause).head).bindings
    let next' := (s'.unify goal' (ledger'.variant clause).head).bindings
    (s.unify goal (ledger.variant clause).head).conflict = none ∧
      ∃ η' : Symbol → Term,
        (∀ t t', Specializes ledger η s s' t t' →
          Specializes (ledger.next clause) η' next next' t t') ∧
        List.Forall₂ (Specializes (ledger.next clause) η' next next') (ledger.variant clause).body
          (ledger'.variant clause).body := by
  intro next next'
  -- The values of the special search solve the special bindings, and through `η` the general ones.
  let σ : Symbol → Term := next'.value
  let τ : Symbol → Term := fun x => (s.value x).instantiate fun y => (η y).instantiate σ
  obtain ⟨solvedBefore, equal⟩ := acyclic'.solvedBy_value_unify success'
  have general (t : Term) : t.instantiate τ = ((s.resolve t).instantiate η).instantiate σ := by
    rw [Bindings.resolve_eq_instantiate, Term.instantiate_instantiate,
      Term.instantiate_instantiate]
  have atGeneral {t t' : Term} (special : Specializes ledger η s s' t t') :
      t'.instantiate σ = t.instantiate τ := by
    rw [general, ← solvedBefore.instantiate_resolve, special.resolve]
  have solved : s.SolvedBy τ := by
    intro x t found
    rw [general, ← acyclic.value_of_lookup found, Term.instantiate_instantiate]
  let ρ : Symbol → Term := fun x =>
    ((ledger'.names.freshNames clause.vars).1.variable x).instantiate σ
  have renamed' : (ledger'.variant clause).instantiate σ = clause.instantiate ρ :=
    Clause.instantiate_instantiate_eq fun _ _ => rfl
  have head : (clause.instantiate ρ).head = goal.instantiate τ := by
    calc (clause.instantiate ρ).head
        = (ledger'.variant clause).head.instantiate σ := by
          rw [← renamed', Clause.head_instantiate, ledger'.app_head_variant]
      _ = goal'.instantiate σ := equal.symm
      _ = goal.instantiate τ := atGeneral special
  obtain ⟨success, η', agree, renamed, solvedNext⟩ :=
    exists_assignment_of_attempt acyclic all special.covers solved head
  have resolved {t t' : Term} (same : t'.instantiate σ = t.instantiate η') :
      next'.resolve t' = (next.resolve t).instantiate η' :=
    same.trans (solvedNext.instantiate_resolve t).symm
  refine ⟨success, η', ?_, ?_⟩
  · intro t t' specialized
    refine ⟨(ledger.keeps_next clause).covers specialized.covers, resolved ?_⟩
    rw [specialized.covers.instantiate_eq agree]
    exact atGeneral specialized
  · have bodies : (ledger.variant clause).body.map (Term.instantiate η') =
        (ledger'.variant clause).body.map (Term.instantiate σ) := by
      rw [← Clause.body_instantiate, ← Clause.body_instantiate, renamed, renamed']
    rw [← List.forall₂_eq_eq_eq, List.forall₂_map_left_iff, List.forall₂_map_right_iff] at bodies
    have covered : ∀ t ∈ (ledger.variant clause).body, (ledger.next clause).names.Covers t :=
      fun t member => ledger.covers_body clause member
    exact ((List.forall₂_and_left _ _).2 ⟨covered, bodies⟩).imp fun t t' both =>
      ⟨both.1, resolved both.2.symm⟩

/-! ## The search tree -/

/-- The special search stands where the general one stands, and has made no more attempts. -/
structure Narrower (vars : List Symbol) (η θ : Symbol → Term) (s s' : Bindings)
    (ledger ledger' : Ledger) : Prop where
  acyclic : s.Acyclic
  acyclic' : s'.Acyclic
  all : s.All ledger.names.Covers
  query : ∀ x ∈ vars, Specializes ledger η s s' (.var x) (θ x)
  attempts : ledger'.attempts ≤ ledger.attempts

/-- The special search has the same to do. It leaves out clauses that do not suit its goal. -/
inductive NarrowerTask (ledger : Ledger) (η : Symbol → Term) (s s' : Bindings) :
    Task → Task → Prop where
  | solve {goals goals' : List Term} : List.Forall₂ (Specializes ledger η s s') goals goals' →
      NarrowerTask ledger η s s' (.solve goals) (.solve goals')
  | attempt {goal goal' : Term} {rest rest' : List Term} (untried : List Clause) :
      Specializes ledger η s s' goal goal' → List.Forall₂ (Specializes ledger η s s') rest rest' →
      NarrowerTask ledger η s s' (.attempt goal rest untried)
        (.attempt goal' rest' (untried.filter (·.suits (s'.walk goal'))))

theorem Narrower.later (narrower : Narrower vars η θ s s' ledger ledger') {next next' : Ledger}
    (keeps : ledger.Keeps next) (attempts : next'.attempts ≤ next.attempts) :
    Narrower vars η θ s s' next next' :=
  { narrower with
    all := keeps.all narrower.all
    query := fun x asked => (narrower.query x asked).later keeps
    attempts }

/-- The solution of the special query gives the values of the variables what the general solution
gives the variables, after some replacement of what that leaves open. -/
def Solution.InstanceOf (vars : List Symbol) (θ : Symbol → Term) (special general : Solution) :
    Prop :=
  ∃ ρ : Symbol → Term, ∀ x ∈ vars, ∃ t, general.get? x = some t ∧
    (θ x).instantiate special.value = t.instantiate ρ

theorem Narrower.instanceOf (narrower : Narrower vars η θ s s' ledger ledger')
    (shown : ∀ x ∈ vars, ∀ y ∈ (θ x).occurrences, y ∈ vars') :
    (s'.answer vars').InstanceOf vars θ (s.answer vars) := by
  refine ⟨η, fun x asked => ⟨s.value x, s.value_answer asked, ?_⟩⟩
  rw [s'.instantiate_value_answer (shown x asked), (narrower.query x asked).resolve,
    Bindings.resolve_var]

/-- Where the special search resolves its goal with a clause, the general one does so too, and the
special one still stands where the general one stands. -/
theorem Narrower.unify (narrower : Narrower vars η θ s s' ledger ledger')
    (special : Specializes ledger η s s' goal goal') {rest rest' : List Term}
    (waiting : List.Forall₂ (Specializes ledger η s s') rest rest') {clause : Clause}
    (success' : (s'.unify goal' (ledger'.variant clause).head).conflict = none) :
    let next := (s.unify goal (ledger.variant clause).head).bindings
    let next' := (s'.unify goal' (ledger'.variant clause).head).bindings
    (s.unify goal (ledger.variant clause).head).conflict = none ∧
      ∃ η', Narrower vars η' θ next next' (ledger.next clause) (ledger'.next clause) ∧
        NarrowerTask (ledger.next clause) η' next next'
          (.solve ((ledger.variant clause).body ++ rest))
          (.solve ((ledger'.variant clause).body ++ rest')) := by
  have keeps := ledger.keeps_next clause
  have growth := Bindings.unify_grows NameSupply.Covers.arg (keeps.covers special.covers)
    (ledger.covers_head clause) (keeps.all narrower.all)
  obtain ⟨success, η', kept, body⟩ :=
    special.unify narrower.acyclic narrower.acyclic' narrower.all success'
  refine ⟨success, η', ?_, .solve (List.rel_append body (waiting.imp kept))⟩
  exact
    { acyclic := growth.acyclic narrower.acyclic
      acyclic' := narrower.acyclic'.bindings_unify goal' (ledger'.variant clause).head
      all := growth.all (keeps.all narrower.all)
      query := fun x asked => kept _ _ (narrower.query x asked)
      attempts := Nat.succ_le_succ narrower.attempts }

/-- Trying the clause makes no difference: the search has the answers that it has without it, after
one attempt more or the same attempts. -/
def TriedInVain (clauses : List Clause) (vars : List Symbol) (s : Bindings) (ledger : Ledger)
    (goal : Term) (rest : List Term) (clause : Clause) (untried : List Clause) : Prop :=
  ∃ next, next.attempts ≤ ledger.attempts + 1 ∧ ∀ answers last,
    Explored clauses vars (.attempt goal rest (untried.filter (·.suits (s.walk goal)))) s next
      answers last →
    Explored clauses vars (.attempt goal rest ((clause :: untried).filter
      (·.suits (s.walk goal)))) s ledger answers last

/-- Either a clause is offered and resolves the goal, or it is tried in vain, if at all. -/
theorem resolved_or_vain (clauses : List Clause) (vars : List Symbol) (s : Bindings)
    (ledger : Ledger) (goal : Term) (rest : List Term) (clause : Clause) (untried : List Clause) :
    (clause.suits (s.walk goal) = true ∧
        (s.unify goal (ledger.variant clause).head).conflict = none) ∨
      TriedInVain clauses vars s ledger goal rest clause untried := by
  unfold TriedInVain
  cases suits : clause.suits (s.walk goal) with
  | false =>
    rw [List.filter_cons_of_neg (by simp [suits])]
    exact .inr ⟨ledger, Nat.le_succ _, fun _ _ explored => explored⟩
  | true =>
    rw [List.filter_cons_of_pos suits]
    cases outcome : (s.unify goal (ledger.variant clause).head).conflict with
    | none => exact .inl ⟨rfl, rfl⟩
    | some conflict =>
      exact .inr ⟨ledger.next clause, Nat.le_refl _, fun _ _ explored => .failed outcome explored⟩

/-- The special search has explored its search tree. It has made no more attempts than the general
one has in the end, and its answers are instances of some of the general ones, in their order. -/
def ExploredWithin (clauses : List Clause) (vars vars' : List Symbol) (θ : Symbol → Term)
    (task' : Task) (s' : Bindings) (ledger' : Ledger) (answers : List (Solution × Nat))
    (last : Ledger) : Prop :=
  ∃ answers' last' chosen, Explored clauses vars' task' s' ledger' answers' last' ∧
    last'.attempts ≤ last.attempts ∧ chosen.Sublist answers ∧
    List.Forall₂ (fun special general => special.1.InstanceOf vars θ general.1) answers' chosen

/-- Wherever a special search stands where the general one stands, it explores its search tree
within that of the task. -/
def Specialized (clauses : List Clause) (vars vars' : List Symbol) (θ : Symbol → Term) (task : Task)
    (s : Bindings) (ledger : Ledger) (answers : List (Solution × Nat)) (last : Ledger) : Prop :=
  ∀ {η s' ledger' task'}, Narrower vars η θ s s' ledger ledger' →
    NarrowerTask ledger η s s' task task' →
    ExploredWithin clauses vars vars' θ task' s' ledger' answers last

section Clause

variable {middle last : Ledger} {rest rest' : List Term} {clause : Clause} {untried : List Clause}
  {early later : List (Solution × Nat)}

theorem NarrowerTask.attempt_later (special : Specializes ledger η s s' goal goal')
    (waiting : List.Forall₂ (Specializes ledger η s s') rest rest') (keeps : ledger.Keeps middle)
    (untried : List Clause) :
    NarrowerTask middle η s s' (.attempt goal rest untried)
      (.attempt goal' rest' (untried.filter (·.suits (s'.walk goal')))) :=
  .attempt untried (special.later keeps) (waiting.imp fun _ _ special => special.later keeps)

/-- A clause that the special search tries in vain, if at all, is passed over. -/
theorem Specialized.pass (early : List (Solution × Nat))
    (specialized : Specialized clauses vars vars' θ (.attempt goal rest untried) s middle later
      last)
    (keeps : ledger.Keeps middle) (attempted : ledger.attempts + 1 ≤ middle.attempts)
    (narrower : Narrower vars η θ s s' ledger ledger')
    (special : Specializes ledger η s s' goal goal')
    (waiting : List.Forall₂ (Specializes ledger η s s') rest rest')
    (inVain : TriedInVain clauses vars' s' ledger' goal' rest' clause untried) :
    ExploredWithin clauses vars vars' θ (.attempt goal' rest' ((clause :: untried).filter
      (·.suits (s'.walk goal')))) s' ledger' (early ++ later) last := by
  obtain ⟨next', atMost, vain⟩ := inVain
  have fewer : next'.attempts ≤ middle.attempts := by
    have before := narrower.attempts
    omega
  obtain ⟨answers', last', chosen, explored', le, sublist, instances⟩ :=
    specialized (narrower.later keeps fewer) (.attempt_later special waiting keeps untried)
  exact ⟨answers', last', chosen, vain _ _ explored', le,
    sublist.trans (List.sublist_append_right _ _), instances⟩

/-- A clause that fails in the general search is tried in vain in the special one, if at all. -/
theorem specialized_of_conflict {conflict : Conflict}
    (outcome : (s.unify goal (ledger.variant clause).head).conflict = some conflict)
    (others : Specialized clauses vars vars' θ (.attempt goal rest untried) s (ledger.next clause)
      later last) :
    Specialized clauses vars vars' θ (.attempt goal rest (clause :: untried)) s ledger later
      last := by
  intro η s' ledger' task' narrower tasks
  cases tasks with
  | @attempt _ goal' _ rest' _ special waiting =>
    rcases resolved_or_vain clauses vars' s' ledger' goal' rest' clause untried with
      ⟨-, success⟩ | inVain
    · -- The general goal would have unified with the head, too.
      have general := (narrower.unify special waiting success).1
      rw [outcome] at general
      contradiction
    · exact others.pass [] (ledger.keeps_next clause) (Nat.le_refl _) narrower special waiting
        inVain

/-- A clause that resolves the general goal is tried in vain in the special search, or it resolves
the special goal, too. Then both come back from the body and try the other clauses. -/
theorem specialized_of_success
    (explored : Explored clauses vars (.solve ((ledger.variant clause).body ++ rest))
      (s.unify goal (ledger.variant clause).head).bindings (ledger.next clause) early middle)
    (body : Specialized clauses vars vars' θ (.solve ((ledger.variant clause).body ++ rest))
      (s.unify goal (ledger.variant clause).head).bindings (ledger.next clause) early middle)
    (others : Specialized clauses vars vars' θ (.attempt goal rest untried) s middle later last) :
    Specialized clauses vars vars' θ (.attempt goal rest (clause :: untried)) s ledger
      (early ++ later) last := by
  intro η s' ledger' task' narrower tasks
  have keeps : ledger.Keeps middle := (ledger.keeps_next clause).trans explored.keeps
  cases tasks with
  | @attempt _ goal' _ rest' _ special waiting =>
    rcases resolved_or_vain clauses vars' s' ledger' goal' rest' clause untried with
      ⟨suits, success⟩ | inVain
    · obtain ⟨-, η', narrowerBody, tasksBody⟩ := narrower.unify special waiting success
      obtain ⟨early', middle', chosenEarly, explored', leBody, sublistEarly, instancesEarly⟩ :=
        body narrowerBody tasksBody
      obtain ⟨later', last', chosenLater, others', le, sublistLater, instancesLater⟩ :=
        others (narrower.later keeps leBody) (.attempt_later special waiting keeps untried)
      rw [List.filter_cons_of_pos suits]
      exact ⟨early' ++ later', last', chosenEarly ++ chosenLater,
        .resolved success explored' others', le, sublistEarly.append sublistLater,
        List.rel_append instancesEarly instancesLater⟩
    · exact others.pass early keeps explored.attempts_le narrower special waiting inVain

end Clause

/-- If the general search has explored its search tree then so does the special one, after no more
attempts, and its answers are instances of some of the general answers, in their order. -/
theorem Explored.specialize {task : Task} {last : Ledger} {answers : List (Solution × Nat)}
    (explored : Explored clauses vars task s ledger answers last)
    (shown : ∀ x ∈ vars, ∀ y ∈ (θ x).occurrences, y ∈ vars') :
    Specialized clauses vars vars' θ task s ledger answers last := by
  induction explored with
  | solved s ledger =>
    intro η s' ledger' task' narrower tasks
    cases tasks with
    | solve goals =>
      cases goals
      exact ⟨_, _, _, .solved s' ledger', narrower.attempts, .refl _,
        .cons (narrower.instanceOf shown) .nil⟩
  | selected _ ih =>
    intro η s' ledger' task' narrower tasks
    cases tasks with
    | solve goals =>
      cases goals with
      | cons special waiting =>
        obtain ⟨answers', last', chosen, explored', related⟩ :=
          ih narrower (.attempt _ special waiting)
        rw [special.filter_suits narrower.acyclic narrower.acyclic'] at explored'
        exact ⟨answers', last', chosen, .selected explored', related⟩
  | exhausted goal rest s ledger =>
    intro η s' ledger' task' narrower tasks
    cases tasks with
    | attempt _ special waiting =>
      exact ⟨_, _, _, .exhausted _ _ s' ledger', narrower.attempts, .refl _, .nil⟩
  | failed outcome _ others => exact specialized_of_conflict outcome others
  | resolved _ explored _ body others => exact specialized_of_success explored body others

/-! ## Queries -/

/-- If a query without limits ends, then it ends too when its variables are given values beforehand,
after no more attempts, and its solutions correspond to some of the solutions of the general query,
in their order, of which they are instances. -/
theorem ended_instantiate {goals : List Term} {answers : List (Solution × Nat)} {attempts : Nat}
    (ended : Ended clauses goals answers attempts) (θ : Symbol → Term) :
    ∃ answers' attempts' chosen, Ended clauses (goals.map (Term.instantiate θ)) answers' attempts' ∧
      attempts' ≤ attempts ∧ chosen.Sublist answers ∧
      List.Forall₂ (fun special general => special.1.InstanceOf (Term.varsAll goals) θ general.1)
        answers' chosen := by
  obtain ⟨last, rfl, explored⟩ := ended_iff.1 ended
  have shown : ∀ x ∈ Term.varsAll goals, ∀ y ∈ (θ x).occurrences,
      y ∈ Term.varsAll (goals.map (Term.instantiate θ)) := by
    intro x asked y occurs
    exact Term.mem_varsAll_map_instantiate.2 ⟨x, asked, occurs⟩
  have special {t : Term} (covers : ∀ x ∈ t.occurrences, x ∈ Term.varsAll goals) :
      Specializes (.start (Term.varsAll goals)) θ .empty .empty t (t.instantiate θ) :=
    ⟨fun x occurs => .inl (covers x occurs), by simp⟩
  have narrower : Narrower (Term.varsAll goals) θ θ .empty .empty (.start (Term.varsAll goals))
      (.start (Term.varsAll (goals.map (Term.instantiate θ)))) :=
    { acyclic := Bindings.acyclic_empty
      acyclic' := Bindings.acyclic_empty
      all := Bindings.all_empty _
      query := fun x asked => special (t := .var x) (by simpa using asked)
      attempts := Nat.le_refl 0 }
  have same : List.Forall₂ (Specializes (.start (Term.varsAll goals)) θ .empty .empty) goals
      (goals.map (Term.instantiate θ)) := by
    rw [List.forall₂_map_right_iff, List.forall₂_same]
    exact fun goal member => special fun x occurs => Term.mem_varsAll.2 ⟨goal, member, occurs⟩
  obtain ⟨answers', last', chosen, explored', le, sublist, instances⟩ :=
    explored.specialize shown narrower (.solve same)
  exact ⟨answers', _, chosen, ended_iff.2 ⟨last', rfl, explored'⟩, le, sublist, instances⟩

/-- The goal `X` is offered every clause and has three solutions. With `p(f(Z))` for `X` only the
clauses of `p` are offered, and the last of the solutions is left. -/
theorem ended_instantiate_p :
    let clauses : List Clause := [.ofParts "p" [.atom "a"] [], .ofParts "q" [.atom "b"] [],
      .ofParts "p" [.app "f" [.var "Y"]] []]
    let answers : List (Solution × Nat) :=
      [(⟨[("X", .app "p" [.atom "a"])]⟩, 1), (⟨[("X", .app "q" [.atom "b"])]⟩, 2),
        (⟨[("X", .app "p" [.app "f" [.var "Y#0"]])]⟩, 3)]
    let θ : Symbol → Term := fun _ => .app "p" [.app "f" [.var "Z"]]
    let goals' : List Term := [.app "p" [.app "f" [.var "Z"]]]
    let answers' : List (Solution × Nat) := [(⟨[("Z", .var "Y#0")]⟩, 2)]
    Ended clauses [.var "X"] answers 3 ∧ [Term.var "X"].map (Term.instantiate θ) = goals' ∧
      Ended clauses goals' answers' 2 ∧
      ∃ chosen, chosen.Sublist answers ∧
        List.Forall₂ (fun special general => special.1.InstanceOf ["X"] θ general.1) answers'
          chosen := by
  intro clauses answers θ goals' answers'
  have ended : Ended clauses [.var "X"] answers 3 :=
    Search.calls_iff.2 ⟨12, by decide +kernel⟩
  have ended' : Ended clauses goals' answers' 2 := Search.calls_iff.2 ⟨12, by decide +kernel⟩
  have goals : [Term.var "X"].map (Term.instantiate θ) = goals' := by decide +kernel
  have vars : Term.varsAll [.var "X"] = ["X"] := by decide +kernel
  obtain ⟨_, _, chosen, special, -, sublist, instances⟩ := ended_instantiate ended θ
  rw [goals] at special
  obtain ⟨rfl, rfl⟩ := special.unique ended'
  rw [vars] at instances
  exact ⟨ended, goals, ended', chosen, sublist, instances⟩

end HornLogic
