import HornLogic.Proofs.Search.SideBySide

/-!
# The order of clauses

The clauses of a knowledge base are tried in their order, so the solutions come in this order, too.
Otherwise the order of clauses does not matter. If it is changed, a query that has ended ends again,
with the same number of attempts and the same solutions. Each solution has other fresh names, for
the clauses are renamed in another order (`ended_perm`).

The proof cuts the search tree below a goal into the parts below its clauses. Such a part has a
number of attempts and some solutions, its `Share`, which do not depend on when the clause is tried,
since the search has the same bindings each time (`Contributes`). So the shares can be put into the
new order and added up (`explored_of_contributes`). That a clause contributes its share in the new
order is known by induction, because the goals that are left when the clause has resolved the goal
are solved in the new order as well (`Explored.repeated`).
-/

namespace HornLogic

variable {clauses clauses' : List Clause} {vars : List Symbol} {dict : Dictionary}
  {s s' : Bindings} {ledger ledger' next middle last : Ledger} {goal goal' : Term}
  {rest rest' : List Term} {clause : Clause} {untried : List Clause}

/-- The second solution is the first one with other fresh variables. -/
def Solution.Refreshed (vars : List Symbol) (answer answer' : Solution) : Prop :=
  ∃ π : Equiv.Perm Symbol, (∀ x ∈ vars, π x = x) ∧ answer' = answer.rename π

/-- What the search tree below a clause has. -/
structure Share where
  answers : List (Solution × Nat)
  attempts : Nat

/-- Wherever a search stands at the same place, trying the clause has this share. -/
def Contributes (clauses' : List Clause) (vars : List Symbol) (goal : Term) (rest : List Term)
    (s : Bindings) (ledger : Ledger) (clause : Clause) (share : Share) : Prop :=
  ∀ {dict s' ledger' goal' rest'}, Alongside vars dict s s' ledger ledger' →
    Live dict s s' ledger' goal goal' → List.Forall₂ (Live dict s s' ledger') rest rest' →
    ∃ answers' last',
      Explored clauses' vars (.attempt goal' rest' [clause]) s' ledger' answers' last' ∧
      last'.attempts = ledger'.attempts + share.attempts ∧
      SameSolutions (Solution.Refreshed vars) share.answers answers'

/-- Goals that were solved can be solved again with the clauses in their new order, and attempts
that were made have shares. -/
def Repeated (clauses' : List Clause) (vars : List Symbol) (s : Bindings) (ledger : Ledger)
    (answers : List (Solution × Nat)) (last : Ledger) : Task → Prop
  | .solve goals => ∀ {dict s' ledger' goals'}, Alongside vars dict s s' ledger ledger' →
      List.Forall₂ (Live dict s s' ledger') goals goals' →
      ∃ answers' last', Explored clauses' vars (.solve goals') s' ledger' answers' last' ∧
        last'.attempts + ledger.attempts = ledger'.attempts + last.attempts ∧
        SameSolutions (Solution.Refreshed vars) answers answers'
  | .attempt goal rest untried => ∃ shares,
      List.Forall₂ (Contributes clauses' vars goal rest s ledger) untried shares ∧
      answers = shares.flatMap Share.answers ∧
      last.attempts = ledger.attempts + (shares.map Share.attempts).sum

/-! ## Shares of clauses -/

theorem Contributes.later {share : Share}
    (contributes : Contributes clauses' vars goal rest s next clause share)
    (keeps : ledger.Keeps next) : Contributes clauses' vars goal rest s ledger clause share :=
  fun alongside live lives =>
    contributes (alongside.later keeps (.refl _)) live lives

/-- A clause that does not resolve the goal contributes an attempt. -/
theorem contributes_of_conflict {conflict : Conflict}
    (outcome : (s.unify goal (ledger.variant clause).head).conflict = some conflict) :
    Contributes clauses' vars goal rest s ledger clause { answers := [], attempts := 1 } := by
  intro dict s' ledger' goal' rest' alongside live lives
  obtain ⟨conflict', outcome'⟩ := alongside.exists_conflict live outcome
  exact ⟨[], _, .failed outcome' (.exhausted _ _ _ _), rfl, .of_forall₂ .nil⟩

/-- A clause that resolves the goal contributes what the goals that are left have. -/
theorem contributes_of_success {early : List (Solution × Nat)}
    (outcome : (s.unify goal (ledger.variant clause).head).conflict = none)
    (repeated : Repeated clauses' vars (s.unify goal (ledger.variant clause).head).bindings
      (ledger.next clause) early middle (.solve ((ledger.variant clause).body ++ rest)))
    {attempts : Nat} (counted : middle.attempts = ledger.attempts + attempts) :
    Contributes clauses' vars goal rest s ledger clause { answers := early, attempts } := by
  intro dict s' ledger' goal' rest' alongside live lives
  obtain ⟨success_iff, resolves⟩ := alongside.attempt live lives clause
  obtain ⟨more, -, alongsideBody, livesBody⟩ := resolves outcome
  obtain ⟨early', middle', body', counted', same⟩ := repeated alongsideBody livesBody
  refine ⟨early' ++ [], middle', .resolved (success_iff.1 outcome) body' (.exhausted _ _ _ _), ?_,
    by rwa [List.append_nil]⟩
  have next : middle'.attempts + (ledger.attempts + 1) = ledger'.attempts + 1 + middle.attempts :=
    counted'
  show middle'.attempts = ledger'.attempts + attempts
  omega

/-- Trying one clause and then the others is to try them all. -/
theorem Explored.cons {early later : List (Solution × Nat)}
    (first : Explored clauses vars (.attempt goal rest [clause]) s ledger early middle)
    (others : Explored clauses vars (.attempt goal rest untried) s middle later last) :
    Explored clauses vars (.attempt goal rest (clause :: untried)) s ledger (early ++ later)
      last := by
  cases first with
  | failed outcome none =>
    cases none
    exact .failed outcome others
  | resolved outcome body none =>
    cases none
    rw [List.append_nil]
    exact .resolved outcome body others

/-- In a search that stands at the same place the attempts have the shares of the clauses. -/
theorem explored_of_contributes {shares : List Share}
    (contributed : List.Forall₂ (Contributes clauses' vars goal rest s ledger) untried shares)
    (alongside : Alongside vars dict s s' ledger ledger') (live : Live dict s s' ledger' goal goal')
    (lives : List.Forall₂ (Live dict s s' ledger') rest rest') :
    ∃ answers' last',
      Explored clauses' vars (.attempt goal' rest' untried) s' ledger' answers' last' ∧
      last'.attempts = ledger'.attempts + (shares.map Share.attempts).sum ∧
      SameSolutions (Solution.Refreshed vars) (shares.flatMap Share.answers) answers' := by
  induction contributed generalizing ledger' with
  | nil => exact ⟨[], ledger', .exhausted _ _ _ _, rfl, .of_forall₂ .nil⟩
  | @cons clause share untried shares contributes _ ih =>
    obtain ⟨early', middle', first, counted, same⟩ := contributes alongside live lives
    have keeps' := first.keeps
    obtain ⟨later', last', others, counted', same'⟩ :=
      ih (alongside.later (.refl _) keeps') (live.later keeps')
        (lives.imp fun _ _ live => live.later keeps')
    refine ⟨early' ++ later', last', first.cons others, ?_, same.append same'⟩
    rw [List.map_cons, List.sum_cons]
    omega

/-! ## The search tree -/

/-- A search that has ended can be repeated with the clauses in another order. -/
theorem Explored.repeated (perm : clauses.Perm clauses') {task : Task}
    {answers : List (Solution × Nat)}
    (explored : Explored clauses vars task s ledger answers last) :
    Repeated clauses' vars s ledger answers last task := by
  induction explored with
  | solved s ledger =>
    intro dict s' ledger' goals' alongside lives
    cases lives
    have translates := alongside.translates_answer
    refine ⟨_, ledger', .solved s' ledger', rfl, .of_forall₂ (.cons ?_ .nil)⟩
    exact ⟨dict.perm, fun x asked => alongside.fixed asked, translates.eq_rename⟩
  | @selected goal rest s ledger last answers _ ih =>
    intro dict s' ledger' goals' alongside lives
    cases lives with
    | @cons _ goal' _ rest' live lives =>
      obtain ⟨shares, contributed, rfl, counted⟩ := ih
      have offered := live.filter_suits_eq alongside.acyclic alongside.acyclic' clauses'
      obtain ⟨arranged, contributed', reordered⟩ :=
        List.perm_comp_forall₂ (perm.filter (·.suits (s.walk goal))).symm contributed
      obtain ⟨answers', last', explored', counted', same⟩ :=
        explored_of_contributes contributed' alongside live lives
      refine ⟨answers', last', .selected (offered ▸ explored'), ?_,
        .of_perm (reordered.symm.flatMap_right _) same⟩
      have sums := (reordered.map Share.attempts).sum_eq
      omega
  | exhausted goal rest s ledger => exact ⟨[], .nil, rfl, rfl⟩
  | @failed goal rest s clause untried conflict ledger last answers outcome _ ih =>
    obtain ⟨shares, contributed, rfl, counted⟩ := ih
    refine ⟨{ answers := [], attempts := 1 } :: shares, .cons (contributes_of_conflict outcome) ?_,
      rfl, ?_⟩
    · exact contributed.imp fun _ _ contributes => contributes.later (ledger.keeps_next clause)
    · have next : last.attempts = ledger.attempts + 1 + (shares.map Share.attempts).sum := counted
      rw [List.map_cons, List.sum_cons]
      show last.attempts = ledger.attempts + (1 + (shares.map Share.attempts).sum)
      omega
  | @resolved goal rest s clause untried ledger middle last early later outcome body _ ihBody
      ihUntried =>
    obtain ⟨shares, contributed, rfl, counted⟩ := ihUntried
    obtain ⟨attempts, spent⟩ : ∃ attempts, middle.attempts = ledger.attempts + attempts := by
      have le : ledger.attempts + 1 ≤ middle.attempts := body.attempts_le
      exact ⟨middle.attempts - ledger.attempts, by omega⟩
    refine ⟨{ answers := early, attempts } :: shares,
      .cons (contributes_of_success outcome ihBody spent) ?_, rfl, ?_⟩
    · have keeps : ledger.Keeps middle := (ledger.keeps_next clause).trans body.keeps
      exact contributed.imp fun _ _ contributes => contributes.later keeps
    · rw [List.map_cons, List.sum_cons]
      show last.attempts = ledger.attempts + (attempts + (shares.map Share.attempts).sum)
      omega

/-- If a query ends, it ends with the clauses in any other order. It makes the same number of
attempts and has the same solutions, each as often as before, up to the names of fresh variables. -/
theorem ended_perm {goals : List Term} {answers : List (Solution × Nat)} {attempts : Nat}
    (perm : clauses.Perm clauses') (ended : Ended clauses goals answers attempts) :
    ∃ answers', Ended clauses' goals answers' attempts ∧
      SameSolutions (Solution.Refreshed (Term.varsAll goals)) answers answers' := by
  obtain ⟨last, rfl, explored⟩ := ended_iff.1 ended
  obtain ⟨answers', last', explored', counted, same⟩ :=
    explored.repeated perm (.start _) (Alongside.live_goals goals)
  refine ⟨answers', ended_iff.2 ⟨last', ?_, explored'⟩, same⟩
  have atFirst : (Ledger.start (Term.varsAll goals)).attempts = 0 := rfl
  omega

/-- With the clauses of `q` exchanged and those of `p` too, the four solutions come in another
order, and `X = f(Z#3)` comes under another name. -/
theorem ended_perm_p :
    let clauses : List Clause := [.ofParts "p" [.atom "d"] [.app "q" [.var "W"]],
      .ofParts "q" [.var "Z"] [], .ofParts "p" [.app "f" [.var "Y"]] [.app "q" [.var "Y"]],
      .ofParts "q" [.atom "c"] []]
    let clauses' : List Clause := [.ofParts "q" [.atom "c"] [],
      .ofParts "p" [.app "f" [.var "Y"]] [.app "q" [.var "Y"]],
      .ofParts "p" [.atom "d"] [.app "q" [.var "W"]], .ofParts "q" [.var "Z"] []]
    let goals : List Term := [.app "p" [.var "X"]]
    let answers : List (Solution × Nat) := [(⟨[("X", .atom "d")]⟩, 2), (⟨[("X", .atom "d")]⟩, 3),
      (⟨[("X", .app "f" [.var "Z#3"])]⟩, 5), (⟨[("X", .app "f" [.atom "c"])]⟩, 6)]
    clauses.Perm clauses' ∧ Ended clauses goals answers 6 ∧
      ∃ answers', Ended clauses' goals answers' 6 ∧
        SameSolutions (Solution.Refreshed (Term.varsAll goals)) answers answers' := by
  intro clauses clauses' goals answers
  have perm : clauses.Perm clauses' := by decide +kernel
  have ended : Ended clauses goals answers 6 := Search.calls_iff.2 ⟨24, by decide +kernel⟩
  exact ⟨perm, ended, ended_perm perm ended⟩

end HornLogic
