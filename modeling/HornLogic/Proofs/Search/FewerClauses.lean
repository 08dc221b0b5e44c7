import HornLogic.Proofs.Search.SideBySide

/-!
# Clauses added to a knowledge base

A clause that is added somewhere among the others only adds to what a search does. It is one more
clause to try for a goal, and if it resolves the goal, one more search tree to explore; afterwards
the search is back where it was, and has only used up some names. So the search over fewer clauses
is still there, in pieces. If the larger one ends, so does the smaller one, with no more attempts,
and its solutions are found again in their order, under other names (`ended_of_sublist`).

The proof goes through the search tree of the larger search. The smaller one goes along with it
(`Alongside`), except where a clause is tried that it does not have; there it waits. What is left of
the search tree in this way is `Thinned`, and a derivation of the larger search is thinned clause by
clause (`Explored.of_sublist`). All solutions are translated by one dictionary, the one that is
there in the end, since the dictionary grows with each clause that both of them try.
-/

namespace HornLogic

variable {clauses fewer : List Clause} {vars : List Symbol} {dict more : Dictionary}
  {s s' : Bindings} {ledger ledger' : Ledger}

/-- The second search is to do what the first one is, with some of the clauses left out. -/
inductive FewerToTry (dict : Dictionary) (s s' : Bindings) (ledger' : Ledger) : Task → Task → Prop
  where
  | solve {goals goals' : List Term} : List.Forall₂ (Live dict s s' ledger') goals goals' →
      FewerToTry dict s s' ledger' (.solve goals) (.solve goals')
  | attempt {goal goal' : Term} {rest rest' : List Term} {untried untried' : List Clause} :
      untried'.Sublist untried → Live dict s s' ledger' goal goal' →
      List.Forall₂ (Live dict s s' ledger') rest rest' →
      FewerToTry dict s s' ledger' (.attempt goal rest untried) (.attempt goal' rest' untried')

/-- The solutions `answers'` are some of the other ones, in order and under other names. -/
def FoundAmong (dict : Dictionary) (answers answers' : List (Solution × Nat)) : Prop :=
  ∃ chosen, List.Sublist chosen answers ∧
    List.Forall₂ (fun found found' => dict.Translates found.1 found'.1) chosen answers'

namespace FoundAmong

variable {answers answers' early early' later later' : List (Solution × Nat)}

theorem extend (among : FoundAmong dict answers answers') (extension : more.Extends dict) :
    FoundAmong more answers answers' := by
  obtain ⟨chosen, sublist, translated⟩ := among
  exact ⟨chosen, sublist, translated.imp fun _ _ translates => translates.extend extension⟩

theorem append (first : FoundAmong dict early early') (second : FoundAmong dict later later') :
    FoundAmong dict (early ++ later) (early' ++ later') := by
  obtain ⟨chosen, sublist, translated⟩ := first
  obtain ⟨chosen', sublist', translated'⟩ := second
  exact ⟨chosen ++ chosen', sublist.append sublist', List.rel_append translated translated'⟩

/-- Solutions that only the larger search has are passed over. -/
theorem pass (early : List (Solution × Nat)) (among : FoundAmong dict later answers') :
    FoundAmong dict (early ++ later) answers' := by
  obtain ⟨chosen, sublist, translated⟩ := among
  exact ⟨chosen, sublist.trans (List.sublist_append_right early later), translated⟩

/-- One permutation renames all solutions. -/
theorem map_sublist (among : FoundAmong dict answers answers') :
    List.Sublist (answers'.map Prod.fst) (answers.map fun found => found.1.rename dict.perm) := by
  obtain ⟨chosen, sublist, translated⟩ := among
  have same : (chosen.map fun found => found.1.rename dict.perm) = answers'.map Prod.fst := by
    rw [← List.forall₂_eq_eq_eq, List.forall₂_map_left_iff, List.forall₂_map_right_iff]
    exact translated.imp fun _ _ translates => translates.eq_rename.symm
  rw [← same]
  exact sublist.map _

end FoundAmong

/-- The search over fewer clauses has explored its search tree. It has made no more attempts than
the other one between its ledgers, and has found some of the answers. -/
def ExploredAmong (fewer : List Clause) (vars : List Symbol) (dict : Dictionary) (task' : Task)
    (s' : Bindings) (ledger ledger' : Ledger) (answers : List (Solution × Nat)) (last : Ledger) :
    Prop :=
  ∃ more answers' last', Explored fewer vars task' s' ledger' answers' last' ∧
    more.Extends dict ∧ more.Within last.names last'.names ∧
    last'.attempts + ledger.attempts ≤ ledger'.attempts + last.attempts ∧
    FoundAmong more answers answers'

/-- Wherever a search over fewer clauses stands alongside, with some of the same to do, it explores
what there is for it of the search tree below the task. -/
def Thinned (fewer : List Clause) (vars : List Symbol) (task : Task) (s : Bindings)
    (ledger : Ledger) (answers : List (Solution × Nat)) (last : Ledger) : Prop :=
  ∀ {dict s' ledger' task'}, Alongside vars dict s s' ledger ledger' →
    FewerToTry dict s s' ledger' task task' →
    ExploredAmong fewer vars dict task' s' ledger ledger' answers last

/-! ## One clause -/

section Clause

variable {middle last : Ledger} {goal : Term} {rest : List Term} {clause : Clause}
  {untried : List Clause} {early later : List (Solution × Nat)}

/-- While the larger search tries a clause that only it has, the other one waits. -/
theorem Thinned.left_out {task' : Task} (early : List (Solution × Nat))
    (thinned : Thinned fewer vars (.attempt goal rest untried) s middle later last)
    (keeps : ledger.Keeps middle) (spent : ledger.attempts ≤ middle.attempts)
    (alongside : Alongside vars dict s s' ledger ledger')
    (tasks : FewerToTry dict s s' ledger' (.attempt goal rest untried) task') :
    ExploredAmong fewer vars dict task' s' ledger ledger' (early ++ later) last := by
  obtain ⟨more, answers', last', explored', extension, within, attempts, found⟩ :=
    thinned (alongside.later keeps (.refl _)) tasks
  exact ⟨more, answers', last', explored', extension, within, by omega, found.pass early⟩

/-- A clause that fails, fails in both searches if both have it. -/
theorem thinned_of_conflict {conflict : Conflict}
    (outcome : (s.unify goal (ledger.variant clause).head).conflict = some conflict)
    (others : Thinned fewer vars (.attempt goal rest untried) s (ledger.next clause) later last) :
    Thinned fewer vars (.attempt goal rest (clause :: untried)) s ledger later last := by
  intro dict s' ledger' task' alongside tasks
  have keeps := ledger.keeps_next clause
  cases tasks with
  | @attempt _ goal' _ rest' _ untried' sublist live lives =>
    cases sublist with
    | cons _ sublist =>
      exact others.left_out [] keeps (Nat.le_succ _) alongside (.attempt sublist live lives)
    | @cons_cons untried' _ _ sublist =>
      have keeps' := ledger'.keeps_next clause
      obtain ⟨conflict', outcome'⟩ := alongside.exists_conflict live outcome
      obtain ⟨more, answers', last', explored', extension, within, attempts, found⟩ :=
        others (alongside.later keeps keeps')
          (.attempt sublist (live.later keeps') (lives.imp fun _ _ live => live.later keeps'))
      refine ⟨more, answers', last', .failed outcome' explored', extension, within, ?_, found⟩
      have counted : last'.attempts + (ledger.attempts + 1) ≤
          ledger'.attempts + 1 + last.attempts := attempts
      omega

/-- A clause that resolves the goal does so in both searches if both have it. They come back from
the body at their bindings, with all names that it has brought, and go on with the other clauses. -/
theorem thinned_of_success
    (outcome : (s.unify goal (ledger.variant clause).head).conflict = none)
    (explored : Explored clauses vars (.solve ((ledger.variant clause).body ++ rest))
      (s.unify goal (ledger.variant clause).head).bindings (ledger.next clause) early middle)
    (body : Thinned fewer vars (.solve ((ledger.variant clause).body ++ rest))
      (s.unify goal (ledger.variant clause).head).bindings (ledger.next clause) early middle)
    (others : Thinned fewer vars (.attempt goal rest untried) s middle later last) :
    Thinned fewer vars (.attempt goal rest (clause :: untried)) s ledger (early ++ later) last := by
  intro dict s' ledger' task' alongside tasks
  cases tasks with
  | @attempt _ goal' _ rest' _ untried' sublist live lives =>
    cases sublist with
    | cons _ sublist =>
      exact others.left_out early ((ledger.keeps_next clause).trans explored.keeps)
        (Nat.le_of_succ_le explored.attempts_le) alongside (.attempt sublist live lives)
    | @cons_cons untried' _ _ sublist =>
      obtain ⟨success_iff, resolves⟩ := alongside.attempt live lives clause
      obtain ⟨dictBody, extensionBody, alongsideBody, livesBody⟩ := resolves outcome
      obtain ⟨more, early', middle', explored', extension, within, attempts, foundEarly⟩ :=
        body alongsideBody (.solve livesBody)
      have keeps' : ledger'.Keeps middle' := (ledger'.keeps_next clause).trans explored'.keeps
      have grown := extension.trans extensionBody
      have kept {t t' : Term} (live : Live dict s s' ledger' t t') : Live more s s' middle' t t' :=
        (live.extend alongside.all grown).later keeps'
      obtain ⟨most, later', last', others', extension', within', attempts', foundLater⟩ :=
        others (alongside.extend grown within keeps')
          (.attempt sublist (kept live) (lives.imp fun _ _ live => kept live))
      refine ⟨most, early' ++ later', last', .resolved (success_iff.1 outcome) explored' others',
        extension'.trans grown, within', ?_, (foundEarly.extend extension').append foundLater⟩
      have counted : middle'.attempts + (ledger.attempts + 1) ≤
          ledger'.attempts + 1 + middle.attempts := attempts
      omega

end Clause

/-! ## The search tree -/

/-- A search over some of the clauses explores its search tree if the one over all of them does. -/
theorem Explored.of_sublist (fewerClauses : fewer.Sublist clauses) {task : Task} {last : Ledger}
    {answers : List (Solution × Nat)}
    (explored : Explored clauses vars task s ledger answers last) :
    Thinned fewer vars task s ledger answers last := by
  induction explored with
  | solved s ledger =>
    intro dict s' ledger' task' alongside tasks
    cases tasks with
    | solve lives =>
      cases lives
      exact ⟨dict, _, ledger', .solved s' ledger', .refl dict, alongside.within, Nat.le_refl _,
        _, .refl _, .cons alongside.translates_answer .nil⟩
  | @selected goal rest s ledger last answers explored ih =>
    intro dict s' ledger' task' alongside tasks
    cases tasks with
    | solve lives =>
      cases lives with
      | @cons _ goal' _ rest' live lives =>
        obtain ⟨more, answers', last', explored', found⟩ :=
          ih alongside (.attempt (fewerClauses.filter _) live lives)
        refine ⟨more, answers', last', .selected ?_, found⟩
        rw [live.filter_suits_eq alongside.acyclic alongside.acyclic']
        exact explored'
  | exhausted goal rest s ledger =>
    intro dict s' ledger' task' alongside tasks
    cases tasks with
    | attempt sublist live lives =>
      obtain rfl := List.sublist_nil.1 sublist
      exact ⟨dict, [], ledger', .exhausted _ _ s' ledger', .refl dict, alongside.within,
        Nat.le_refl _, [], .refl _, .nil⟩
  | failed outcome _ others => exact thinned_of_conflict outcome others
  | resolved outcome explored _ body others =>
    exact thinned_of_success outcome explored body others

/-- If a query ends over some clauses, it ends over each subsequence of them, with no more attempts.
Its solutions are a subsequence of those over all clauses, up to the names of the fresh variables;
one renaming, which leaves the variables of the query alone, does for all solutions. -/
theorem ended_of_sublist {goals : List Term} {answers : List (Solution × Nat)} {attempts : Nat}
    (fewerClauses : fewer.Sublist clauses) (ended : Ended clauses goals answers attempts) :
    ∃ answers' attempts', Ended fewer goals answers' attempts' ∧ attempts' ≤ attempts ∧
      ∃ π : Equiv.Perm Symbol, (∀ x ∈ Term.varsAll goals, π x = x) ∧
        List.Sublist (answers'.map Prod.fst) (answers.map fun found => found.1.rename π) := by
  obtain ⟨last, rfl, explored⟩ := ended_iff.1 ended
  obtain ⟨dict, answers', last', explored', extension, -, counted, found⟩ :=
    explored.of_sublist fewerClauses (.start _) (.solve (Alongside.live_goals goals))
  refine ⟨answers', last'.attempts, ended_iff.2 ⟨last', rfl, explored'⟩, ?_, dict.perm, ?_,
    found.map_sublist⟩
  · have atFirst : (Ledger.start (Term.varsAll goals)).attempts = 0 := rfl
    omega
  · intro x asked
    exact extension.2 x asked

/-- A rule for `p(d)` comes before the clauses that were there, and a fact `q(c)` after them. The
solution `X = f(Z#1)` is now the third one of four, and its variable is `Z#3`. -/
theorem ended_of_sublist_p :
    let fewer : List Clause := [.ofParts "q" [.var "Z"] [],
      .ofParts "p" [.app "f" [.var "Y"]] [.app "q" [.var "Y"]]]
    let clauses : List Clause := [.ofParts "p" [.atom "d"] [.app "q" [.var "W"]],
      .ofParts "q" [.var "Z"] [], .ofParts "p" [.app "f" [.var "Y"]] [.app "q" [.var "Y"]],
      .ofParts "q" [.atom "c"] []]
    let goals : List Term := [.app "p" [.var "X"]]
    let answers : List (Solution × Nat) := [(⟨[("X", .atom "d")]⟩, 2), (⟨[("X", .atom "d")]⟩, 3),
      (⟨[("X", .app "f" [.var "Z#3"])]⟩, 5), (⟨[("X", .app "f" [.atom "c"])]⟩, 6)]
    fewer.Sublist clauses ∧ Ended clauses goals answers 6 ∧
      ∃ answers' attempts', Ended fewer goals answers' attempts' ∧ attempts' ≤ 6 ∧
        ∃ π : Equiv.Perm Symbol, (∀ x ∈ Term.varsAll goals, π x = x) ∧
          List.Sublist (answers'.map Prod.fst) (answers.map fun found => found.1.rename π) := by
  intro fewer clauses goals answers
  have fewerClauses : fewer.Sublist clauses :=
    .cons _ (.cons_cons _ (.cons_cons _ (.cons _ .slnil)))
  have ended : Ended clauses goals answers 6 := Search.calls_iff.2 ⟨24, by decide +kernel⟩
  exact ⟨fewerClauses, ended, ended_of_sublist fewerClauses ended⟩

end HornLogic
