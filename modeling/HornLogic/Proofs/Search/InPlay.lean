import HornLogic.Proofs.Bindings.Acyclic
import HornLogic.Proofs.Names.Renaming
import HornLogic.Proofs.Search.Turns
import HornLogic.Proofs.Unification.Growth

/-!
# Variables in play

The variables that a search has to do with stand in the query, in the bindings, in the goals of
choice points and in the goals to be entered next. A turn brings in no others than those of the
clause instance that it makes. So a property of variables that holds of all variables in play, and
of those of the instance, holds of all variables in play after the turn (`InPlay.turn`), and of all
variables that an answer shows (`InPlay.answer`).

The names in use are such a property (`Search.used_turn`, `Search.used_of_variant`).
-/

namespace HornLogic

/-- All variables of the query, of the bindings and of the goals that wait have the property. -/
structure InPlay (P : Symbol → Prop) (search : Search) : Prop where
  query : ∀ x ∈ search.queryVars, P x
  bindings : search.bindings.All fun t => ∀ x ∈ t.occurrences, P x
  stack : ∀ point ∈ search.stack, ∀ t ∈ point.goal :: point.rest, ∀ x ∈ t.occurrences, P x
  entering : ∀ goals depth, search.phase = .enter goals depth →
    ∀ t ∈ goals, ∀ x ∈ t.occurrences, P x

namespace InPlay

variable {P Q : Symbol → Prop} {search : Search}

theorem start {offer : Term → List Clause} {goals : List Term} {limits : Limits}
    (asked : ∀ x ∈ Term.varsAll goals, P x) : InPlay P (.start offer goals limits) where
  query := asked
  bindings := Bindings.all_empty _
  stack _ member := nomatch member
  entering := by
    rintro _ depth ⟨⟩ t member x occurs
    exact asked x (Term.mem_varsAll.2 ⟨t, member, occurs⟩)

theorem imp (implies : ∀ x, P x → Q x) (inPlay : InPlay P search) : InPlay Q search where
  query x asked := implies x (inPlay.query x asked)
  bindings := inPlay.bindings.imp fun _ all x occurs => implies x (all x occurs)
  stack point member t waiting x occurs := implies x (inPlay.stack point member t waiting x occurs)
  entering goals depth phase t member x occurs :=
    implies x (inPlay.entering goals depth phase t member x occurs)

/-- An answer shows nothing but variables in play. -/
theorem answer (inPlay : InPlay P search) :
    ∀ binding ∈ search.answer.bindings, P binding.1 ∧ ∀ x ∈ binding.2.occurrences, P x := by
  intro binding member
  obtain ⟨x, asked, rfl⟩ := List.mem_map.1 member
  have holds := inPlay.query x asked
  rw [Bindings.resolve_var]
  exact ⟨holds, inPlay.bindings.of_mem_valueWithin _ holds⟩

/-- An attempt unifies a goal that waits with the head of the clause instance. -/
theorem attempt (inPlay : InPlay P search) {point : ChoicePoint} {below : List ChoicePoint}
    (stack : search.stack = point :: below) (clause : Clause) (untried : List Clause)
    (made : ∀ x ∈ (search.names.renameClause clause).1.vars, P x) (phase : Phase)
    (entering : ∀ goals depth, phase = .enter goals depth →
      ∀ t ∈ goals, ∀ x ∈ t.occurrences, P x) :
    InPlay P
      { search with
        bindings := (search.unification point clause).bindings
        names := (search.names.renameClause clause).2
        stack := { point with untried } :: below
        phase
        steps := search.steps + 1 } where
  query := inPlay.query
  bindings := by
    have kept := inPlay.bindings.rollback point.mark
    have goal := inPlay.stack point (stack ▸ List.mem_cons_self) _ List.mem_cons_self
    have head (x : Symbol) (occurs : x ∈ (search.names.renameClause clause).1.head.occurrences) :
        P x := made x (Clause.mem_vars_of_mem_head occurs)
    refine (Bindings.unify_grows ?_ goal head kept).all kept
    intro f args all arg member x occurs
    exact all x (Term.mem_occurrences_of_mem_args member occurs)
  stack := by
    intro other member
    rcases List.mem_cons.1 member with rfl | later
    · exact inPlay.stack point (stack ▸ List.mem_cons_self)
    · exact inPlay.stack other (stack ▸ List.mem_cons_of_mem _ later)
  entering := entering

/-- A turn brings no other variables into play than those of the clause instance that it makes. -/
theorem turn (inPlay : InPlay P search)
    (made : ∀ variant ∈ search.variant?, ∀ x ∈ variant.vars, P x) :
    InPlay P search.turn.search := by
  have cases := search.turnCase
  generalize search.turn = turn, search.variant? = made? at cases made
  cases cases with
  | solved => exact { inPlay with entering := nofun }
  | tooDeep => exact { inPlay with stack := nofun, entering := nofun }
  | descended goal rest depth phase =>
    refine { inPlay with stack := ?_, entering := nofun }
    intro point member
    rcases List.mem_cons.1 member with rfl | earlier
    · exact inPlay.entering _ depth phase
    · exact inPlay.stack point earlier
  | exhausted => exact { inPlay with stack := nofun, entering := nofun }
  | popped point below phase stack =>
    exact
      { inPlay with
        bindings := inPlay.bindings.rollback point.mark
        stack := fun other member => inPlay.stack other (stack ▸ List.mem_cons_of_mem _ member)
        entering := nofun }
  | tooMany point =>
    exact
      { inPlay with
        bindings := inPlay.bindings.rollback point.mark
        stack := nofun
        entering := nofun }
  | failed point below clause untried conflict phase stack =>
    exact inPlay.attempt stack clause untried (made _ rfl) .resume nofun
  | resolved point below clause untried phase stack =>
    -- The goals that are entered next come from the clause instance and from the choice point.
    refine inPlay.attempt stack clause untried (made _ rfl) _ ?_
    rintro _ _ ⟨⟩ t waiting x occurs
    rcases List.mem_append.1 waiting with inBody | inRest
    · exact made _ rfl x (Clause.mem_vars_of_mem_body inBody occurs)
    · exact inPlay.stack point (stack ▸ List.mem_cons_self) t (List.mem_cons_of_mem _ inRest) x
        occurs
  | finished => exact inPlay

end InPlay

/-! ## Names in use -/

namespace Search

/-- The supply of names changes only where a clause is renamed. -/
theorem names_turn (search : Search) :
    (search.variant? = none ∧ search.turn.search.names = search.names) ∨
    ∃ clause, search.variant? = some (search.names.renameClause clause).1 ∧
      search.turn.search.names = (search.names.renameClause clause).2 := by
  have cases := search.turnCase
  generalize search.turn = turn, search.variant? = made at cases
  cases cases with
  | failed _ _ clause => exact .inr ⟨clause, rfl, rfl⟩
  | resolved _ _ clause => exact .inr ⟨clause, rfl, rfl⟩
  | _ => exact .inl ⟨rfl, rfl⟩

/-- Names stay in use. -/
theorem used_turn (search : Search) {x : Symbol} (used : search.names.Used x) :
    search.turn.search.names.Used x := by
  rcases search.names_turn with ⟨-, same⟩ | ⟨clause, -, renamed⟩
  · rwa [same]
  · rw [renamed]
    exact used.renameClause clause

theorem renamed_of_variant {search : Search} {variant : Clause}
    (made : variant ∈ search.variant?) :
    ∃ clause, variant = (search.names.renameClause clause).1 ∧
      search.turn.search.names = (search.names.renameClause clause).2 := by
  rcases search.names_turn with ⟨none, -⟩ | ⟨clause, some, names⟩
  · simp [none] at made
  · exact ⟨clause, (Option.some.inj (some.symm.trans made)).symm, names⟩

/-- The variables of a clause instance are in use once it is made. -/
theorem used_of_variant {search : Search} {variant : Clause}
    (made : variant ∈ search.variant?) {x : Symbol} (occurs : x ∈ variant.vars) :
    search.turn.search.names.Used x := by
  obtain ⟨clause, rfl, names⟩ := renamed_of_variant made
  rw [names]
  exact NameSupply.used_of_mem_renameClause occurs

end Search

end HornLogic
