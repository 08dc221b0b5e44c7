import HornLogic.Proofs.Search.Embedding
import HornLogic.Proofs.Search.Solutions

/-!
# Two searches for one query

A query can be asked of different clauses, or of the same clauses in another order. The searches
then have the variables of the query in common, and all the names that they make up differ.
`Alongside` says that two of them stand at the same place. It is the embedding of one search in the
other, where both begin with the query and nothing else is known.

In contrast to an embedding, neither search is within the other one. Each may leave the place,
explore what the other one does not have, and come back. Its names in use are then more than before,
and that is all that has changed (`Embedded.later`). Or both explore the same from there, and come
back with a larger dictionary (`Alongside.extend`). Where they have solved the goals, they answer
with the same solution under other names (`Alongside.translates_answer`).
-/

namespace HornLogic

/-- Two searches for a query with these variables stand at the same place. -/
abbrev Alongside (vars : List Symbol) (dict : Dictionary) (s s' : Bindings)
    (ledger ledger' : Ledger) : Prop :=
  Embedded (.ofQuery vars (.refl _)) .empty ∅ dict s s' ledger ledger'

/-- The second solution is the first one under other names, all of which are in the dictionary. -/
structure Dictionary.Translates (dict : Dictionary) (answer answer' : Solution) : Prop where
  covers : ∀ binding ∈ answer.bindings, binding.1 ∈ dict.names ∧ dict.Covers binding.2
  eq_rename : answer' = answer.rename dict.perm

theorem Dictionary.Translates.extend {dict more : Dictionary} {answer answer' : Solution}
    (translates : dict.Translates answer answer') (extension : more.Extends dict) :
    more.Translates answer answer' where
  covers binding member :=
    have ⟨known, covered⟩ := translates.covers binding member
    ⟨extension.1 known, extension.covers covered⟩
  eq_rename := by
    rw [extension.solution_rename_eq translates.covers]
    exact translates.eq_rename

namespace Alongside

variable {vars : List Symbol} {dict more : Dictionary} {s s' : Bindings}
  {ledger ledger' next next' : Ledger}

theorem start (vars : List Symbol) :
    Alongside vars (.ofQuery vars (.refl _)) .empty .empty (.start vars) (.start vars) := by
  have begun : Embedded (.ofQuery vars (.refl _)) .empty (unasked vars vars (.refl _))
      (.ofQuery vars (.refl _)) .empty .empty (.start vars) (.start vars) :=
    embedded_start Bindings.acyclic_empty (Bindings.all_empty _) (fun _ asked => .inl asked)
      (fun _ asked => asked) fun x _ => Bindings.lookup_empty x
  exact { begun with apart := nofun }

/-- The goals of the query are the same in both searches. -/
theorem live_goals (goals : List Term) :
    List.Forall₂ (Live (.ofQuery (Term.varsAll goals) (.refl _)) .empty .empty
      (.start (Term.varsAll goals))) goals goals := by
  refine List.forall₂_same.2 fun goal member => ?_
  have asked (x : Symbol) (occurs : x ∈ goal.occurrences) : x ∈ Term.varsAll goals :=
    Term.mem_varsAll.2 ⟨goal, member, occurs⟩
  refine ⟨asked, fun x occurs => .inl (asked x occurs), ?_⟩
  show Bindings.empty.resolve goal = (Bindings.empty.resolve goal).rename id
  rw [Term.rename_id]

/-- The variables of the query keep their names. -/
theorem fixed (alongside : Alongside vars dict s s' ledger ledger') {x : Symbol}
    (member : x ∈ vars) : dict.perm x = x :=
  alongside.extension.2 x member

/-- Whatever both searches have explored since, they stand at the same place when they are back at
their bindings. -/
theorem extend (alongside : Alongside vars dict s s' ledger ledger')
    (extension : more.Extends dict) (within : more.Within next.names next'.names)
    (keeps' : ledger'.Keeps next') : Alongside vars more s s' next next' :=
  { alongside with
    extension := extension.trans alongside.extension
    within
    all := alongside.all.imp fun _ covers => extension.covers covers
    all' := keeps'.all alongside.all'
    asked := fun x known =>
      ((alongside.asked x known).extend alongside.all extension).later keeps'
    apart := nofun }

theorem translates_answer (alongside : Alongside vars dict s s' ledger ledger') :
    dict.Translates (s.answer vars) (s'.answer vars) where
  covers := by
    intro binding member
    obtain ⟨x, asked, rfl⟩ := List.mem_map.1 member
    exact ⟨alongside.extension.1 asked, (alongside.asked x asked).covers.resolve alongside.all⟩
  eq_rename := by
    show Solution.mk _ = Solution.mk _
    rw [Bindings.answer, List.map_map]
    congr 1
    refine List.map_congr_left fun x asked => ?_
    have pair : s'.resolve (.var x) = (s.resolve (.var x)).rename dict.perm :=
      (alongside.asked x asked).pair
    show (x, s'.resolve (.var x)) = (dict.perm x, (s.resolve (.var x)).rename dict.perm)
    rw [alongside.fixed asked, pair]

end Alongside

end HornLogic
