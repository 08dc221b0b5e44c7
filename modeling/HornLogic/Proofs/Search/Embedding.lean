import HornLogic.Proofs.Search.Explored
import HornLogic.Proofs.Unification.Counterpart

/-!
# A search inside a larger one

When a search solves some goals with others waiting behind them, it does what the search for the
goals alone does, only that at each solution it goes on with the goals that waited. It does so under
bindings and names of its own. The larger search may have begun under bindings from what it solved
before, where the goals are instances of the ones that the smaller search was asked. And it has more
variables to stay clear of, so its fresh names are different.

`Embedded` says that the larger search stands where the smaller one stands. The terms that the
smaller one works with are `Live`: they have counterparts in the larger one, through a dictionary
that grows with every renamed clause. Besides, there are names which the larger search is to leave
alone, since they stand for something that the smaller search does not know of. An attempt keeps all
this (`Embedded.unify`), as the same clauses are offered and the same attempts succeed.

So a derivation of the smaller search turns into one of the larger search, if at every leaf the
goals that waited can be explored, which is what `Surroundings` are made of. The answers of the
larger search come in blocks, one for each answer of the smaller one, and its attempts are the sum
of all attempts (`Surroundings.Contains`). What is so below a clause that fails and below one that
resolves the goal is said by a lemma for each, and the rest is an induction over the search tree
(`Explored.embed`).
-/

namespace HornLogic

/-! ## What corresponds to what -/

/-- The term of the smaller search has a counterpart in the larger one, and the variables of both
are known. -/
structure Live (dict : Dictionary) (s s' : Bindings) (ledger' : Ledger) (t t' : Term) : Prop where
  covers : dict.Covers t
  covers' : ledger'.names.Covers t'
  pair : Bindings.Counterpart dict.perm s s' t t'

/-- The larger search has begun at `base` with the names of `start`, and stands where the smaller
one stands. -/
structure Embedded (start : Dictionary) (base : Bindings) (apart : Set Symbol) (dict : Dictionary)
    (s s' : Bindings) (ledger ledger' : Ledger) : Prop where
  extension : dict.Extends start
  within : dict.Within ledger.names ledger'.names
  acyclic : s.Acyclic
  acyclic' : s'.Acyclic
  all : s.All dict.Covers
  all' : s'.All ledger'.names.Covers
  grows : Bindings.Grows (fun _ => True) base s'
  /-- The variables that the smaller search was asked for have the same counterparts still. -/
  asked : ∀ x ∈ start.names, Live dict s s' ledger' (.var x) (.var (start.perm x))
  /-- The names apart are in use, but for nothing that the smaller search knows of. -/
  apart : ∀ x ∈ apart, ledger'.names.Used x ∧ (∀ y ∈ dict.names, dict.perm y ≠ x) ∧
    (base.lookup x = none → s'.lookup x = none)

/-- The larger search has the same to do, and then to solve the rest. -/
inductive EmbeddedTask (dict : Dictionary) (s s' : Bindings) (ledger' : Ledger) (rest : List Term) :
    Task → Task → Prop where
  | solve {goals goals' : List Term} : List.Forall₂ (Live dict s s' ledger') goals goals' →
      EmbeddedTask dict s s' ledger' rest (.solve goals) (.solve (goals' ++ rest))
  | attempt {goal goal' : Term} {waiting waiting' : List Term} (untried : List Clause) :
      Live dict s s' ledger' goal goal' →
      List.Forall₂ (Live dict s s' ledger') waiting waiting' →
      EmbeddedTask dict s s' ledger' rest (.attempt goal waiting untried)
        (.attempt goal' (waiting' ++ rest) untried)

variable {clauses : List Clause} {vars : List Symbol} {start dict more : Dictionary}
  {base s s' : Bindings} {apart : Set Symbol} {ledger ledger' next next' : Ledger}
  {rest : List Term} {goal goal' t t' : Term}

/-! ## Later ledgers and larger dictionaries -/

theorem Dictionary.Covers.resolve (all : s.All dict.Covers) (covers : dict.Covers t) :
    dict.Covers (s.resolve t) := by
  intro x occurs
  obtain ⟨y, inTerm, inValue⟩ := Term.mem_occurrences_instantiate.1 occurs
  exact all.of_mem_valueWithin s.size (covers y inTerm) x inValue

theorem Live.later (live : Live dict s s' ledger' t t') (keeps' : ledger'.Keeps next') :
    Live dict s s' next' t t' :=
  { live with covers' := keeps'.covers live.covers' }

theorem Live.extend (live : Live dict s s' ledger' t t') (all : s.All dict.Covers)
    (extension : more.Extends dict) : Live more s s' ledger' t t' where
  covers := extension.covers live.covers
  covers' := live.covers'
  pair := by
    show s'.resolve t' = (s.resolve t).rename more.perm
    rw [extension.rename_eq (live.covers.resolve all)]
    exact live.pair

/-- A live goal and its counterpart are offered the same clauses. -/
theorem Live.suits_eq (live : Live dict s s' ledger' t t') (acyclic : s.Acyclic)
    (acyclic' : s'.Acyclic) (clause : Clause) :
    clause.suits (s'.walk t') = clause.suits (s.walk t) := by
  have same : (s'.walk t').predicate? = (s.walk t).predicate? := by
    rw [← acyclic.predicate?_resolve, ← acyclic'.predicate?_resolve, live.pair,
      Term.predicate?_rename]
  simp only [Clause.suits, same]

theorem Live.filter_suits_eq (live : Live dict s s' ledger' t t') (acyclic : s.Acyclic)
    (acyclic' : s'.Acyclic) (clauses : List Clause) :
    clauses.filter (·.suits (s'.walk t')) = clauses.filter (·.suits (s.walk t)) :=
  List.filter_congr fun clause _ => live.suits_eq acyclic acyclic' clause

theorem Embedded.later (embedded : Embedded start base apart dict s s' ledger ledger')
    (keeps : ledger.Keeps next) (keeps' : ledger'.Keeps next') :
    Embedded start base apart dict s s' next next' :=
  { embedded with
    within := fun x known => ⟨keeps x (embedded.within x known).1,
      keeps' _ (embedded.within x known).2⟩
    all' := keeps'.all embedded.all'
    asked := fun x known => (embedded.asked x known).later keeps'
    apart := fun x member =>
      have ⟨used, unknown, unbound⟩ := embedded.apart x member
      ⟨keeps' x used, unknown, unbound⟩ }

/-! ## One attempt -/

/-- Bindings leave the variables of a clause alone that was renamed after them. -/
theorem Bindings.All.resolve_variant (all : s.All ledger.names.Covers) (indexed : s.Indexed)
    {clause : Clause} (new : ∀ x ∈ t.occurrences, x ∈ (ledger.variant clause).vars) :
    s.resolve t = t := by
  refine Eq.trans (Term.instantiate_congr fun x occurs => ?_) (Term.instantiate_self t)
  apply value_of_unbound
  rw [Option.eq_none_iff_forall_ne_some]
  intro u found
  exact NameSupply.not_used_of_mem_renameClause (new x occurs)
    (all.var_of_lookup indexed found x (by simp))

/-- When both searches rename the same clause, the two variants are counterparts. -/
theorem Embedded.rename (embedded : Embedded start base apart dict s s' ledger ledger')
    (clause : Clause) :
    ∃ more, more.Extends dict ∧
      Embedded start base apart more s s' (ledger.next clause) (ledger'.next clause) ∧
      List.Forall₂ (Live more s s' (ledger'.next clause))
        ((ledger.variant clause).head :: (ledger.variant clause).body)
        ((ledger'.variant clause).head :: (ledger'.variant clause).body) := by
  obtain ⟨more, extension, adds, within, covers, head, body⟩ :=
    embedded.within.exists_renameClause (Clause.Alike.refl clause)
  have keeps' := ledger'.keeps_next clause
  have allUsed : s.All ledger.names.Covers :=
    embedded.all.imp fun _ covers x occurs => (embedded.within x (covers x occurs)).1
  refine ⟨more, extension, ?_, ?_⟩
  · exact
      { embedded with
        extension := extension.trans embedded.extension
        within
        all := embedded.all.imp fun _ covers => extension.covers covers
        all' := keeps'.all embedded.all'
        asked := fun x known =>
          ((embedded.asked x known).extend embedded.all extension).later keeps'
        apart := by
          intro x member
          obtain ⟨used, unknown, unbound⟩ := embedded.apart x member
          refine ⟨keeps' x used, ?_, unbound⟩
          -- The counterparts of new names are new, and `x` is not.
          rintro y known rfl
          rcases adds y known with old | new
          · exact unknown y old (extension.2 y old).symm
          · exact new used }
  · have parts : (ledger'.variant clause).head :: (ledger'.variant clause).body =
        ((ledger.variant clause).head :: (ledger.variant clause).body).map
          (Term.rename more.perm) := congrArg₂ List.cons head body
    rw [parts, List.forall₂_map_right_iff, List.forall₂_same]
    intro t member
    have member' : t.rename more.perm ∈
        (ledger'.variant clause).head :: (ledger'.variant clause).body :=
      parts ▸ List.mem_map_of_mem member
    refine ⟨covers t member, ?_, ?_⟩
    · rcases List.mem_cons.1 member' with isHead | inBody
      · rw [isHead]
        exact ledger'.covers_head clause
      · exact ledger'.covers_body clause inBody
    · show s'.resolve (t.rename more.perm) = (s.resolve t).rename more.perm
      rw [allUsed.resolve_variant embedded.acyclic.indexed
          fun x => Clause.mem_vars_of_mem_parts member,
        embedded.all'.resolve_variant embedded.acyclic'.indexed
          fun x => Clause.mem_vars_of_mem_parts member']

/-- Bindings that mention names of the dictionary only do not bind a name whose counterpart is none
of them. -/
theorem Bindings.All.lookup_symm (all : s.All dict.Covers) (indexed : s.Indexed) {x : Symbol}
    (unknown : ∀ y ∈ dict.names, dict.perm y ≠ x) : s.lookup (dict.perm.symm x) = none := by
  rw [Option.eq_none_iff_forall_ne_some]
  intro t found
  have known : dict.perm.symm x ∈ dict.names :=
    all.var_of_lookup indexed found _ (by simp)
  exact unknown _ known (dict.perm.apply_symm_apply x)

/-- When two live terms are unified and so are their counterparts, either both attempts succeed or
neither does. If they do, the larger search still stands where the smaller one stands. -/
theorem Embedded.unify (embedded : Embedded start base apart dict s s' ledger ledger')
    {t t' u u' : Term} (left : Live dict s s' ledger' t t') (right : Live dict s s' ledger' u u') :
    ((s.unify t u).conflict = none ↔ (s'.unify t' u').conflict = none) ∧
      ((s.unify t u).conflict = none →
        Embedded start base apart dict (s.unify t u).bindings (s'.unify t' u').bindings ledger
          ledger' ∧
        ∀ v v', Live dict s s' ledger' v v' →
          Live dict (s.unify t u).bindings (s'.unify t' u').bindings ledger' v v') := by
  obtain ⟨success_iff, kept⟩ :=
    left.pair.unify embedded.acyclic embedded.acyclic' right.pair
  refine ⟨success_iff, fun success => ?_⟩
  have growth := Bindings.unify_grows Dictionary.Covers.arg left.covers right.covers embedded.all
  have growth' :=
    Bindings.unify_grows NameSupply.Covers.arg left.covers' right.covers' embedded.all'
  have live (v v' : Term) (live : Live dict s s' ledger' v v') :
      Live dict (s.unify t u).bindings (s'.unify t' u').bindings ledger' v v' :=
    { live with pair := kept success v v' live.pair }
  have acyclic := growth.acyclic embedded.acyclic
  have acyclic' := growth'.acyclic embedded.acyclic'
  have all := growth.all embedded.all
  -- A name apart is the counterpart of a name that the smaller search never binds.
  have stillApart (x : Symbol) (unknown : ∀ y ∈ dict.names, dict.perm y ≠ x)
      (unbound' : s'.lookup x = none) : (s'.unify t' u').bindings.lookup x = none := by
    have unbound := embedded.all.lookup_symm embedded.acyclic.indexed unknown
    have before : Bindings.Counterpart dict.perm s s' (.var (dict.perm.symm x)) (.var x) := by
      unfold Bindings.Counterpart
      rw [Bindings.resolve_var, Bindings.resolve_var, Bindings.value_of_unbound unbound,
        Bindings.value_of_unbound unbound', Term.rename_var, dict.perm.apply_symm_apply]
    have after := kept success _ _ before
    unfold Bindings.Counterpart at after
    rw [Bindings.resolve_var (s.unify t u).bindings,
      Bindings.value_of_unbound (all.lookup_symm acyclic.indexed unknown), Term.rename_var,
      dict.perm.apply_symm_apply] at after
    apply acyclic'.lookup_of_mem_resolve (t := .var x)
    rw [after]
    exact List.mem_singleton_self x
  refine ⟨?_, live⟩
  exact
    { embedded with
      acyclic
      acyclic'
      all
      all' := growth'.all embedded.all'
      grows := embedded.grows.trans (Bindings.unify_grows_any _ _ _)
      asked := fun x known => live _ _ (embedded.asked x known)
      apart := by
        intro x member
        obtain ⟨used, unknown, unbound⟩ := embedded.apart x member
        exact ⟨used, unknown, fun before => stillApart x unknown (unbound before)⟩ }

/-- Both searches resolve their goals with the clause or neither does. If they do, both go on with
the body. -/
theorem Embedded.attempt (embedded : Embedded start base apart dict s s' ledger ledger')
    (live : Live dict s s' ledger' goal goal') {others others' : List Term}
    (lives : List.Forall₂ (Live dict s s' ledger') others others') (clause : Clause) :
    let unification := s.unify goal (ledger.variant clause).head
    let unification' := s'.unify goal' (ledger'.variant clause).head
    (unification.conflict = none ↔ unification'.conflict = none) ∧
      (unification.conflict = none → ∃ more, more.Extends dict ∧
        Embedded start base apart more unification.bindings unification'.bindings
          (ledger.next clause) (ledger'.next clause) ∧
        List.Forall₂
          (Live more unification.bindings unification'.bindings (ledger'.next clause))
          ((ledger.variant clause).body ++ others)
          ((ledger'.variant clause).body ++ others')) := by
  intro unification unification'
  obtain ⟨more, extension, renamed, variants⟩ := embedded.rename clause
  have grown {t t' : Term} (live : Live dict s s' ledger' t t') :
      Live more s s' (ledger'.next clause) t t' :=
    (live.extend embedded.all extension).later (ledger'.keeps_next clause)
  obtain ⟨head, body⟩ := List.forall₂_cons.1 variants
  obtain ⟨success_iff, kept⟩ := renamed.unify (grown live) head
  refine ⟨success_iff, fun success => ?_⟩
  obtain ⟨next, liveNext⟩ := kept success
  refine ⟨more, extension, next, List.rel_append (body.imp liveNext) ?_⟩
  exact lives.imp fun _ _ live => liveNext _ _ (grown live)

/-- Where the smaller search fails to resolve its goal, so does the larger one. -/
theorem Embedded.exists_conflict (embedded : Embedded start base apart dict s s' ledger ledger')
    (live : Live dict s s' ledger' goal goal') {clause : Clause} {conflict : Conflict}
    (outcome : (s.unify goal (ledger.variant clause).head).conflict = some conflict) :
    ∃ conflict', (s'.unify goal' (ledger'.variant clause).head).conflict = some conflict' := by
  rw [← Option.ne_none_iff_exists', Ne, ← (embedded.attempt live .nil clause).1, outcome]
  exact nofun

/-- When both searches resolve their goals with the clause, the larger one has the same to solve,
and then the rest. -/
theorem Embedded.exists_body (embedded : Embedded start base apart dict s s' ledger ledger')
    (live : Live dict s s' ledger' goal goal') {others others' : List Term}
    (lives : List.Forall₂ (Live dict s s' ledger') others others') {clause : Clause}
    (outcome : (s.unify goal (ledger.variant clause).head).conflict = none) :
    let next := (s.unify goal (ledger.variant clause).head).bindings
    let next' := (s'.unify goal' (ledger'.variant clause).head).bindings
    (s'.unify goal' (ledger'.variant clause).head).conflict = none ∧
      ∃ more, Embedded start base apart more next next' (ledger.next clause) (ledger'.next clause) ∧
        EmbeddedTask more next next' (ledger'.next clause) rest
          (.solve ((ledger.variant clause).body ++ others))
          (.solve ((ledger'.variant clause).body ++ (others' ++ rest))) := by
  obtain ⟨success_iff, resolves⟩ := embedded.attempt live lives clause
  obtain ⟨more, -, embeddedBody, livesBody⟩ := resolves outcome
  refine ⟨success_iff.1 outcome, more, embeddedBody, ?_⟩
  rw [← List.append_assoc]
  exact .solve livesBody

/-! ## A query inside a larger search -/

/-- The dictionary of a query for some variables that begins inside a larger search, in which the
variables go by other names. -/
def Dictionary.ofQuery (asked : List Symbol) (γ : Equiv.Perm Symbol) : Dictionary where
  names := {x | x ∈ asked}
  perm := γ

@[simp] theorem Dictionary.mem_names_ofQuery {asked : List Symbol} {γ : Equiv.Perm Symbol}
    {x : Symbol} : x ∈ (ofQuery asked γ).names ↔ x ∈ asked := .rfl

@[simp] theorem Dictionary.perm_ofQuery (asked : List Symbol) (γ : Equiv.Perm Symbol) :
    (ofQuery asked γ).perm = γ := rfl

/-- The other variables that are known in the larger search. -/
def unasked (asked known : List Symbol) (γ : Equiv.Perm Symbol) : Set Symbol :=
  {x | ∃ y ∈ known, y ∉ asked ∧ γ y = x}

section Query

variable {asked known : List Symbol} {γ : Equiv.Perm Symbol} {s' : Bindings} {ledger' : Ledger}

/-- A query can begin anywhere, if its variables are unbound there. -/
theorem embedded_start (acyclic' : s'.Acyclic) (all' : s'.All ledger'.names.Covers)
    (used : ∀ x ∈ known, ledger'.names.Used (γ x)) (subset : asked ⊆ known)
    (unbound : ∀ x ∈ asked, s'.lookup (γ x) = none) :
    Embedded (.ofQuery asked γ) s' (unasked asked known γ) (.ofQuery asked γ) .empty s'
      (.start asked) ledger' where
  extension := .refl _
  within x known := ⟨.inl known, used x (subset known)⟩
  acyclic := Bindings.acyclic_empty
  acyclic'
  all := Bindings.all_empty _
  all'
  grows := .refl
  asked x member := by
    refine ⟨?_, ?_, ?_⟩
    · simpa [Dictionary.Covers] using member
    · simpa [NameSupply.Covers] using used x (subset member)
    · show s'.resolve (.var (γ x)) = (Bindings.empty.resolve (.var x)).rename γ
      rw [Bindings.resolve_var, Bindings.value_of_unbound (unbound x member),
        Bindings.resolve_empty, Term.rename_var]
  apart := by
    rintro _ ⟨y, member, missing, rfl⟩
    refine ⟨used y member, ?_, id⟩
    intro x inAsked same
    exact missing (γ.injective same ▸ inAsked)

end Query

/-! ## What is around a search -/

/-- A larger search around one that is asked for `vars`. It is asked for `vars'`, it has begun at
`base` with the names of `start`, leaving the names `apart` alone, and at each answer of the smaller
search it goes on with the goals `rest`. What it finds there is described by something that belongs
to the answer, its `Leaf`: the `Block` of answers, and the `cost` in attempts. -/
structure Surroundings (clauses : List Clause) (vars : List Symbol) (α : Type) where
  vars' : List Symbol
  start : Dictionary
  base : Bindings
  apart : Set Symbol
  rest : List Term
  Leaf : Solution → α → Prop
  Block : α → List (Solution × Nat) → Prop
  cost : α → Nat
  goesOn : ∀ {dict s s' ledger ledger' leaf},
    Embedded start base apart dict s s' ledger ledger' →
    (∀ t ∈ rest, ledger'.names.Covers t) → Leaf (s.answer vars) leaf →
    ∃ block last', Explored clauses vars' (.solve rest) s' ledger' block last' ∧
      last'.attempts = ledger'.attempts + cost leaf ∧ Block leaf block

section Contains

variable {α : Type}

/-- The larger search has explored its search tree. Its answers come in blocks, one for each leaf,
and besides its attempts in these it has made those of the smaller search. -/
def Surroundings.Explores (around : Surroundings clauses vars α) (task' : Task) (s' : Bindings)
    (ledger ledger' last : Ledger) (leaves : List α) : Prop :=
  ∃ blocks last', Explored clauses around.vars' task' s' ledger' blocks.flatten last' ∧
    last'.attempts + ledger.attempts =
      ledger'.attempts + last.attempts + (leaves.map around.cost).sum ∧
    List.Forall₂ around.Block leaves blocks

/-- Wherever the larger search stands where the smaller one stands, it can go through the search
tree below the task and have a block for each of the answers. -/
def Surroundings.Contains (around : Surroundings clauses vars α) (task : Task) (s : Bindings)
    (ledger : Ledger) (answers : List (Solution × Nat)) (last : Ledger) : Prop :=
  ∀ {dict s' ledger' task' leaves},
    Embedded around.start around.base around.apart dict s s' ledger ledger' →
    (∀ t ∈ around.rest, ledger'.names.Covers t) →
    EmbeddedTask dict s s' ledger' around.rest task task' →
    List.Forall₂ (fun leaf answer => around.Leaf answer.1 leaf) leaves answers →
    around.Explores task' s' ledger ledger' last leaves

variable {around : Surroundings clauses vars α} {middle last : Ledger} {others : List Term}
  {clause : Clause} {untried : List Clause} {early later : List (Solution × Nat)}

/-- A clause that fails, fails in both searches. -/
theorem contains_of_conflict {conflict : Conflict}
    (outcome : (s.unify goal (ledger.variant clause).head).conflict = some conflict)
    (remaining : around.Contains (.attempt goal others untried) s (ledger.next clause) later last) :
    around.Contains (.attempt goal others (clause :: untried)) s ledger later last := by
  intro dict s' ledger' task' leaves embedded waiting tasks found
  cases tasks with
  | @attempt _ goal' _ others' _ live lives =>
    have keeps' := ledger'.keeps_next clause
    obtain ⟨conflict', outcome'⟩ := embedded.exists_conflict live outcome
    obtain ⟨blocks, last', explored', counted, isBlock⟩ :=
      remaining (embedded.later (ledger.keeps_next clause) keeps')
        (fun t member => keeps'.covers (waiting t member))
        (.attempt untried (live.later keeps') (lives.imp fun _ _ live => live.later keeps')) found
    refine ⟨blocks, last', .failed outcome' explored', ?_, isBlock⟩
    have next : last'.attempts + (ledger.attempts + 1) =
        ledger'.attempts + 1 + last.attempts + (leaves.map around.cost).sum := counted
    omega

/-- When a clause resolves the goal in both searches, both come back from the body at their bindings
and go on with the other clauses. The leaves are those below the body, and then those of the clauses
tried afterwards. -/
theorem contains_of_success
    (outcome : (s.unify goal (ledger.variant clause).head).conflict = none)
    (explored : Explored clauses vars (.solve ((ledger.variant clause).body ++ others))
      (s.unify goal (ledger.variant clause).head).bindings (ledger.next clause) early middle)
    (body : around.Contains (.solve ((ledger.variant clause).body ++ others))
      (s.unify goal (ledger.variant clause).head).bindings (ledger.next clause) early middle)
    (remaining : around.Contains (.attempt goal others untried) s middle later last) :
    around.Contains (.attempt goal others (clause :: untried)) s ledger (early ++ later) last := by
  intro dict s' ledger' task' leaves embedded waiting tasks found
  cases tasks with
  | @attempt _ goal' _ others' _ live lives =>
    obtain ⟨success', more, embeddedBody, tasksBody⟩ := embedded.exists_body live lives outcome
    obtain ⟨leavesBody, leavesLater, rfl, foundBody, foundLater⟩ : ∃ first second,
        leaves = first ++ second ∧
          List.Forall₂ (fun leaf answer => around.Leaf answer.1 leaf) first early ∧
          List.Forall₂ (fun leaf answer => around.Leaf answer.1 leaf) second later :=
      ⟨_, _, (List.take_append_drop early.length leaves).symm,
        List.forall₂_take_append _ _ _ found, List.forall₂_drop_append _ _ _ found⟩
    have keepsNext' := ledger'.keeps_next clause
    obtain ⟨blocksBody, middle', explored', countedBody, isBlockBody⟩ :=
      body embeddedBody (fun t member => keepsNext'.covers (waiting t member)) tasksBody foundBody
    have keeps : ledger.Keeps middle := (ledger.keeps_next clause).trans explored.keeps
    have keeps' : ledger'.Keeps middle' := keepsNext'.trans explored'.keeps
    obtain ⟨blocksLater, last', remaining', countedLater, isBlockLater⟩ :=
      remaining (embedded.later keeps keeps') (fun t member => keeps'.covers (waiting t member))
        (.attempt untried (live.later keeps') (lives.imp fun _ _ live => live.later keeps'))
        foundLater
    refine ⟨blocksBody ++ blocksLater, last', ?_, ?_, List.rel_append isBlockBody isBlockLater⟩
    · rw [List.flatten_append]
      exact .resolved success' explored' remaining'
    · have next : middle'.attempts + (ledger.attempts + 1) =
          ledger'.attempts + 1 + middle.attempts + (leavesBody.map around.cost).sum := countedBody
      rw [List.map_append, List.sum_append]
      omega

end Contains

/-! ## The search tree -/

/-- When a smaller search has explored its search tree, a larger one around it can do so, too. -/
theorem Explored.embed {α : Type} (around : Surroundings clauses vars α) {task : Task}
    {last : Ledger} {answers : List (Solution × Nat)}
    (explored : Explored clauses vars task s ledger answers last) :
    around.Contains task s ledger answers last := by
  induction explored with
  | solved s ledger =>
    intro dict s' ledger' task' leaves embedded waiting tasks found
    cases tasks with
    | solve goals =>
      cases goals
      cases found with
      | @cons leaf _ _ _ isLeaf none =>
        cases none
        obtain ⟨block, last', explored', counted, isBlock⟩ := around.goesOn embedded waiting isLeaf
        refine ⟨[block], last', by simpa using explored', ?_, .cons isBlock .nil⟩
        simp only [counted, List.map_cons, List.map_nil, List.sum_cons, List.sum_nil]
        omega
  | selected _ ih =>
    intro dict s' ledger' task' leaves embedded waiting tasks found
    cases tasks with
    | solve goals =>
      cases goals with
      | cons live lives =>
        obtain ⟨blocks, last', explored', related⟩ :=
          ih embedded waiting (.attempt _ live lives) found
        refine ⟨blocks, last', .selected ?_, related⟩
        rw [live.filter_suits_eq embedded.acyclic embedded.acyclic']
        exact explored'
  | exhausted goal others s ledger =>
    intro dict s' ledger' task' leaves embedded waiting tasks found
    cases tasks
    cases found
    exact ⟨[], ledger', .exhausted _ _ s' ledger', rfl, .nil⟩
  | failed outcome _ remaining => exact contains_of_conflict outcome remaining
  | resolved outcome explored _ body remaining =>
    exact contains_of_success outcome explored body remaining

end HornLogic
