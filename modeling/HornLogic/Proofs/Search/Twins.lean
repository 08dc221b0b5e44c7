import HornLogic.Proofs.PredicateIndex
import HornLogic.Proofs.Search.Stack
import HornLogic.Proofs.Unification.Translation

/-!
# Searches that do the same under other names

Two searches are `Twins` with respect to a dictionary if they stand at the same place: their goals,
their choice points and the bindings at each of these correspond. The second one may be offered
clauses that the first one is not, as long as these do not suit the goal. It tries them in vain and
so falls behind in turns, in attempts and in fresh names, but not in what it reports.

Whenever the first search makes a turn, the second one can catch up with it by some turns that
report the same (`Twins.catchesUp`). It first tries the clauses that the first one is not offered
(`Twins.skip`). If both then try a clause, the names they give it are new to either of them, and the
dictionary grows by these. The rest is what translated bindings do under unification, and that going
back to a choice point finds the bindings which corresponded when it was pushed.

So whatever is seen of one search is seen of the other, up to a renaming of variables
(`forall₂_seen_of_offered`).
-/

namespace HornLogic

/-! ## What corresponds to what -/

/-- The clauses that two searches have to try for a goal: the same ones, up to the names of their
variables, except that the second search may have some which do not suit the goal. -/
inductive Offered (skips : Prop) (goal : Term) : List Clause → List Clause → Prop where
  | nil : Offered skips goal [] []
  | alike {c d : Clause} {cs ds : List Clause} : c.Alike d → Offered skips goal cs ds →
      Offered skips goal (c :: cs) (d :: ds)
  | skipped {d : Clause} {cs ds : List Clause} : skips → d.suits goal = false →
      Offered skips goal cs ds → Offered skips goal cs (d :: ds)

/-- The two choice points correspond, on the trails of two searches. -/
structure SamePoint (skips : Prop) (dict : Dictionary) (s s' : Bindings)
    (point point' : ChoicePoint) : Prop where
  goal : point'.goal = point.goal.rename dict.perm
  rest : point'.rest = point.rest.map (Term.rename dict.perm)
  depth : point'.depth = point.depth
  covers : ∀ t ∈ point.goal :: point.rest, dict.Covers t
  bindings : (s.rollback point.mark).Translated dict.perm (s'.rollback point'.mark)
  all : (s.rollback point.mark).All dict.Covers
  offered : Offered skips ((s.rollback point.mark).walk point.goal) point.untried point'.untried

/-- Two searches with these bindings are to do the same next. -/
inductive SamePhase (dict : Dictionary) (s s' : Bindings) : Phase → Phase → Prop where
  | enter (goals : List Term) (depth : Nat) : s.Translated dict.perm s' → s.All dict.Covers →
      (∀ t ∈ goals, dict.Covers t) →
      SamePhase dict s s' (.enter goals depth) (.enter (goals.map (Term.rename dict.perm)) depth)
  | resume : SamePhase dict s s' .resume .resume
  | finished : SamePhase dict s s' .finished .finished

/-- The second search stands where the first one stands, up to names. It may have made more
attempts if there are clauses to skip, and only then. -/
structure Twins (skips : Prop) (dict : Dictionary) (search search' : Search) : Prop where
  names : dict.Within search.names search'.names
  asked : ∀ x ∈ search.queryVars, x ∈ dict.names
  queryVars : search'.queryVars = search.queryVars.map dict.perm
  limits : search'.limits = search.limits
  unlimited : skips → search.limits.maxSteps = none
  offer : ∀ (π : Equiv.Perm Symbol) t,
    Offered skips t (search.offer t) (search'.offer (t.rename π))
  steps : search.steps ≤ search'.steps
  steps_eq : ¬ skips → search.steps = search'.steps
  stacked : Stacked search
  stacked' : Stacked search'
  stack : List.Forall₂ (SamePoint skips dict search.bindings search'.bindings) search.stack
    search'.stack
  phase : SamePhase dict search.bindings search'.bindings search.phase search'.phase

/-- The solution under other names. -/
def Solution.rename (ρ : Symbol → Symbol) (answer : Solution) : Solution :=
  { bindings := answer.bindings.map fun (x, t) => (ρ x, t.rename ρ) }

/-- The report under other names; only a solution has names of variables in it. -/
def Report.rename (ρ : Symbol → Symbol) : Report → Report
  | .solution answer => .solution (answer.rename ρ)
  | .aborted error => .aborted error
  | .exhausted => .exhausted

/-- All variables of the report are in the dictionary. -/
def Dictionary.CoversReport (dict : Dictionary) (report : Report) : Prop :=
  ∀ answer, report = .solution answer →
    ∀ binding ∈ answer.bindings, binding.1 ∈ dict.names ∧ dict.Covers binding.2

/-- What two searches report corresponds. -/
structure SameResult (skips : Prop) (dict : Dictionary) (result result' : Report × Nat) : Prop where
  report : result'.1 = result.1.rename dict.perm
  covers : dict.CoversReport result.1
  steps : result.2 ≤ result'.2
  steps_eq : ¬ skips → result.2 = result'.2

variable {skips : Prop} {dict more : Dictionary} {search search' : Search}

/-! ## Larger dictionaries -/

theorem Dictionary.Extends.map_rename_eq (extension : more.Extends dict) {ts : List Term}
    (covers : ∀ t ∈ ts, dict.Covers t) :
    ts.map (Term.rename more.perm) = ts.map (Term.rename dict.perm) :=
  List.map_congr_left fun t member => extension.rename_eq (covers t member)

/-- A solution whose names are all in the dictionary has the same names in a larger one. -/
theorem Dictionary.Extends.solution_rename_eq (extension : more.Extends dict) {answer : Solution}
    (covers : ∀ binding ∈ answer.bindings, binding.1 ∈ dict.names ∧ dict.Covers binding.2) :
    answer.rename more.perm = answer.rename dict.perm := by
  show Solution.mk _ = Solution.mk _
  congr 1
  refine List.map_congr_left fun binding member => ?_
  obtain ⟨known, covered⟩ := covers binding member
  show (more.perm binding.1, binding.2.rename more.perm) =
    (dict.perm binding.1, binding.2.rename dict.perm)
  rw [extension.2 _ known, extension.rename_eq covered]

theorem SamePoint.extend {s s' : Bindings} {point point' : ChoicePoint}
    (same : SamePoint skips dict s s' point point') (extension : more.Extends dict) :
    SamePoint skips more s s' point point' where
  goal := by rw [same.goal, extension.rename_eq (same.covers _ List.mem_cons_self)]
  rest := by
    rw [same.rest,
      extension.map_rename_eq fun t member => same.covers t (List.mem_cons_of_mem _ member)]
  depth := same.depth
  covers t member := extension.covers (same.covers t member)
  bindings := same.bindings.extend extension same.all
  all := same.all.imp fun _ => extension.covers
  offered := same.offered

theorem SameResult.extend {result result' : Report × Nat}
    (same : SameResult skips dict result result') (extension : more.Extends dict) :
    SameResult skips more result result' where
  report := by
    rw [same.report]
    cases reported : result.1 with
    | aborted error => rfl
    | exhausted => rfl
    | solution answer =>
      show Report.solution (answer.rename dict.perm) = Report.solution (answer.rename more.perm)
      rw [extension.solution_rename_eq (same.covers answer reported)]
  covers answer reported binding member :=
    have known := same.covers answer reported binding member
    ⟨extension.1 known.1, extension.covers known.2⟩
  steps := same.steps
  steps_eq := same.steps_eq

/-! ## Choice points after an attempt -/

theorem forall₂_imp_of_mem {α β : Type} {R S : α → β → Prop} {as : List α} {bs : List β}
    (related : List.Forall₂ R as bs) (imp : ∀ a ∈ as, ∀ b ∈ bs, R a b → S a b) :
    List.Forall₂ S as bs := by
  induction related with
  | nil => exact .nil
  | cons first _ ih =>
    refine .cons (imp _ List.mem_cons_self _ List.mem_cons_self first) (ih ?_)
    intro a inAs b inBs
    exact imp a (List.mem_cons_of_mem _ inAs) b (List.mem_cons_of_mem _ inBs)

/-- Choice points correspond if they did so on other trails, which going back makes the same. -/
theorem SamePoint.of_rollback_eq {s s' t t' : Bindings} {point point' : ChoicePoint}
    (same : SamePoint skips dict s s' point point')
    (eq : t.rollback point.mark = s.rollback point.mark)
    (eq' : t'.rollback point'.mark = s'.rollback point'.mark) :
    SamePoint skips dict t t' point point' where
  goal := same.goal
  rest := same.rest
  depth := same.depth
  covers := same.covers
  bindings := by rw [eq, eq']; exact same.bindings
  all := by rw [eq]; exact same.all
  offered := by rw [eq]; exact same.offered

/-- The stacks still correspond when both topmost choice points have fewer clauses left. -/
theorem SamePoint.stack_untried {s s' t t' : Bindings} {point point' : ChoicePoint}
    {below below' : List ChoicePoint} {untried untried' : List Clause}
    (same : List.Forall₂ (SamePoint skips dict s s') (point :: below) (point' :: below'))
    (eq : ∀ other ∈ point :: below, t.rollback other.mark = s.rollback other.mark)
    (eq' : ∀ other ∈ point' :: below', t'.rollback other.mark = s'.rollback other.mark)
    (offered : Offered skips ((s.rollback point.mark).walk point.goal) untried untried') :
    List.Forall₂ (SamePoint skips dict t t') ({ point with untried } :: below)
      ({ point' with untried := untried' } :: below') := by
  have moved : List.Forall₂ (SamePoint skips dict t t') (point :: below) (point' :: below') :=
    forall₂_imp_of_mem same fun other member other' member' same =>
      same.of_rollback_eq (eq other member) (eq' other' member')
  obtain ⟨top, rest⟩ := List.forall₂_cons.1 moved
  have topEq := eq point List.mem_cons_self
  exact .cons { top with offered := topEq ▸ offered } rest

/-! ## Skipping clauses -/

theorem Twins.exists_stack (twins : Twins skips dict search search') {point : ChoicePoint}
    {below : List ChoicePoint} (stack : search.stack = point :: below) :
    ∃ point' below', search'.stack = point' :: below' ∧
      SamePoint skips dict search.bindings search'.bindings point point' := by
  have related := twins.stack
  rw [stack, List.forall₂_cons_left_iff] at related
  obtain ⟨point', below', same, -, stack'⟩ := related
  exact ⟨point', below', stack', same⟩

theorem Twins.stack_cons (twins : Twins skips dict search search') {point point' : ChoicePoint}
    {below below' : List ChoicePoint} (stack : search.stack = point :: below)
    (stack' : search'.stack = point' :: below') :
    SamePoint skips dict search.bindings search'.bindings point point' ∧
      List.Forall₂ (SamePoint skips dict search.bindings search'.bindings) below below' := by
  have related := twins.stack
  rw [stack, stack'] at related
  exact List.forall₂_cons.1 related

theorem Twins.checkSteps_eq (twins : Twins skips dict search search') :
    search'.limits.checkSteps (search'.steps + 1) =
      search.limits.checkSteps (search.steps + 1) := by
  rw [twins.limits]
  by_cases skipping : skips
  · simp [Limits.checkSteps, twins.unlimited skipping]
  · rw [twins.steps_eq skipping]

theorem Twins.resume' (twins : Twins skips dict search search')
    (phase : search.phase = .resume) : search'.phase = .resume := by
  have same := twins.phase
  rw [phase] at same
  cases phase' : search'.phase with
  | resume => rfl
  | finished =>
    rw [phase'] at same
    cases same
  | enter goals depth =>
    rw [phase'] at same
    cases same

/-- Two searches face the same clauses if neither has a clause to skip first. -/
inductive Facing (skips : Prop) (goal : Term) : List Clause → List Clause → Prop where
  | nil : Facing skips goal [] []
  | alike {c d : Clause} {cs ds : List Clause} : c.Alike d → Offered skips goal cs ds →
      Facing skips goal (c :: cs) (d :: ds)

/-- To try a clause that does not suit the goal changes nothing but names and attempts. -/
theorem Twins.skip_turn (twins : Twins skips dict search search') {point point' : ChoicePoint}
    {below below' : List ChoicePoint} {untried' : List Clause} {clause : Clause}
    (phase : search.phase = .resume) (stack : search.stack = point :: below)
    (stack' : search'.stack = point' :: below') (clauses' : point'.untried = clause :: untried')
    (skipping : skips)
    (unsuited :
      clause.suits ((search.bindings.rollback point.mark).walk point.goal) = false)
    (offered : Offered skips ((search.bindings.rollback point.mark).walk point.goal)
      point.untried untried') :
    search'.turn.seen = [] ∧ Twins skips dict search search'.turn.search ∧
      search'.turn.search.stack = { point' with untried := untried' } :: below' := by
  obtain ⟨top, rest⟩ := twins.stack_cons stack stack'
  have unsuited' : clause.suits
      ((search'.bindings.rollback point'.mark).walk point'.goal) = false := by
    rw [top.goal, top.bindings.walk]
    simpa [Clause.suits] using unsuited
  have clash : (search'.unification point' clause).conflict = some .clash :=
    Bindings.unify_clash_of_not_suits unsuited' _
  have unchecked : search'.limits.checkSteps (search'.steps + 1) = none := by
    rw [twins.limits]
    simp [Limits.checkSteps, twins.unlimited skipping]
  have phase' := twins.resume' phase
  have turned := (Search.TurnCase.failed point' below' clause untried' .clash phase' stack'
    clauses' unchecked clash).turn_eq
  have kept : ∀ other ∈ point' :: below', search'.turn.search.bindings.rollback other.mark =
      search'.bindings.rollback other.mark :=
    fun other member => twins.stacked'.rollback_turn (stack' ▸ member)
  have stacked'' := twins.stacked'.turn
  have moved := SamePoint.stack_untried (.cons top rest) (fun _ _ => rfl) kept offered
  rw [turned] at moved stacked''
  rw [turned]
  refine ⟨rfl, ?_, rfl⟩
  exact
    { twins with
      names := fun x known =>
        ⟨(twins.names x known).1, (twins.names x known).2.renameClause clause⟩
      steps := Nat.le_succ_of_le twins.steps
      steps_eq := fun none => absurd skipping none
      stacked' := stacked''
      stack := by
        rw [stack]
        exact moved
      phase := by
        rw [phase]
        exact .resume }

/-- The second search can make turns until both face the same clauses. -/
theorem Twins.skip (twins : Twins skips dict search search') {point : ChoicePoint}
    {below : List ChoicePoint} (phase : search.phase = .resume)
    (stack : search.stack = point :: below) :
    ∃ turns point' below', search'.seen turns = [] ∧
      Twins skips dict search (search'.after turns) ∧
      (search'.after turns).stack = point' :: below' ∧
      Facing skips ((search.bindings.rollback point.mark).walk point.goal) point.untried
        point'.untried := by
  obtain ⟨point', below', stack', same⟩ := twins.exists_stack stack
  have offered := same.offered
  clear same
  generalize clauses : point.untried = cs, clauses' : point'.untried = ds at offered
  induction offered generalizing search' point' with
  | nil =>
    refine ⟨0, point', below', rfl, twins, stack', ?_⟩
    rw [clauses']
    exact .nil
  | alike alike offered =>
    refine ⟨0, point', below', rfl, twins, stack', ?_⟩
    rw [clauses']
    exact .alike alike offered
  | skipped skipping unsuited offered ih =>
    obtain ⟨silent, twins', stack''⟩ :=
      twins.skip_turn phase stack stack' clauses' skipping unsuited (clauses ▸ offered)
    obtain ⟨turns, later, below'', seen, rest⟩ := ih twins' _ stack'' clauses rfl
    refine ⟨turns + 1, later, below'', ?_, rest⟩
    show search'.turn.seen ++ search'.turn.search.seen turns = []
    rw [silent, seen]
    rfl

/-! ## Trying a clause -/

/-- What an attempt makes of the bindings of two searches, and the clause instances it makes,
correspond. -/
structure SameAttempt (dict : Dictionary) (search search' : Search) (point point' : ChoicePoint)
    (c d : Clause) : Prop where
  names : dict.Within (search.names.renameClause c).2 (search'.names.renameClause d).2
  body : (search'.names.renameClause d).1.body =
    (search.names.renameClause c).1.body.map (Term.rename dict.perm)
  covers : ∀ t ∈ (search.names.renameClause c).1.body, dict.Covers t
  conflict : (search'.unification point' d).conflict =
    (search.unification point c).conflict.map (Conflict.rename dict.perm)
  bindings : (search.unification point c).bindings.Translated dict.perm
    (search'.unification point' d).bindings
  all : (search.unification point c).bindings.All dict.Covers

/-- Clauses that are alike are tried in the same way, in a larger dictionary. -/
theorem SamePoint.exists_attempt {point point' : ChoicePoint} {c d : Clause}
    (same : SamePoint skips dict search.bindings search'.bindings point point')
    (names : dict.Within search.names search'.names) (alike : c.Alike d) :
    ∃ more : Dictionary, more.Extends dict ∧ SameAttempt more search search' point point' c d := by
  obtain ⟨more, extension, -, names', covers, head, body⟩ := names.exists_renameClause alike
  have grown := same.extend extension
  obtain ⟨bindings, conflict⟩ :=
    grown.bindings.unify point.goal (search.names.renameClause c).1.head
  rw [← head, ← grown.goal] at bindings conflict
  have goal : more.Covers point.goal := grown.covers _ List.mem_cons_self
  have all : (search.unification point c).bindings.All more.Covers :=
    (Bindings.unify_grows Dictionary.Covers.arg goal (covers _ List.mem_cons_self)
      grown.all).all grown.all
  refine ⟨more, extension, names', body, ?_, conflict, bindings, all⟩
  intro t inBody
  exact covers t (List.mem_cons_of_mem _ inBody)

/-- After an attempt two searches correspond again, whatever both do next. -/
theorem Twins.attempt (twins : Twins skips dict search search') {point point' : ChoicePoint}
    {below below' : List ChoicePoint} {c d : Clause} {cs ds : List Clause}
    (stack : search.stack = point :: below) (stack' : search'.stack = point' :: below')
    (offered : Offered skips ((search.bindings.rollback point.mark).walk point.goal) cs ds)
    (extension : more.Extends dict) (same : SameAttempt more search search' point point' c d)
    {phase phase' : Phase}
    (samePhase : SamePhase more (search.unification point c).bindings
      (search'.unification point' d).bindings phase phase') :
    Twins skips more
      { search with
        bindings := (search.unification point c).bindings
        names := (search.names.renameClause c).2
        stack := { point with untried := cs } :: below
        phase
        steps := search.steps + 1 }
      { search' with
        bindings := (search'.unification point' d).bindings
        names := (search'.names.renameClause d).2
        stack := { point' with untried := ds } :: below'
        phase := phase'
        steps := search'.steps + 1 } where
  names := same.names
  asked x member := extension.1 (twins.asked x member)
  queryVars := by
    rw [twins.queryVars]
    exact List.map_congr_left fun x member => (extension.2 x (twins.asked x member)).symm
  limits := twins.limits
  unlimited := twins.unlimited
  offer := twins.offer
  steps := Nat.succ_le_succ twins.steps
  steps_eq none := congrArg Nat.succ (twins.steps_eq none)
  stacked := twins.stacked.attempt stack c cs ..
  stacked' := twins.stacked'.attempt stack' d ds ..
  stack := by
    obtain ⟨top, rest⟩ := twins.stack_cons stack stack'
    have grown := rest.imp fun _ _ same => same.extend extension
    exact SamePoint.stack_untried (.cons (top.extend extension) grown)
      (fun _ member => twins.stacked.rollback_unification stack c member)
      (fun _ member => twins.stacked'.rollback_unification stack' d member) offered
  phase := samePhase

/-! ## Turns -/

/-- The second search can make turns that lead it to where the first one is after its next turn, and
that report the same. -/
def CatchesUp (skips : Prop) (dict : Dictionary) (search search' : Search) : Prop :=
  ∃ turns more, 0 < turns ∧ more.Extends dict ∧
    Twins skips more search.turn.search (search'.after turns) ∧
    List.Forall₂ (SameResult skips more) search.turn.seen (search'.seen turns)

/-- It is enough that one turn of each leads to the same place. Their stacks are in order then, as
they were before. -/
theorem Twins.catchesUp_of_turn (twins : Twins skips dict search search') {turn turn' : Turn}
    (turned : search.turn = turn) (turned' : search'.turn = turn')
    (extension : more.Extends dict)
    (next : Stacked turn.search → Stacked turn'.search →
      Twins skips more turn.search turn'.search)
    (seen : List.Forall₂ (SameResult skips more) turn.seen turn'.seen) :
    CatchesUp skips dict search search' := by
  have stacked := twins.stacked.turn
  have stacked' := twins.stacked'.turn
  subst turned turned'
  refine ⟨1, more, Nat.one_pos, extension, next stacked stacked', ?_⟩
  show List.Forall₂ _ search.turn.seen (search'.turn.seen ++ [])
  rw [List.append_nil]
  exact seen

theorem CatchesUp.of_after {turns : Nat} (silent : search'.seen turns = [])
    (catchesUp : CatchesUp skips dict search (search'.after turns)) :
    CatchesUp skips dict search search' := by
  obtain ⟨more, next, positive, extension, twins, seen⟩ := catchesUp
  refine ⟨turns + more, next, by omega, extension, ?_, ?_⟩
  · rw [Search.after_add]
    exact twins
  · rw [Search.seen_add, silent]
    exact seen

/-- Both try a clause, unless too many attempts have been made. -/
theorem Twins.catchesUp_of_alike (twins : Twins skips dict search search')
    {point point' : ChoicePoint} {below below' : List ChoicePoint} {c d : Clause}
    {cs ds : List Clause} (phase : search.phase = .resume) (stack : search.stack = point :: below)
    (stack' : search'.stack = point' :: below') (clauses : point.untried = c :: cs)
    (clauses' : point'.untried = d :: ds) (alike : c.Alike d)
    (offered : Offered skips ((search.bindings.rollback point.mark).walk point.goal) cs ds) :
    CatchesUp skips dict search search' := by
  have phase' := twins.resume' phase
  have checked := twins.checkSteps_eq
  cases exceeded : search.limits.checkSteps (search.steps + 1) with
  | some error =>
    rw [exceeded] at checked
    have turned := (Search.TurnCase.tooMany point below c cs error phase stack clauses
      exceeded).turn_eq
    have turned' := (Search.TurnCase.tooMany point' below' d ds error phase' stack' clauses'
      checked).turn_eq
    refine twins.catchesUp_of_turn turned turned' (.refl dict) ?_ ?_
    · intro stacked stacked'
      exact
        { twins with
          steps := Nat.succ_le_succ twins.steps
          steps_eq := fun none => congrArg Nat.succ (twins.steps_eq none)
          stacked, stacked'
          stack := .nil
          phase := .finished }
    · refine .cons ⟨rfl, nofun, ?_, ?_⟩ .nil
      · exact Nat.succ_le_succ twins.steps
      · exact fun none => congrArg Nat.succ (twins.steps_eq none)
  | none =>
    rw [exceeded] at checked
    obtain ⟨top, -⟩ := twins.stack_cons stack stack'
    obtain ⟨more, extension, same⟩ := top.exists_attempt twins.names alike
    have conflicts := same.conflict
    cases outcome : (search.unification point c).conflict with
    | some conflict =>
      rw [outcome] at conflicts
      have turned := (Search.TurnCase.failed point below c cs conflict phase stack clauses exceeded
        outcome).turn_eq
      have turned' := (Search.TurnCase.failed point' below' d ds _ phase' stack' clauses' checked
        conflicts).turn_eq
      exact twins.catchesUp_of_turn turned turned' extension
        (fun _ _ => twins.attempt stack stack' offered extension same .resume) .nil
    | none =>
      rw [outcome] at conflicts
      have turned := (Search.TurnCase.resolved point below c cs phase stack clauses exceeded
        outcome).turn_eq
      have turned' := (Search.TurnCase.resolved point' below' d ds phase' stack' clauses' checked
        conflicts).turn_eq
      refine twins.catchesUp_of_turn turned turned' extension
        (fun _ _ => twins.attempt stack stack' offered extension same ?_) .nil
      -- The goals entered next are the body of the clause instance and the goals that waited.
      have grown := top.extend extension
      rw [same.body, top.depth, grown.rest, ← List.map_append]
      refine .enter _ _ same.bindings same.all ?_
      intro t member
      rcases List.mem_append.1 member with inBody | inRest
      · exact same.covers t inBody
      · exact grown.covers t (List.mem_cons_of_mem _ inRest)

theorem Twins.catchesUp_of_resume (twins : Twins skips dict search search')
    {point : ChoicePoint} {below : List ChoicePoint} (phase : search.phase = .resume)
    (stack : search.stack = point :: below) : CatchesUp skips dict search search' := by
  obtain ⟨turns, point', below', silent, twins', stack', facing⟩ := twins.skip phase stack
  apply CatchesUp.of_after silent
  generalize clauses : point.untried = cs, clauses' : point'.untried = ds at facing
  cases facing with
  | alike alike offered =>
    exact twins'.catchesUp_of_alike phase stack stack' clauses clauses' alike offered
  | nil =>
    generalize search'.after turns = search' at twins' stack'
    have turned := (Search.TurnCase.popped point below phase stack clauses).turn_eq
    have turned' := (Search.TurnCase.popped point' below' (twins'.resume' phase) stack'
      clauses').turn_eq
    obtain ⟨-, rest⟩ := twins'.stack_cons stack stack'
    have kept (other : ChoicePoint) (member : other ∈ below) :=
      twins'.stacked.rollback_top stack (List.mem_cons_of_mem point member)
    have kept' (other : ChoicePoint) (member : other ∈ below') :=
      twins'.stacked'.rollback_top stack' (List.mem_cons_of_mem point' member)
    refine twins'.catchesUp_of_turn turned turned' (.refl dict) ?_ .nil
    intro stacked stacked'
    exact
      { twins' with
        stacked, stacked'
        stack := forall₂_imp_of_mem rest fun other member other' member' same =>
          same.of_rollback_eq (kept other member) (kept' other' member')
        phase := .resume }

/-- Searches that stand at the same place have the same solution, up to names. -/
theorem Twins.sameResult_answer (twins : Twins skips dict search search')
    (translated : search.bindings.Translated dict.perm search'.bindings)
    (all : search.bindings.All dict.Covers) :
    SameResult skips dict (.solution search.answer, search.steps)
      (.solution search'.answer, search'.steps) where
  report := by
    show Report.solution { bindings := _ } = Report.solution { bindings := _ }
    simp only [twins.queryVars, Search.answer, List.map_map]
    congr 2
    refine List.map_congr_left fun x _ => ?_
    show (dict.perm x, _) = (dict.perm x, (search.bindings.resolve (.var x)).rename dict.perm)
    rw [← translated.resolve, Term.rename_var]
  covers := by
    rintro _ ⟨⟩ binding member
    obtain ⟨x, asked, rfl⟩ := List.mem_map.1 member
    have known := twins.asked x asked
    refine ⟨known, ?_⟩
    rw [Bindings.resolve_var]
    exact all.of_mem_valueWithin _ known
  steps := twins.steps
  steps_eq := twins.steps_eq

/-- The second search catches up with every turn of the first one. -/
theorem Twins.catchesUp (twins : Twins skips dict search search') :
    CatchesUp skips dict search search' := by
  have samePhase := twins.phase
  generalize phase' : search'.phase = next' at samePhase
  cases phase : search.phase with
  | finished =>
    rw [phase] at samePhase
    cases samePhase
    refine twins.catchesUp_of_turn (Search.turn_of_finished phase)
      (Search.turn_of_finished phase') (.refl dict) (fun _ _ => twins) ?_
    exact .cons ⟨rfl, nofun, twins.steps, twins.steps_eq⟩ .nil
  | resume =>
    rw [phase] at samePhase
    cases samePhase
    cases stack : search.stack with
    | cons point below => exact twins.catchesUp_of_resume phase stack
    | nil =>
      have stack' : search'.stack = [] := by simpa [stack] using twins.stack
      have turned := (Search.TurnCase.exhausted phase stack).turn_eq
      have turned' := (Search.TurnCase.exhausted phase' stack').turn_eq
      refine twins.catchesUp_of_turn turned turned' (.refl dict) ?_ ?_
      · intro stacked stacked'
        exact { twins with stacked, stacked', stack := .nil, phase := .finished }
      · exact .cons ⟨rfl, nofun, twins.steps, twins.steps_eq⟩ .nil
  | enter goals depth =>
    rw [phase] at samePhase
    cases samePhase with
    | enter _ _ translated all covers =>
      cases goals with
      | nil =>
        have turned := (Search.TurnCase.solved depth phase).turn_eq
        have turned' := (Search.TurnCase.solved depth phase').turn_eq
        refine twins.catchesUp_of_turn turned turned' (.refl dict) ?_ ?_
        · intro stacked stacked'
          exact { twins with stacked, stacked', phase := .resume }
        · exact .cons (twins.sameResult_answer translated all) .nil
      | cons goal rest =>
        have checked := congrArg (·.checkDepth depth) twins.limits
        cases exceeded : search.limits.checkDepth depth with
        | some error =>
          have turned := (Search.TurnCase.tooDeep goal rest depth error phase exceeded).turn_eq
          have turned' := (Search.TurnCase.tooDeep (goal.rename dict.perm) _ depth error phase'
            (checked.trans exceeded)).turn_eq
          refine twins.catchesUp_of_turn turned turned' (.refl dict) ?_ ?_
          · intro stacked stacked'
            exact { twins with stacked, stacked', stack := .nil, phase := .finished }
          · exact .cons ⟨rfl, nofun, twins.steps, twins.steps_eq⟩ .nil
        | none =>
          have turned := (Search.TurnCase.descended goal rest depth phase exceeded).turn_eq
          have turned' := (Search.TurnCase.descended (goal.rename dict.perm) _ depth phase'
            (checked.trans exceeded)).turn_eq
          refine twins.catchesUp_of_turn turned turned' (.refl dict) ?_ .nil
          intro stacked stacked'
          have marked : search.bindings.rollback search.bindings.mark = search.bindings := by simp
          have marked' : search'.bindings.rollback search'.bindings.mark = search'.bindings := by
            simp
          refine { twins with stacked, stacked', stack := .cons ?_ twins.stack, phase := .resume }
          exact
            { goal := rfl
              rest := rfl
              depth := rfl
              covers
              bindings := by rw [marked, marked']; exact translated
              all := by rw [marked]; exact all
              offered := by rw [marked, translated.walk]; exact twins.offer _ _ }

/-! ## Runs -/

theorem Twins.exists_seen (twins : Twins skips dict search search') (turns : Nat) :
    ∃ more next, turns ≤ more ∧ Dictionary.Extends next dict ∧
      List.Forall₂ (SameResult skips next) (search.seen turns) (search'.seen more) := by
  induction turns generalizing dict search search' with
  | zero => exact ⟨0, dict, Nat.le_refl 0, .refl dict, .nil⟩
  | succ turns ih =>
    obtain ⟨first, next, positive, extension, twins', seen⟩ := twins.catchesUp
    obtain ⟨later, last, enough, extension', seen'⟩ := ih twins'
    refine ⟨first + later, last, by omega, extension'.trans extension, ?_⟩
    show List.Forall₂ _ (search.turn.seen ++ search.turn.search.seen turns) _
    rw [Search.seen_add]
    exact List.rel_append (seen.imp fun _ _ same => same.extend extension') seen'

theorem twins_start {offer offer' : Term → List Clause} (goals : List Term) (limits : Limits)
    (π : Equiv.Perm Symbol) (unlimited : skips → limits.maxSteps = none)
    (offered : ∀ (π : Equiv.Perm Symbol) t, Offered skips t (offer t) (offer' (t.rename π))) :
    Twins skips { names := fun x => x ∈ Term.varsAll goals, perm := π }
      (.start offer goals limits) (.start offer' (goals.map (Term.rename π)) limits) := by
  have vars : Term.varsAll (goals.map (Term.rename π)) = (Term.varsAll goals).map π :=
    Term.varsAll_rename fun _ _ _ _ same => π.injective same
  exact
    { names := by
        intro x known
        refine ⟨.inl known, .inl ?_⟩
        show π x ∈ Term.varsAll (goals.map (Term.rename π))
        rw [vars]
        exact List.mem_map_of_mem known
      asked := fun _ member => member
      queryVars := vars
      limits := rfl
      unlimited
      offer := offered
      steps := Nat.le_refl 0
      steps_eq := fun _ => rfl
      stacked := .start offer goals limits
      stacked' := .start offer' _ limits
      stack := .nil
      phase := .enter goals 0 (Bindings.translated_empty π) (Bindings.all_empty _)
        fun t member x occurs => Term.mem_varsAll.2 ⟨t, member, occurs⟩ }

section Calls

variable {offer : Term → List Clause} (offer' : Term → List Clause) (goals : List Term)
  (limits : Limits) (π : Equiv.Perm Symbol) (unlimited : skips → limits.maxSteps = none)
  (offered : ∀ (π : Equiv.Perm Symbol) t, Offered skips t (offer t) (offer' (t.rename π)))
include unlimited offered

/-- What is seen of the search for some goals is seen, up to names, of the search for the renamed
goals, if that one is offered the same clauses and perhaps some that do not suit. -/
theorem forall₂_seen_of_offered (turns : Nat) :
    ∃ (more : Nat) (dict : Dictionary), turns ≤ more ∧
      (∀ x ∈ Term.varsAll goals, dict.perm x = π x) ∧
      List.Forall₂ (SameResult skips dict) ((Search.start offer goals limits).seen turns)
        ((Search.start offer' (goals.map (Term.rename π)) limits).seen more) := by
  obtain ⟨more, dict, enough, extension, seen⟩ :=
    (twins_start goals limits π unlimited offered).exists_seen turns
  exact ⟨more, dict, enough, extension.2, seen⟩

/-- What calls return of the first search, calls return of the second one, up to names. -/
theorem Calls.exists_of_offered {results : List (Report × Nat)}
    (calls : Calls (.start offer goals limits) results) :
    ∃ (results' : List (Report × Nat)) (dict : Dictionary),
      Calls (.start offer' (goals.map (Term.rename π)) limits) results' ∧
      (∀ x ∈ Term.varsAll goals, dict.perm x = π x) ∧
      List.Forall₂ (SameResult skips dict) results results' := by
  obtain ⟨turns, beginning⟩ := Search.calls_iff.1 calls
  obtain ⟨more, dict, -, fixed, seen⟩ :=
    forall₂_seen_of_offered offer' goals limits π unlimited offered turns
  have begun := List.forall₂_take results.length seen
  rw [← List.prefix_iff_eq_take.1 beginning] at begun
  exact ⟨_, dict, Search.calls_iff.2 ⟨more, List.take_prefix _ _⟩, fixed, begun⟩

/-- What calls return of the second search, calls return of the first one, up to names. -/
theorem Calls.exists_of_offered' {results' : List (Report × Nat)}
    (calls : Calls (.start offer' (goals.map (Term.rename π)) limits) results') :
    ∃ (results : List (Report × Nat)) (dict : Dictionary),
      Calls (.start offer goals limits) results ∧
      (∀ x ∈ Term.varsAll goals, dict.perm x = π x) ∧
      List.Forall₂ (SameResult skips dict) results results' := by
  obtain ⟨turns, beginning⟩ := Search.calls_iff.1 calls
  obtain ⟨more, dict, enough, fixed, seen⟩ :=
    forall₂_seen_of_offered offer' goals limits π unlimited offered turns
  -- The second search has made at least as many turns, so it has seen the results, too.
  have begun := List.forall₂_take results'.length seen
  rw [← List.prefix_iff_eq_take.1 (beginning.trans (Search.seen_isPrefix _ enough))] at begun
  exact ⟨_, dict, Search.calls_iff.2 ⟨turns, List.take_prefix _ _⟩, fixed, begun⟩

end Calls

end HornLogic
