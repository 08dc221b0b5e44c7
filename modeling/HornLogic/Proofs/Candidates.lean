import HornLogic.Proofs.PredicateIndex

/-!
# The candidates for a goal

Clauses come into a knowledge base one at a time or several at once, and a knowledge base can be
made of a list of clauses. However this was done, it is determined by its clauses in their order
(`Built.eq_ofClauses`). So its index is right: each predicate has exactly the positions of its
clauses, in increasing order. The head of a clause is no variable, so it belongs to one predicate,
and each position is listed once in the whole index.

A goal is therefore offered the positions of all clauses that suit it, each once and in order
(`candidates_of_built`).
-/

namespace HornLogic.KnowledgeBase

/-- Knowledge bases that are made by adding clauses to the empty one, one at a time or several, or
by collecting clauses. -/
inductive Built : KnowledgeBase → Prop where
  | empty : Built empty
  | add {kb : KnowledgeBase} (clause : Clause) : Built kb → Built (kb.add clause)
  | extend {kb : KnowledgeBase} (clauses : List Clause) : Built kb → Built (kb.addAll clauses)
  | collect (clauses : List Clause) : Built (ofClauses clauses)

variable {kb : KnowledgeBase} {predicate : Predicate} {position : Nat} {goal : Term}

theorem add_ofClauses (clauses : List Clause) (clause : Clause) :
    (ofClauses clauses).add clause = ofClauses (clauses ++ [clause]) := by
  simp [ofClauses, addAll]

theorem addAll_ofClauses (clauses more : List Clause) :
    (ofClauses clauses).addAll more = ofClauses (clauses ++ more) := by
  simp [ofClauses, addAll]

/-- The clauses and their order determine a knowledge base. -/
theorem Built.eq_ofClauses (built : kb.Built) : ofClauses kb.clauses.toList = kb := by
  induction built with
  | empty => rfl
  | @add kb clause _ ih =>
    rw [clauses_add, Array.toList_push, ← add_ofClauses, ih]
  | @extend kb clauses _ ih =>
    rw [toList_clauses_addAll, ← addAll_ofClauses, ih]
  | collect clauses => rw [toList_clauses_ofClauses]

theorem Built.indexed (built : kb.Built) : kb.Indexed :=
  built.eq_ofClauses ▸ indexed_ofClauses kb.clauses.toList

/-! ## Positions -/

theorem predicateAt_eq_some_iff : kb.predicateAt position = some predicate ↔
    ∃ clause, kb.clauses[position]? = some clause ∧ clause.head.predicate? = some predicate := by
  rw [predicateAt, Option.bind_eq_some_iff]

/-- Every clause belongs to a predicate. -/
theorem exists_predicateAt (inRange : position < kb.size) :
    ∃ predicate, kb.predicateAt position = some predicate := by
  obtain ⟨clause, atPosition⟩ : ∃ clause, kb.clauses[position]? = some clause :=
    ⟨_, Array.getElem?_eq_getElem inRange⟩
  cases own : clause.head.predicate? with
  | none =>
    rw [Term.predicate?_eq_none_iff, clause.head_not_var] at own
    contradiction
  | some predicate => exact ⟨predicate, predicateAt_eq_some_iff.2 ⟨clause, atPosition, own⟩⟩

theorem lt_size_of_getElem? {clause : Clause} (found : kb.clauses[position]? = some clause) :
    position < kb.size :=
  (Array.getElem?_eq_some_iff.1 found).1

namespace Indexed

theorem mem_bucket (indexed : kb.Indexed) :
    position ∈ (kb.bucket predicate).toList ↔ kb.predicateAt position = some predicate := by
  rw [indexed predicate, List.mem_filter, List.mem_range, beq_iff_eq, and_iff_right_iff_imp]
  intro own
  obtain ⟨clause, found, -⟩ := predicateAt_eq_some_iff.1 own
  exact lt_size_of_getElem? found

theorem bucket_increasing (indexed : kb.Indexed) (predicate : Predicate) :
    (kb.bucket predicate).toList.Pairwise (· < ·) := by
  rw [indexed predicate]
  exact List.pairwise_lt_range.filter _

/-- Every position is in the bucket of one predicate and in no other. -/
theorem existsUnique_bucket (indexed : kb.Indexed) (inRange : position < kb.size) :
    ∃! predicate, position ∈ (kb.bucket predicate).toList := by
  obtain ⟨predicate, own⟩ := exists_predicateAt inRange
  refine ⟨predicate, indexed.mem_bucket.2 own, fun other member => ?_⟩
  exact Option.some.inj ((indexed.mem_bucket.1 member).symm.trans own)

theorem candidates_increasing (indexed : kb.Indexed) (goal : Term) :
    (kb.candidates goal).Pairwise (· < ·) := by
  unfold candidates
  split
  · exact indexed.bucket_increasing _
  · exact List.pairwise_lt_range

theorem mem_candidates (indexed : kb.Indexed) :
    position ∈ kb.candidates goal ↔
      ∃ clause, kb.clauses[position]? = some clause ∧ clause.suits goal = true := by
  cases key : goal.predicate? with
  | some predicate =>
    simp only [candidates, key, indexed.mem_bucket, predicateAt_eq_some_iff, Clause.suits,
      beq_iff_eq]
  | none =>
    -- Every clause suits a variable.
    simp only [candidates, key, List.mem_range, Clause.suits, and_true]
    constructor
    · intro inRange
      exact ⟨_, Array.getElem?_eq_getElem inRange⟩
    · rintro ⟨clause, found⟩
      exact lt_size_of_getElem? found

end Indexed

/-- The index of a knowledge base is right, however the knowledge base was made. A clause can be
made with any head but a variable. The bucket of a predicate has the positions of its clauses and no
others, in increasing order, and each position is in one bucket only. So the candidates for a goal
are the positions of the clauses of its predicate, or of all clauses if the goal is a variable,
each once and in order. To collect the clauses gives the same knowledge base again. -/
theorem candidates_of_built (built : kb.Built) :
    (∀ head body, (∃ clause, Clause.rule head body = .ok clause) ↔ head.isVar = false) ∧
    (∀ predicate, (kb.bucket predicate).toList.Pairwise (· < ·) ∧
      ∀ position, position ∈ (kb.bucket predicate).toList ↔
        ∃ clause, kb.clauses[position]? = some clause ∧
          clause.head.predicate? = some predicate) ∧
    (∀ position < kb.size, ∃! predicate, position ∈ (kb.bucket predicate).toList) ∧
    (∀ goal, (kb.candidates goal).Pairwise (· < ·) ∧
      ∀ position, position ∈ kb.candidates goal ↔
        ∃ clause, kb.clauses[position]? = some clause ∧ clause.suits goal = true) ∧
    (∀ x, kb.candidates (.var x) = List.range kb.size) ∧
    (∀ goal predicate, goal.predicate? = some predicate →
      (∀ clause ∈ kb.clauses, clause.head.predicate? ≠ some predicate) →
      kb.candidates goal = []) ∧
    ofClauses kb.clauses.toList = kb := by
  have indexed := built.indexed
  refine ⟨?_, ?_, ?_, ?_, fun _ => rfl, ?_, built.eq_ofClauses⟩
  · intro head body
    constructor
    · rintro ⟨clause, accepted⟩
      rw [← ((Clause.rule_eq_ok_iff head body clause).1 accepted).1]
      exact clause.head_not_var
    · intro notVar
      exact ⟨⟨head, body, notVar⟩, (Clause.rule_eq_ok_iff head body _).2 ⟨rfl, rfl⟩⟩
  · intro predicate
    refine ⟨indexed.bucket_increasing predicate, fun position => ?_⟩
    rw [indexed.mem_bucket, predicateAt_eq_some_iff]
  · exact fun position inRange => indexed.existsUnique_bucket inRange
  · exact fun goal => ⟨indexed.candidates_increasing goal, fun position => indexed.mem_candidates⟩
  · intro goal predicate key unknown
    rw [List.eq_nil_iff_forall_not_mem]
    intro position member
    obtain ⟨clause, found, suits⟩ := indexed.mem_candidates.1 member
    have own : clause.head.predicate? = some predicate := by
      simpa [Clause.suits, key] using suits
    exact unknown clause (Array.mem_of_getElem? found) own

/-- A knowledge base with clauses for `p` without arguments, two of which are atoms and one is a
compound, and with clauses for `p` with one and two arguments. -/
theorem candidates_of_built_p :
    let p (args : List Term) : Clause := .ofParts "p" args []
    let compound : Clause := { head := .compound "p" [], body := [], head_not_var := rfl }
    let kb := ((ofClauses [p [], p [.var "X"]]).add compound).addAll [p [.atom "a", .var "X"], p []]
    kb.candidates (.atom "p") = [0, 2, 4] ∧ kb.candidates (.compound "p" [.atom "b"]) = [1] ∧
      (∃! predicate, 2 ∈ (kb.bucket predicate).toList) ∧
      kb.candidates (.compound "p" [.var "X", .var "Y", .var "Z"]) = [] ∧
      ofClauses kb.clauses.toList = kb := by
  intro p compound kb
  have built : kb.Built := .extend _ (.add compound (.collect _))
  obtain ⟨-, -, unique, -, -, unknown, collected⟩ := candidates_of_built built
  refine ⟨by decide +kernel, by decide +kernel, unique 2 (by decide +kernel), ?_, collected⟩
  exact unknown _ ⟨"p", 3⟩ rfl (by decide +kernel)

end HornLogic.KnowledgeBase
