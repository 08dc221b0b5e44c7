import HornLogic.Term.Basic

/-!
# The variables of a term

`Term.occurrences` lists every occurrence of a variable from left to right. `Term.collectVars`
adds the variables of a term to a list, each once, in order of first occurrence; what was
already listed keeps its place. `Term.anyVar` asks whether some variable of the term has a
property, and a term is ground when it has no variable at all. The lemmas say that all of
these are read off the occurrences.
-/

namespace HornLogic

/-- The list with a name added at its end, unless the list has the name already. -/
def addName (seen : List Symbol) (name : Symbol) : List Symbol :=
  if name ∈ seen then seen else seen ++ [name]

namespace Term

mutual

/-- The variables of a term from left to right, once for every occurrence. -/
def occurrences : Term → List Symbol
  | .atom _ => []
  | .var x => [x]
  | .compound _ args => occurrencesAll args

def occurrencesAll : List Term → List Symbol
  | [] => []
  | t :: ts => t.occurrences ++ occurrencesAll ts

end

mutual

/-- The list `seen`, followed by the variables of the term that it lacks, in order of first
occurrence. -/
def collectVars (seen : List Symbol) : Term → List Symbol
  | .atom _ => seen
  | .var x => addName seen x
  | .compound _ args => collectVarsAll seen args

def collectVarsAll (seen : List Symbol) : List Term → List Symbol
  | [] => seen
  | t :: ts => collectVarsAll (t.collectVars seen) ts

end

/-- The distinct variables of a term in order of first occurrence. -/
def vars (t : Term) : List Symbol := t.collectVars []

/-- The distinct variables of several terms in order of first occurrence. -/
def varsAll (ts : List Term) : List Symbol := collectVarsAll [] ts

mutual

/-- Whether some variable of the term has the property. -/
def anyVar (p : Symbol → Bool) : Term → Bool
  | .atom _ => false
  | .var x => p x
  | .compound _ args => anyVarAll p args

def anyVarAll (p : Symbol → Bool) : List Term → Bool
  | [] => false
  | t :: ts => t.anyVar p || anyVarAll p ts

end

/-- Whether the term has no variable. -/
def isGround (t : Term) : Bool := !t.anyVar fun _ => true

/-! ## Everything is read off the occurrences -/

@[simp] theorem occurrences_atom (name : Symbol) : (atom name).occurrences = [] := by
  rw [occurrences]

@[simp] theorem occurrences_var (x : Symbol) : (var x).occurrences = [x] := by
  rw [occurrences]

theorem occurrencesAll_eq_flatMap (ts : List Term) :
    occurrencesAll ts = ts.flatMap occurrences := by
  induction ts with
  | nil => rfl
  | cons t ts ih => simp [occurrencesAll, ih]

theorem collectVarsAll_eq_foldl (seen : List Symbol) (ts : List Term) :
    collectVarsAll seen ts = ts.foldl collectVars seen := by
  induction ts generalizing seen with
  | nil => rfl
  | cons t ts ih => simp [collectVarsAll, ih]

theorem anyVarAll_eq_any (p : Symbol → Bool) (ts : List Term) :
    anyVarAll p ts = ts.any (anyVar p) := by
  induction ts with
  | nil => rfl
  | cons t ts ih => simp [anyVarAll, ih]

/-- Collecting a list of terms is collecting them as the arguments of one compound. -/
@[simp] theorem collectVars_compound (seen : List Symbol) (functor : Symbol) (args : List Term) :
    (compound functor args).collectVars seen = collectVarsAll seen args := by
  simp [collectVars]

/-- Collecting adds the occurrences one by one, passing over those already listed. -/
theorem collectVars_eq_foldl (t : Term) (seen : List Symbol) :
    t.collectVars seen = t.occurrences.foldl addName seen := by
  induction t generalizing seen with
  | atom name => simp [collectVars, occurrences]
  | var name => simp [collectVars, occurrences]
  | compound functor args ih =>
    rw [collectVars_compound, occurrences]
    induction args generalizing seen with
    | nil => rfl
    | cons t ts tail =>
      rw [collectVarsAll, occurrencesAll, List.foldl_append, ← ih t (by simp) seen]
      exact tail (fun u member => ih u (by simp [member])) (t.collectVars seen)

theorem anyVar_eq_any (p : Symbol → Bool) (t : Term) : t.anyVar p = t.occurrences.any p := by
  induction t with
  | atom name => simp [anyVar, occurrences]
  | var name => simp [anyVar, occurrences]
  | compound functor args ih =>
    rw [anyVar, occurrences]
    induction args with
    | nil => rfl
    | cons t ts tail =>
      rw [anyVarAll, occurrencesAll, List.any_append, ih t (by simp)]
      rw [tail fun u member => ih u (by simp [member])]

theorem mem_foldl_addName {x : Symbol} (names seen : List Symbol) :
    x ∈ names.foldl addName seen ↔ x ∈ seen ∨ x ∈ names := by
  induction names generalizing seen with
  | nil => simp
  | cons y ys ih =>
    rw [List.foldl_cons, ih, addName]
    split
    · rename_i known
      constructor
      · rintro (old | new) <;> simp_all
      · rintro (old | new)
        · exact .inl old
        · cases new with
          | head => exact .inl known
          | tail _ later => exact .inr later
    · simp [or_assoc]

/-- Adding names one by one appends the new ones among them, each where it occurs first. -/
theorem foldl_addName_eq (names seen : List Symbol) :
    names.foldl addName seen = seen ++ (names.filter (· ∉ seen)).eraseDups := by
  induction names generalizing seen with
  | nil => simp
  | cons x xs ih =>
    rw [List.foldl_cons, ih, addName]
    by_cases known : x ∈ seen
    · rw [if_pos known, List.filter_cons_of_neg (by simpa using known)]
    · have others : xs.filter (· ∉ seen ++ [x]) = (xs.filter (· ∉ seen)).filter (!· == x) := by
        rw [List.filter_filter]
        refine List.filter_congr fun y _ => ?_
        by_cases same : y = x <;> simp [same]
      rw [if_neg known, List.filter_cons_of_pos (by simpa using known), List.eraseDups_cons, others]
      simp

/-- Adding names never lists one a second time. -/
theorem nodup_foldl_addName {seen : List Symbol} (nodup : seen.Nodup) (names : List Symbol) :
    (names.foldl addName seen).Nodup := by
  induction names generalizing seen with
  | nil => exact nodup
  | cons x xs ih =>
    refine ih ?_
    rw [addName]
    split
    · exact nodup
    · rename_i new
      refine List.nodup_append.2 ⟨nodup, by simp, ?_⟩
      rintro y listed z last rfl
      exact new (List.mem_singleton.1 last ▸ listed)

/-- A variable is collected exactly if it was listed before or occurs in the term. -/
theorem mem_collectVars {x : Symbol} {t : Term} {seen : List Symbol} :
    x ∈ t.collectVars seen ↔ x ∈ seen ∨ x ∈ t.occurrences := by
  rw [collectVars_eq_foldl, mem_foldl_addName]

theorem mem_vars {x : Symbol} {t : Term} : x ∈ t.vars ↔ x ∈ t.occurrences := by
  simp [vars, mem_collectVars]

theorem mem_varsAll {x : Symbol} {ts : List Term} :
    x ∈ varsAll ts ↔ ∃ t ∈ ts, x ∈ t.occurrences := by
  have listed : varsAll ts = (compound "" ts).vars := by
    simp [varsAll, vars]
  rw [listed, mem_vars, occurrences, occurrencesAll_eq_flatMap, List.mem_flatMap]

/-- Collecting from several terms adds all their occurrences one by one. -/
theorem varsAll_eq_foldl (ts : List Term) :
    varsAll ts = (ts.flatMap occurrences).foldl addName [] := by
  rw [varsAll, collectVarsAll_eq_foldl, List.foldl_flatMap]
  congr 1
  funext seen t
  exact collectVars_eq_foldl t seen

/-- The variables of several terms are their occurrences without repetitions, each where it stands
first. -/
theorem varsAll_eq_eraseDups (ts : List Term) :
    varsAll ts = (ts.flatMap occurrences).eraseDups := by
  rw [varsAll_eq_foldl, foldl_addName_eq, List.nil_append, List.filter_eq_self.2 (by simp)]

theorem nodup_varsAll (ts : List Term) : (varsAll ts).Nodup := by
  rw [varsAll_eq_foldl]
  exact nodup_foldl_addName .nil _

theorem mem_varsAll_append {x : Symbol} {ts us : List Term} :
    x ∈ varsAll (ts ++ us) ↔ x ∈ varsAll ts ∨ x ∈ varsAll us := by
  simp only [mem_varsAll, List.mem_append, or_and_right, exists_or]

theorem isGround_iff (t : Term) : t.isGround = true ↔ t.occurrences = [] := by
  rw [isGround, anyVar_eq_any]
  cases t.occurrences <;> simp

end Term

end HornLogic
