import HornLogic.Bindings.Unify

/-!
# One level of unification

Unification walks both terms and does what the two results call for. `Level` lists the six things
that two walked terms can be to each other, and there is one equation for each: what a level of
unification then is. Proofs about unification go through these cases and do not open the definition.
-/

namespace HornLogic.Bindings

/-- The two terms are the same atom, or compounds that agree in functor and number of arguments. -/
def Agree : Term → Term → Prop
  | .atom a, .atom b => a = b
  | .compound f ts, .compound g us => f = g ∧ ts.length = us.length
  | _, _ => False

theorem Agree.exists_shape {t u : Term} (agree : Agree t u) :
    (∃ a, t = .atom a ∧ u = .atom a) ∨
      ∃ f ts us, t = .compound f ts ∧ u = .compound f us ∧ ts.length = us.length := by
  cases t with
  | var x => exact agree.elim
  | atom a =>
    cases u with
    | atom b =>
      obtain rfl : a = b := agree
      exact .inl ⟨a, rfl, rfl⟩
    | var y => exact agree.elim
    | compound g us => exact agree.elim
  | compound f ts =>
    cases u with
    | atom b => exact agree.elim
    | var y => exact agree.elim
    | compound g us =>
      obtain ⟨rfl, lengths⟩ : f = g ∧ ts.length = us.length := agree
      exact .inr ⟨f, ts, us, rfl, rfl, lengths⟩

/-- What two terms can be to each other under bindings. -/
inductive Level (s : Bindings) (t u : Term) : Prop where
  | same (x : Symbol) : s.walk t = .var x → s.walk u = .var x → Level s t u
  | left (x : Symbol) : s.walk t = .var x → s.walk u ≠ .var x → Level s t u
  /-- The variable on the right counts only if there is none on the left. -/
  | right (x : Symbol) : (s.walk t).isVar = false → s.walk u = .var x → Level s t u
  | atom (a : Symbol) : s.walk t = .atom a → s.walk u = .atom a → Level s t u
  | compound (f : Symbol) (ts us : List Term) : s.walk t = .compound f ts →
      s.walk u = .compound f us → ts.length = us.length → Level s t u
  | clash : (s.walk t).isVar = false → (s.walk u).isVar = false →
      ¬ Agree (s.walk t) (s.walk u) → Level s t u

theorem level (s : Bindings) (t u : Term) : Level s t u := by
  cases left : (s.walk t).isVar with
  | true =>
    obtain ⟨x, walkT⟩ := Term.isVar_iff.1 left
    by_cases walkU : s.walk u = .var x
    · exact .same x walkT walkU
    · exact .left x walkT walkU
  | false =>
    cases right : (s.walk u).isVar with
    | true =>
      obtain ⟨x, walkU⟩ := Term.isVar_iff.1 right
      exact .right x left walkU
    | false =>
      by_cases agree : Agree (s.walk t) (s.walk u)
      · rcases agree.exists_shape with ⟨a, walkT, walkU⟩ | ⟨f, ts, us, walkT, walkU, lengths⟩
        · exact .atom a walkT walkU
        · exact .compound f ts us walkT walkU lengths
      · exact .clash left right agree

variable (depth : Nat) {s : Bindings} {x : Symbol} {t u : Term}

theorem unifyWithin_same (walkT : s.walk t = .var x) (walkU : s.walk u = .var x) :
    unifyWithin (depth + 1) t u s = { bindings := s } := by
  simp [unifyWithin, walkT, walkU]

/-- A variable on the left is bound, if the other term is not the same variable. -/
theorem unifyWithin_left (walkT : s.walk t = .var x) (different : s.walk u ≠ .var x) :
    unifyWithin (depth + 1) t u s = s.bindIfAbsent x (s.walk u) := by
  unfold unifyWithin
  cases walkU : s.walk u with
  | var y =>
    have distinct : x ≠ y := by
      rintro rfl
      exact different walkU
    simp [walkT, distinct]
  | atom b => simp [walkT]
  | compound g us => simp [walkT]

theorem unifyWithin_right (nonvar : (s.walk t).isVar = false) (walkU : s.walk u = .var x) :
    unifyWithin (depth + 1) t u s = s.bindIfAbsent x (s.walk t) := by
  unfold unifyWithin
  cases walkT : s.walk t with
  | var y => simp [walkT, Term.isVar] at nonvar
  | atom b => simp [walkU]
  | compound g us => simp [walkU]

theorem unifyWithin_atom {a : Symbol} (walkT : s.walk t = .atom a) (walkU : s.walk u = .atom a) :
    unifyWithin (depth + 1) t u s = { bindings := s } := by
  simp [unifyWithin, walkT, walkU]

theorem unifyWithin_compound {f : Symbol} {ts us : List Term} (walkT : s.walk t = .compound f ts)
    (walkU : s.walk u = .compound f us) (lengths : ts.length = us.length) :
    unifyWithin (depth + 1) t u s = unifyArgs (unifyWithin depth) ts us s := by
  simp [unifyWithin, walkT, walkU, lengths]

theorem unifyWithin_clash (left : (s.walk t).isVar = false) (right : (s.walk u).isVar = false)
    (disagree : ¬ Agree (s.walk t) (s.walk u)) :
    unifyWithin (depth + 1) t u s = { bindings := s, conflict := some .clash } := by
  unfold unifyWithin
  cases walkT : s.walk t with
  | var x => simp [walkT, Term.isVar] at left
  | atom a =>
    cases walkU : s.walk u with
    | var y => simp [walkU, Term.isVar] at right
    | atom b =>
      rw [walkT, walkU] at disagree
      exact if_neg disagree
    | compound g us => rfl
  | compound f ts =>
    cases walkU : s.walk u with
    | var y => simp [walkU, Term.isVar] at right
    | atom b => rfl
    | compound g us =>
      rw [walkT, walkU] at disagree
      exact if_neg disagree

end HornLogic.Bindings
