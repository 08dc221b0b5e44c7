import HornLogic.Proofs.Unification.Growth

/-!
# Bindings that can come about

Whoever works with bindings starts without any, adds entries, unifies terms and goes back to marks.
`Reached allowed` says of bindings that they come about in this way, where `allowed` says which
entries may be added by hand. Two cases matter: any entries at all, and entries under the guard that
unification puts before its own, an unbound variable and a term in which it does not occur
(`Guard`).

Going back never makes anything new. To undo the newest entry of bindings that were made entry by
entry gives the bindings before that entry. So all bindings that can be reached at all can be
reached by adding entries alone (`Built`), and what adding an entry preserves holds of them. The
index and the load are right if any entries are allowed (`Built.indexed`, `Built.loaded`), and under
the guard the bindings are acyclic (`Reached.acyclic`).
-/

namespace HornLogic.Bindings

/-- Bindings to which allowed entries were added one after another. -/
inductive Built (allowed : Bindings → Symbol → Term → Prop) : Bindings → Prop where
  | empty : Built allowed empty
  | bind {s : Bindings} {x : Symbol} {t : Term} : Built allowed s → allowed s x t →
      Built allowed (s.bind x t)

/-- Bindings that come from none by unifying terms, going back to marks and adding allowed entries.
A mark is a length of the trail, so one may go back to any mark, whenever it was taken. -/
inductive Reached (allowed : Bindings → Symbol → Term → Prop) : Bindings → Prop where
  | empty : Reached allowed empty
  | unify {s : Bindings} (t u : Term) : Reached allowed s → Reached allowed (s.unify t u).bindings
  | rollback {s : Bindings} (mark : Mark) : Reached allowed s → Reached allowed (s.rollback mark)
  | bind {s : Bindings} {x : Symbol} {t : Term} : Reached allowed s → allowed s x t →
      Reached allowed (s.bind x t)

/-- The variable is unbound and does not occur in the term. -/
def Guard (s : Bindings) (x : Symbol) (t : Term) : Prop :=
  s.lookup x = none ∧ s.occurs x t = false

/-- Any variable may be bound to any term. -/
def Unguarded (_ : Bindings) (_ : Symbol) (_ : Term) : Prop := True

variable {allowed : Bindings → Symbol → Term → Prop} {s s' : Bindings}

/-! ## Entry by entry -/

theorem Built.undoLast (built : s.Built allowed) : s.undoLast.Built allowed := by
  cases built with
  | empty => exact .empty
  | bind built _ =>
    rw [undoLast_bind]
    exact built

theorem Built.rollback (built : s.Built allowed) (mark : Mark) :
    (s.rollback mark).Built allowed := by
  unfold Bindings.rollback
  generalize s.trail.size - mark.position = count
  induction count generalizing s with
  | zero => exact built
  | succ count ih => exact ih built.undoLast

/-- Unification adds allowed entries, if every binding that it makes is allowed. -/
theorem Built.unify
    (unifying : ∀ {s : Bindings} {t u : Term} {x : Symbol}, s.Built allowed → s.walk t = .var x →
      s.occurs x (s.walk u) = false → allowed s x (s.walk u))
    (built : s.Built allowed) (t u : Term) : (s.unify t u).bindings.Built allowed := by
  have grows := unify_grows_any s t u
  generalize (s.unify t u).bindings = s' at grows
  induction grows with
  | refl => exact built
  | bind _ _ _ walked absent ih => exact .bind ih (unifying ih walked absent)

/-- What can be reached can be built entry by entry. -/
theorem Reached.built
    (unifying : ∀ {s : Bindings} {t u : Term} {x : Symbol}, s.Built allowed → s.walk t = .var x →
      s.occurs x (s.walk u) = false → allowed s x (s.walk u))
    (reached : s.Reached allowed) : s.Built allowed := by
  induction reached with
  | empty => exact .empty
  | unify t u _ ih => exact ih.unify unifying t u
  | rollback mark _ ih => exact ih.rollback mark
  | bind _ permitted ih => exact .bind ih permitted

/-! ## Any entries -/

theorem Built.indexed (built : s.Built allowed) : s.Indexed := by
  induction built with
  | empty => exact indexed_empty
  | bind _ _ ih => exact ih.bind _ _

theorem Built.loaded (built : s.Built allowed) : s.Loaded := by
  induction built with
  | empty => exact loaded_empty
  | bind _ _ ih => exact ih.bind _ _

/-- A rank is all that bindings still need to be acyclic, however they came about. -/
theorem Reached.acyclic_of_ranks (reached : s.Reached Unguarded)
    (ranked : ∃ rank, s.Ranks rank) : s.Acyclic := by
  have built : s.Built Unguarded := reached.built fun _ _ _ => trivial
  exact ⟨built.indexed, built.loaded, ranked⟩

/-! ## Guarded entries -/

theorem Built.acyclic (built : s.Built Guard) : s.Acyclic := by
  induction built with
  | empty => exact acyclic_empty
  | bind _ guard ih => exact ih.bind guard.1 guard.2

/-- Every binding that unification makes is guarded. -/
theorem Reached.guarded (reached : s.Reached Guard) : s.Built Guard := by
  apply reached.built
  intro s t u x built walked absent
  exact ⟨built.acyclic.lookup_of_walk walked, absent⟩

theorem Reached.acyclic (reached : s.Reached Guard) : s.Acyclic :=
  reached.guarded.acyclic

end HornLogic.Bindings
