import HornLogic.Proofs.Bindings.Reached

/-!
# Going back is exact

The trail says what the index has to be: for each variable the position of its newest entry. The
same holds of what an entry remembers, which is the position of the newest entry for its variable
among the entries before it. Bindings of which both are true are `Consistent`.

All bindings that can be reached were built entry by entry (`Reached.built`), and a new entry keeps
bindings consistent. So they stay consistent whatever is bound, however often the same variable, and
to whatever mark one goes back, in whatever order (`consistent_of_reached`).

A mark is a length of the trail. Going back to it gives the bindings that were marked, unless
the trail was shorter than that at some time since (`Uncut`). Each operation adds entries on top of
the marked ones or takes away some that were added since, so the rollback to the mark does not see
it (`Uncut.rollback_mark`).
-/

namespace HornLogic.Bindings

/-! ## What the index has to be -/

/-- The position of the newest entry for the variable among the first entries of a trail, as many
as counted, if there is any. -/
inductive Newest (trail : Array Binding) (count : Nat) (x : Symbol) : Option Nat → Prop where
  | found {position : Nat} {entry : Binding} : position < count → trail[position]? = some entry →
      entry.var = x →
      (∀ later other, position < later → later < count → trail[later]? = some other →
        other.var ≠ x) →
      Newest trail count x (some position)
  | absent : (∀ position other, position < count → trail[position]? = some other →
      other.var ≠ x) → Newest trail count x none

/-- The index gives for each variable the position of its newest entry, and each entry remembers the
newest one before it for the same variable. -/
structure Consistent (s : Bindings) : Prop where
  index : ∀ x, Newest s.trail s.size x s.index[x]?
  shadowed : ∀ position entry, s.trail[position]? = some entry →
    Newest s.trail position entry.var entry.shadowed

variable {trail : Array Binding} {count : Nat} {x : Symbol} {newest : Option Nat} {s s' : Bindings}

/-- An entry at the end changes nothing about those before it. -/
theorem Newest.push (known : Newest trail count x newest) (le : count ≤ trail.size)
    (entry : Binding) : Newest (trail.push entry) count x newest := by
  have before (position : Nat) (below : position < count) :
      (trail.push entry)[position]? = trail[position]? := by
    rw [Array.getElem?_push, if_neg (by omega)]
  cases known with
  | found below atPosition isFor newer =>
    refine .found below ((before _ below).trans atPosition) isFor ?_
    intro later other above belowCount atLater
    exact newer later other above belowCount ((before later belowCount).symm.trans atLater)
  | absent missing =>
    refine .absent ?_
    intro position other below atPosition
    exact missing position other below ((before position below).symm.trans atPosition)

/-- An entry for another variable does not count. -/
theorem Newest.succ (known : Newest trail count x newest) {entry : Binding}
    (atCount : trail[count]? = some entry) (different : entry.var ≠ x) :
    Newest trail (count + 1) x newest := by
  have notFor (other : Binding) (sameEntry : trail[count]? = some other) : other.var ≠ x := by
    rw [atCount] at sameEntry
    obtain rfl := Option.some.inj sameEntry
    exact different
  cases known with
  | found below atPosition isFor newer =>
    refine .found (by omega) atPosition isFor ?_
    intro later other above belowCount atLater
    by_cases last : later = count
    · subst last
      exact notFor other atLater
    · exact newer later other above (by omega) atLater
  | absent missing =>
    refine .absent ?_
    intro position other below atPosition
    by_cases last : position = count
    · subst last
      exact notFor other atPosition
    · exact missing position other (by omega) atPosition

theorem consistent_empty : empty.Consistent := by
  constructor
  · intro x
    show Newest #[] 0 x none
    refine .absent ?_
    intro position other below
    omega
  · intro position entry atPosition
    simp [empty] at atPosition

theorem Consistent.bind (consistent : s.Consistent) (x : Symbol) (t : Term) :
    (s.bind x t).Consistent := by
  let entry : Binding :=
    { var := x, term := t, shadowed := s.index[x]?, load := s.load + t.size }
  have atEnd : (s.trail.push entry)[s.size]? = some entry := Array.getElem?_push_size
  constructor
  · intro y
    have inserted : (s.bind x t).index[y]? =
        if compare x y = .eq then some s.size else s.index[y]? :=
      Std.ExtTreeMap.getElem?_insert
    rw [inserted, trail_bind, size_bind]
    by_cases same : x = y
    · rw [if_pos (by simpa using same)]
      refine .found (Nat.lt_succ_self _) atEnd same ?_
      intro later other above below
      omega
    · rw [if_neg (by simpa using same)]
      exact ((consistent.index y).push (Nat.le_refl _) entry).succ atEnd same
  · intro position other atPosition
    rw [trail_bind, Array.getElem?_push] at atPosition
    rw [trail_bind]
    by_cases last : position = s.trail.size
    · rw [if_pos last] at atPosition
      obtain rfl : entry = other := Option.some.inj atPosition
      subst last
      exact (consistent.index x).push (Nat.le_refl _) entry
    · rw [if_neg last] at atPosition
      have inRange : position < s.trail.size := (Array.getElem?_eq_some_iff.1 atPosition).1
      exact (consistent.shadowed position other atPosition).push (Nat.le_of_lt inRange) entry

variable {allowed : Bindings → Symbol → Term → Prop}

theorem Built.consistent (built : s.Built allowed) : s.Consistent := by
  induction built with
  | empty => exact consistent_empty
  | bind _ _ ih => exact ih.bind _ _

/-- A look-up finds the last of all entries for the variable. -/
theorem Built.lookup_eq (built : s.Built allowed) (x : Symbol) :
    s.lookup x = s.entries.reverse.lookup x := by
  induction built with
  | empty => exact lookup_empty x
  | @bind s y t built _ ih =>
    have newest : (s.bind y t).entries.reverse = (y, t) :: s.entries.reverse := by
      simp [entries]
    rw [lookup_bind built.indexed, newest, List.lookup_cons]
    by_cases same : x = y
    · simp [same]
    · rw [if_neg same, beq_false_of_ne same]
      exact ih

/-- If only unbound variables are bound, no variable is bound twice. -/
theorem Built.nodup (built : s.Built Guard) : (s.entries.map Prod.fst).Nodup := by
  induction built with
  | empty => exact .nil
  | @bind s x t built guard ih =>
    have entries : (s.bind x t).entries = s.entries ++ [(x, t)] := by simp [entries]
    have unbound := guard.1
    rw [built.lookup_eq, List.lookup_eq_none_iff] at unbound
    rw [entries, List.map_append, List.nodup_append']
    refine ⟨ih, List.nodup_singleton x, fun y earlier last => ?_⟩
    obtain ⟨entry, member, rfl⟩ := List.mem_map.1 earlier
    obtain rfl := List.mem_singleton.1 last
    simpa using unbound entry (List.mem_reverse.2 member)

/-! ## Going back to a mark -/

/-- Bindings that come from marked ones by operations none of which made the trail shorter than it
was when it was marked. -/
inductive Uncut (marked : Bindings) : Bindings → Prop where
  | refl : Uncut marked marked
  | bind {s : Bindings} (x : Symbol) (t : Term) : Uncut marked s → Uncut marked (s.bind x t)
  | unify {s : Bindings} (t u : Term) : Uncut marked s → Uncut marked (s.unify t u).bindings
  | rollback {s : Bindings} (mark : Mark) : Uncut marked s →
      marked.size ≤ (s.rollback mark).size → Uncut marked (s.rollback mark)

theorem Uncut.size_le (uncut : s.Uncut s') : s.size ≤ s'.size := by
  induction uncut with
  | refl => exact Nat.le_refl _
  | bind x t _ ih =>
    rw [size_bind]
    omega
  | unify t u _ ih => exact Nat.le_trans ih (unify_grows_any _ t u).size_le
  | rollback mark _ long _ => exact long

/-- Going back to the mark gives back the marked bindings. -/
theorem Uncut.rollback_mark (uncut : s.Uncut s') : s'.rollback s.mark = s := by
  induction uncut with
  | refl => exact Bindings.rollback_mark s
  | bind x t uncut ih =>
    have below : s.mark.position ≤ _ := uncut.size_le
    rw [rollback_bind below]
    exact ih
  | unify t u uncut ih =>
    have below : s.mark.position ≤ _ := uncut.size_le
    rw [(unify_grows_any _ t u).rollback_of_le below]
    exact ih
  | @rollback s' mark uncut long ih =>
    -- The mark in between is no further back, so one may pass over it.
    rw [size_rollback] at long
    have later : s.mark.position ≤ mark.position := by
      show s.size ≤ mark.position
      omega
    rw [rollback_rollback later]
    exact ih

/-- In all bindings that come about by binding any variables to any terms, unifying and going back
to any marks, trail and index belong together: the index has the position of the newest entry of
each variable on the trail, each entry has that of the one it shadows, and a look-up finds the last
entry. Going back to a mark leaves the entries before it, with the index that belongs to them. If
the trail has not been cut below the mark, it gives back the bindings that were marked, and so
all that is computed from them. Bindings are values, so a copy of them has a history of its own. -/
theorem consistent_of_reached (reached : s.Reached Unguarded) :
    s.Consistent ∧ (∀ x, s.lookup x = s.entries.reverse.lookup x) ∧
    (∀ mark, (s.rollback mark).trail = s.trail.take (min s.size mark.position) ∧
      (s.rollback mark).Consistent) ∧
    ∀ s', s.Uncut s' → s'.rollback s.mark = s := by
  have built : s.Built Unguarded := reached.built fun _ _ _ => trivial
  refine ⟨built.consistent, built.lookup_eq, ?_, fun _ uncut => uncut.rollback_mark⟩
  intro mark
  exact ⟨trail_rollback s mark, (built.rollback mark).consistent⟩

/-- The variable `X` is bound twice, and again after a mark beyond the end of the trail was gone
back to. -/
theorem consistent_of_reached_twice :
    let marked := (empty.bind "X" (.atom "a")).bind "X" (.var "Y")
    let later := ((marked.bind "X" (.atom "b")).rollback ⟨7⟩).bind "Y" (.atom "c")
    marked.entries = [("X", .atom "a"), ("X", .var "Y")] ∧ marked.lookup "X" = some (.var "Y") ∧
      later.entries = marked.entries ++ [("X", .atom "b"), ("Y", .atom "c")] ∧
      marked.Consistent ∧ later.rollback marked.mark = marked := by
  intro marked later
  have reached : marked.Reached Unguarded := .bind (.bind .empty trivial) trivial
  have uncut : marked.Uncut later :=
    .bind "Y" (.atom "c") (.rollback ⟨7⟩ (.bind "X" (.atom "b") .refl) (by decide +kernel))
  obtain ⟨consistent, -, -, restored⟩ := consistent_of_reached reached
  exact ⟨by decide +kernel, by decide +kernel, by decide +kernel, consistent, restored later uncut⟩

end HornLogic.Bindings
