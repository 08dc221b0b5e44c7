import Std.Data.ExtTreeMap.Lemmas
import Mathlib.Algebra.Order.BigOperators.Group.List
import Mathlib.Algebra.Order.Group.Nat
import Mathlib.Algebra.GroupWithZero.Nat
import HornLogic.Bindings.Resolve

/-!
# The trail and its index

Two facts about the trail carry everything that is said about bindings later on.

* Undoing the newest entry gives back exactly the bindings it was added to, the index included,
  because an entry remembers what it shadowed (`undoLast_bind`). Taking an entry away therefore
  needs no assumption on the entries below it.
* A look-up after an entry was added finds the new term for the variable bound and the old one
  for every other variable (`lookup_bind`). This does need the index to be right: `Indexed` says
  that each position in it is the position of an entry for its variable. The bindings without
  entries have this property, and adding entries keeps it.

`Loaded` says that the load is what it is meant to be, the sizes of all terms on the trail added
up. `All` says that a property of terms holds of all that stands on the trail. It is the shape in
which a search says where the variables of its bindings come from.
-/

namespace HornLogic.Bindings

@[simp] theorem size_bind (s : Bindings) (x : Symbol) (t : Term) :
    (s.bind x t).size = s.size + 1 := by
  simp [size]

@[simp] theorem lookup_empty (x : Symbol) : empty.lookup x = none := by
  simp [lookup, empty]

/-! ## Undoing -/

/-- Taking the newest entry away gives back the bindings it was added to. -/
theorem undoLast_bind (s : Bindings) (x : Symbol) (t : Term) : (s.bind x t).undoLast = s := by
  unfold undoLast
  rw [trail_bind, Array.back?_push]
  obtain ⟨trail, index⟩ := s
  show Bindings.mk _ _ = Bindings.mk _ _
  congr 1
  · simp
  · apply Std.ExtTreeMap.ext_getElem?
    intro y
    by_cases same : x = y
    · subst same
      cases shadowed : index[x]? with
      | none => simp [bind]
      | some position => simp [bind]
    · have different : compare x y ≠ .eq := by simpa using same
      cases shadowed : index[x]? with
      | none =>
        simp [bind, Std.ExtTreeMap.getElem?_erase, Std.ExtTreeMap.getElem?_insert, different]
      | some position => simp [bind, Std.ExtTreeMap.getElem?_insert, different]

/-- A rollback takes a new entry away first, if the mark is below it. -/
theorem rollback_bind {s : Bindings} {mark : Mark} (below : mark.position ≤ s.size)
    (x : Symbol) (t : Term) : (s.bind x t).rollback mark = s.rollback mark := by
  have count : (s.bind x t).trail.size - mark.position = s.trail.size - mark.position + 1 := by
    unfold size at below
    simp only [trail_bind, Array.size_push]
    omega
  rw [rollback, count, undo, undoLast_bind, rollback]

theorem undo_undo (count more : Nat) (s : Bindings) :
    undo more (undo count s) = undo (count + more) s := by
  induction count generalizing s with
  | zero => rw [undo, Nat.zero_add]
  | succ count ih => rw [undo, ih, Nat.succ_add, undo]

@[simp] theorem size_rollback (s : Bindings) (mark : Mark) :
    (s.rollback mark).size = min s.size mark.position := by
  rw [size, trail_rollback, Array.size_extract]
  unfold size
  omega

/-- Going back further may be done in two steps. -/
theorem rollback_rollback {first last : Mark} (le : last.position ≤ first.position)
    (s : Bindings) : (s.rollback first).rollback last = s.rollback last := by
  have size := s.size_rollback first
  unfold Bindings.size at size
  have count : s.trail.size - first.position + ((s.rollback first).trail.size - last.position) =
      s.trail.size - last.position := by omega
  show undo _ (undo _ s) = undo _ s
  rw [undo_undo, ← count]

@[simp] theorem rollback_mark (s : Bindings) : s.rollback s.mark = s :=
  rollback_of_le (Nat.le_refl _)

/-! ## Looking up -/

/-- Each position in the index is the position of an entry for its variable. -/
def Indexed (s : Bindings) : Prop :=
  ∀ x position, s.index[x]? = some position →
    ∃ entry : Binding, s.trail[position]? = some entry ∧ entry.var = x

theorem indexed_empty : empty.Indexed := by
  intro x position found
  simp [empty] at found

theorem Indexed.bind {s : Bindings} (indexed : s.Indexed) (x : Symbol) (t : Term) :
    (s.bind x t).Indexed := by
  intro y position found
  have inserted : (s.index.insert x s.trail.size)[y]? = some position := found
  rw [Std.ExtTreeMap.getElem?_insert] at inserted
  rw [trail_bind]
  by_cases same : x = y
  · subst same
    simp only [Std.compare_self, if_true, Option.some.injEq] at inserted
    subst inserted
    exact ⟨_, Array.getElem?_push_size, rfl⟩
  · have different : compare x y ≠ .eq := by simpa using same
    rw [if_neg different] at inserted
    obtain ⟨entry, atPosition, isFor⟩ := indexed y position inserted
    have inRange : position < s.trail.size := (Array.getElem?_eq_some_iff.1 atPosition).1
    refine ⟨entry, ?_, isFor⟩
    rw [Array.getElem?_push, if_neg (by omega)]
    exact atPosition

/-- A look-up finds the newest entry first. -/
theorem lookup_bind {s : Bindings} (indexed : s.Indexed) (x : Symbol) (t : Term) (y : Symbol) :
    (s.bind x t).lookup y = if y = x then some t else s.lookup y := by
  have inserted : (s.bind x t).index[y]? =
      if compare x y = .eq then some s.trail.size else s.index[y]? :=
    Std.ExtTreeMap.getElem?_insert
  unfold lookup
  rw [inserted, trail_bind]
  by_cases same : y = x
  · subst same
    simp
  · have different : compare x y ≠ .eq := by simpa using Ne.symm same
    rw [if_neg different, if_neg same]
    cases found : s.index[y]? with
    | none => rfl
    | some position =>
      obtain ⟨entry, atPosition, _⟩ := indexed y position found
      have inRange : position < s.trail.size := (Array.getElem?_eq_some_iff.1 atPosition).1
      show Option.map _ _ = Option.map _ _
      rw [Array.getElem?_push, if_neg (by omega)]

theorem exists_entry_of_lookup {s : Bindings} {x : Symbol} {t : Term}
    (found : s.lookup x = some t) : ∃ entry ∈ s.trail, entry.term = t := by
  unfold lookup at found
  cases position : s.index[x]? with
  | none => simp [position] at found
  | some i =>
    rw [position] at found
    obtain ⟨entry, atPosition, rfl⟩ := Option.map_eq_some_iff.1 found
    exact ⟨entry, Array.mem_of_getElem? atPosition, rfl⟩

/-! ## The load -/

/-- The load is the sum of the sizes of the terms on the trail. -/
def Loaded (s : Bindings) : Prop :=
  s.load = (s.trail.toList.map fun entry => entry.term.size).sum

theorem loaded_empty : empty.Loaded := rfl

theorem Loaded.bind {s : Bindings} (loaded : s.Loaded) (x : Symbol) (t : Term) :
    (s.bind x t).Loaded := by
  unfold Loaded at loaded ⊢
  rw [load_bind, trail_bind, loaded]
  simp

/-- No term on the trail is larger than the load. -/
theorem Loaded.size_le {s : Bindings} (loaded : s.Loaded) {entry : Binding}
    (member : entry ∈ s.trail) : entry.term.size ≤ s.load := by
  rw [loaded]
  exact List.le_sum_of_mem (List.mem_map_of_mem (Array.mem_toList_iff.2 member))

theorem Loaded.length_le {s : Bindings} (loaded : s.Loaded) : s.size ≤ s.load := by
  rw [loaded, size, ← Array.length_toList]
  induction s.trail.toList with
  | nil => exact Nat.le_refl _
  | cons entry entries ih =>
    have positive := entry.term.size_pos
    simp only [List.length_cons, List.map_cons, List.sum_cons]
    omega

/-! ## Properties of all entries -/

/-- The property holds of every variable and of every term on the trail. -/
def All (P : Term → Prop) (s : Bindings) : Prop :=
  ∀ entry ∈ s.trail, P (.var entry.var) ∧ P entry.term

theorem all_empty (P : Term → Prop) : empty.All P := by
  intro entry member
  simp [empty] at member

theorem All.bind {P : Term → Prop} {s : Bindings} (all : s.All P) {x : Symbol} {t : Term}
    (var : P (.var x)) (term : P t) : (s.bind x t).All P := by
  intro entry member
  rw [trail_bind, Array.mem_push] at member
  rcases member with old | rfl
  · exact all entry old
  · exact ⟨var, term⟩

theorem All.imp {P Q : Term → Prop} (implies : ∀ t, P t → Q t) {s : Bindings} (all : s.All P) :
    s.All Q :=
  fun entry member => ⟨implies _ (all entry member).1, implies _ (all entry member).2⟩

theorem All.lookup {P : Term → Prop} {s : Bindings} (all : s.All P) {x : Symbol} {t : Term}
    (found : s.lookup x = some t) : P t := by
  obtain ⟨entry, member, rfl⟩ := exists_entry_of_lookup found
  exact (all entry member).2

theorem All.var_of_lookup {P : Term → Prop} {s : Bindings} (all : s.All P) (indexed : s.Indexed)
    {x : Symbol} {t : Term} (found : s.lookup x = some t) : P (.var x) := by
  unfold Bindings.lookup at found
  cases position : s.index[x]? with
  | none => simp [position] at found
  | some i =>
    obtain ⟨entry, atPosition, rfl⟩ := indexed x i position
    exact (all entry (Array.mem_of_getElem? atPosition)).1

theorem All.rollback {P : Term → Prop} {s : Bindings} (all : s.All P) (mark : Mark) :
    (s.rollback mark).All P := by
  intro entry member
  rw [trail_rollback, Array.mem_extract_iff_getElem] at member
  obtain ⟨i, inRange, rfl⟩ := member
  exact all _ (Array.getElem_mem _)

end HornLogic.Bindings
