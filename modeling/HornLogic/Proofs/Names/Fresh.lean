import Mathlib.Data.List.Nodup
import Mathlib.Data.List.Perm.Subperm
import Mathlib.Data.List.TakeWhile
import HornLogic.NameSupply

/-!
# Fresh names are new

A name supply has given out, or will never give out, the names that are `Used`: the reserved ones,
and those made of a stem without `#` and a number below the counter. What it gives out next is not
used before and is used afterwards (`not_used_fresh`, `used_fresh`), and a used name stays used
(`Used.fresh`). So no two names given out are the same, whatever they were made from.

That a name with a new number is new rests on reading a name back: its stem ends at the first `#`,
which no stem contains, and what follows are the digits of the number (`numbered_eq_iff`). That
the search for an unreserved number ends with one rests on counting: as many numbers are tried as
there are reserved names, and one more would be left.
-/

namespace HornLogic.NameSupply

/-! ## Reading a name back -/

theorem hash_not_mem_stem (name : Symbol) : '#' ∉ (stem name).toList := by
  intro member
  rw [stem, String.toList_ofList] at member
  have kept := List.mem_takeWhile_imp member
  simp at kept

/-- The stem of a numbered name is the stem that the number was added to. -/
theorem stem_numbered {base : Symbol} (plain : '#' ∉ base.toList) (number : Nat) :
    stem (numbered base number) = base := by
  have letters : ∀ c ∈ base.toList, (c != '#') = true := by
    intro c member
    have different : c ≠ '#' := fun same => plain (same ▸ member)
    simpa using different
  have cut : (base.toList ++ '#' :: (toString number).toList).takeWhile (· != '#') =
      base.toList := by
    rw [List.takeWhile_append_of_pos letters]
    simp
  have joined : (numbered base number).toList = base.toList ++ '#' :: (toString number).toList := by
    simp [numbered]
  rw [stem, joined, cut, String.ofList_toList]

/-- Stem and number can be read off a name. -/
theorem numbered_eq_iff {a b : Symbol} (plainA : '#' ∉ a.toList) (plainB : '#' ∉ b.toList)
    {m n : Nat} : numbered a m = numbered b n ↔ a = b ∧ m = n := by
  constructor
  · intro same
    have stems : a = b := by
      rw [← stem_numbered plainA m, same, stem_numbered plainB]
    subst stems
    exact ⟨rfl, numbered_inj.1 same⟩
  · rintro ⟨rfl, rfl⟩
    rfl

/-! ## Passing over reserved names -/

/-- If the number found is that of a reserved name, all numbers before it were so too. -/
theorem reserved_of_firstFree {reserved : List Symbol} {base : Symbol} {tries number : Nat}
    (taken : numbered base (firstFree reserved base tries number) ∈ reserved) :
    ∀ offset ≤ tries, numbered base (number + offset) ∈ reserved := by
  induction tries generalizing number with
  | zero =>
    intro offset atMost
    obtain rfl : offset = 0 := by omega
    exact taken
  | succ tries ih =>
    intro offset atMost
    rw [firstFree] at taken
    split at taken
    · rename_i first
      cases offset with
      | zero => exact first
      | succ offset =>
        rw [show number + (offset + 1) = number + 1 + offset by omega]
        exact ih taken offset (by omega)
    · rename_i free
      exact absurd taken free

/-- The number found is that of a name that is not reserved. -/
theorem firstFree_not_reserved (reserved : List Symbol) (base : Symbol) (number : Nat) :
    numbered base (firstFree reserved base reserved.length number) ∉ reserved := by
  intro taken
  have all := reserved_of_firstFree taken
  -- One name more than there are reserved ones would have to be reserved.
  let names := (List.range (reserved.length + 1)).map fun offset => numbered base (number + offset)
  have distinct : names.Nodup := by
    refine List.Nodup.map ?_ List.nodup_range
    intro m n same
    have numbers : number + m = number + n := numbered_inj.1 same
    omega
  have subset : names ⊆ reserved := by
    intro name member
    obtain ⟨offset, inRange, rfl⟩ := List.mem_map.1 member
    have below := List.mem_range.1 inRange
    exact all offset (by omega)
  have count := (List.subperm_of_subset distinct subset).length_le
  simp only [names, List.length_map, List.length_range] at count
  omega

/-- All numbers that were passed over are those of reserved names. -/
theorem reserved_of_lt_firstFree {reserved : List Symbol} {base : Symbol} {tries number : Nat}
    {n : Nat} (atLeast : number ≤ n) (before : n < firstFree reserved base tries number) :
    numbered base n ∈ reserved := by
  induction tries generalizing number with
  | zero =>
    rw [firstFree] at before
    omega
  | succ tries ih =>
    rw [firstFree] at before
    split at before
    · rename_i first
      by_cases here : n = number
      · rwa [here]
      · exact ih (by omega) before
    · omega

/-! ## Used names -/

/-- The name is reserved, or its number is below the counter. -/
def Used (supply : NameSupply) (x : Symbol) : Prop :=
  x ∈ supply.reserved ∨
    ∃ base number, '#' ∉ base.toList ∧ number < supply.counter ∧ x = numbered base number

theorem not_used_fresh (supply : NameSupply) (name : Symbol) :
    ¬ supply.Used (supply.fresh name).1 := by
  rintro (reserved | ⟨base, number, plain, below, same⟩)
  · exact firstFree_not_reserved _ _ _ reserved
  · have found := le_firstFree supply.reserved (stem name) supply.reserved.length supply.counter
    have numbers := ((numbered_eq_iff (hash_not_mem_stem name) plain).1 same).2
    omega

theorem used_fresh (supply : NameSupply) (name : Symbol) :
    (supply.fresh name).2.Used (supply.fresh name).1 :=
  .inr ⟨stem name, _, hash_not_mem_stem name, Nat.lt_succ_self _, rfl⟩

theorem Used.fresh {supply : NameSupply} {x : Symbol} (used : supply.Used x) (name : Symbol) :
    (supply.fresh name).2.Used x := by
  rcases used with reserved | ⟨base, number, plain, below, rfl⟩
  · exact .inl reserved
  · exact .inr ⟨base, number, plain, Nat.lt_trans below (counter_lt_fresh supply name), rfl⟩

end HornLogic.NameSupply
