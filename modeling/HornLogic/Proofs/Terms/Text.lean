import Mathlib.Data.List.TakeWhile
import HornLogic.Term.Text
import HornLogic.Term.Instantiate

/-!
# What the text of a term tells

A name may be any text, so two terms can have one text: an atom whose name is `a, b` is written like
the two arguments `a` and `b`. But if names are not empty and have no brackets and no commas
(`Plain`), the text of a term tells everything about it except which of the names stand for
variables (`text_eq_text_iff`).

To read a term one has to know where it ends. What follows a term in a larger text is a comma or a
closing bracket, or nothing (`Follows`). So a name ends where the first delimiter stands
(`name_append_inj`). An opening bracket there begins arguments, and anything else ends the term.
Hence a text that begins with a term determines the term and what follows it (`Plain.readable`).
-/

namespace HornLogic

/-- The characters that show the structure of a term. -/
def delimiters : List Char := ['(', ')', ',']

/-- The name is not empty and has no delimiter in it. -/
def PlainName (name : Symbol) : Prop :=
  name ≠ "" ∧ ∀ c ∈ name.toList, c ∉ delimiters

instance (name : Symbol) : Decidable (PlainName name) :=
  decidable_of_iff (name ≠ "" ∧ name.toList.all (fun c => !delimiters.contains c) = true)
    (by simp [PlainName])

namespace Term

mutual

/-- The names of all atoms, variables and functors, from left to right. -/
def names : Term → List Symbol
  | .atom name => [name]
  | .var name => [name]
  | .compound functor args => functor :: namesAll args

def namesAll : List Term → List Symbol
  | [] => []
  | t :: ts => t.names ++ namesAll ts

end

/-- All names in the term are plain. -/
def Plain (t : Term) : Prop := ∀ name ∈ t.names, PlainName name

instance (t : Term) : Decidable t.Plain :=
  decidable_of_iff (t.names.all (fun name => decide (PlainName name)) = true) (by simp [Plain])

/-- What is written after the name: nothing, or the arguments in brackets. -/
def textAfterName : Term → List Char
  | .compound _ args => '(' :: ((commaSeparated args).toList ++ [')'])
  | _ => []

/-- What may follow a term in a larger text. -/
def Follows (rest : List Char) : Prop := ∀ c ∈ rest.head?, c = ')' ∨ c = ','

variable {t u : Term} {rest rest' : List Char}

theorem namesAll_eq_flatMap (ts : List Term) : namesAll ts = ts.flatMap names := by
  induction ts with
  | nil => rfl
  | cons t ts ih => simp [namesAll, ih]

theorem name_mem_names (t : Term) : t.name ∈ t.names := by
  cases t <;> simp [name, names]

theorem Plain.name (plain : t.Plain) : PlainName t.name :=
  plain t.name t.name_mem_names

theorem Plain.arg {functor : Symbol} {args : List Term} (plain : (compound functor args).Plain)
    {arg : Term} (member : arg ∈ args) : arg.Plain := by
  intro name inArg
  refine plain name ?_
  rw [names, namesAll_eq_flatMap]
  exact List.mem_cons_of_mem _ (List.mem_flatMap.2 ⟨arg, member, inArg⟩)

/-! ## Variables are written like atoms -/

/-- The text does not change if variables become atoms. -/
theorem text_instantiate_atom (t : Term) : (t.instantiate .atom).text = t.text := by
  induction t with
  | atom name => simp
  | var name => simp
  | compound functor args ih =>
    have texts : commaSeparated (args.map (instantiate .atom)) = commaSeparated args := by
      induction args with
      | nil => rfl
      | cons arg args tail =>
        have first := ih arg List.mem_cons_self
        have others := tail fun other member => ih other (List.mem_cons_of_mem _ member)
        cases args with
        | nil => simpa using first
        | cons next more =>
          rw [List.map_cons, commaSeparated_cons _ (by simp), commaSeparated_cons _ (by simp),
            first, others]
    rw [instantiate_compound, text_compound, text_compound, texts]

/-! ## Where a name ends -/

theorem text_toList (t : Term) : t.text.toList = t.name.toList ++ t.textAfterName := by
  cases t with
  | atom a => simp [name, textAfterName]
  | var x => simp [name, textAfterName]
  | compound functor args => simp [text_compound, name, textAfterName]

theorem Follows.textAfterName (follows : Follows rest) (t : Term) :
    ∀ c ∈ (t.textAfterName ++ rest).head?, c ∈ delimiters := by
  have after (c : Char) (first : c ∈ rest.head?) : c ∈ delimiters := by
    rcases follows c first with rfl | rfl <;> decide
  cases t with
  | atom a => exact after
  | var x => exact after
  | compound functor args =>
    rintro _ ⟨⟩
    decide

/-- The letters up to the first delimiter are the name. -/
theorem takeWhile_name {name : Symbol} (plain : PlainName name)
    (ends : ∀ c ∈ rest.head?, c ∈ delimiters) :
    (name.toList ++ rest).takeWhile (· ∉ delimiters) = name.toList := by
  rw [List.takeWhile_append_of_pos fun c member => by simpa using plain.2 c member]
  cases rest with
  | nil => simp
  | cons c rest =>
    have delimiter : c ∈ delimiters := ends c rfl
    rw [List.takeWhile_cons_of_neg (by simpa using delimiter), List.append_nil]

/-- A plain name and what follows it can be told apart. -/
theorem name_append_inj {a b : Symbol} (plainA : PlainName a) (plainB : PlainName b)
    (ends : ∀ c ∈ rest.head?, c ∈ delimiters) (ends' : ∀ c ∈ rest'.head?, c ∈ delimiters)
    (same : a.toList ++ rest = b.toList ++ rest') : a = b ∧ rest = rest' := by
  have letters : a.toList = b.toList := by
    rw [← takeWhile_name plainA ends, same, takeWhile_name plainB ends']
  rw [letters] at same
  exact ⟨String.toList_inj.1 letters, List.append_cancel_left same⟩

/-- Two texts that begin with plain terms begin with their names. -/
theorem Plain.name_and_rest (plainT : t.Plain) (plainU : u.Plain) (follows : Follows rest)
    (follows' : Follows rest') (same : t.text.toList ++ rest = u.text.toList ++ rest') :
    t.name = u.name ∧ t.textAfterName ++ rest = u.textAfterName ++ rest' := by
  rw [text_toList, text_toList u, List.append_assoc, List.append_assoc] at same
  exact name_append_inj plainT.name plainU.name (follows.textAfterName t)
    (follows'.textAfterName u) same

/-! ## Where a term ends -/

/-- If a text begins with the term and also with another plain one, the two are the same up to
variables, and the same text follows them. -/
def Readable (t : Term) : Prop :=
  ∀ (u : Term) (rest rest' : List Char), u.Plain → Follows rest → Follows rest' →
    t.text.toList ++ rest = u.text.toList ++ rest' →
    t.instantiate .atom = u.instantiate .atom ∧ rest = rest'

/-- What is written after an argument, up to the end of the arguments and beyond. -/
def textAfterArg (rest : List Char) : List Term → List Char
  | [] => ')' :: rest
  | arg :: args => ',' :: ' ' :: ((commaSeparated (arg :: args)).toList ++ ')' :: rest)

theorem follows_textAfterArg (rest : List Char) (args : List Term) :
    Follows (textAfterArg rest args) := by
  cases args with
  | nil =>
    rintro _ ⟨⟩
    exact .inl rfl
  | cons arg args =>
    rintro _ ⟨⟩
    exact .inr rfl

theorem commaSeparated_cons_toList (t : Term) (ts : List Term) (rest : List Char) :
    (commaSeparated (t :: ts)).toList ++ ')' :: rest = t.text.toList ++ textAfterArg rest ts := by
  cases ts with
  | nil => simp [textAfterArg]
  | cons u us => simp [commaSeparated_cons t (List.cons_ne_nil u us), textAfterArg]

/-- A plain term does not begin with a closing bracket. -/
theorem Plain.text_append_ne (plain : t.Plain) (rest rest' : List Char) :
    t.text.toList ++ rest ≠ ')' :: rest' := by
  obtain ⟨nonempty, letters⟩ := plain.name
  rw [text_toList]
  cases chars : t.name.toList with
  | nil => exact absurd (String.toList_eq_nil_iff.1 chars) nonempty
  | cons c cs =>
    intro same
    obtain rfl : c = ')' := (List.cons.inj same).1
    exact letters ')' (by simp [chars]) (by decide)

/-- Arguments in brackets are readable one after another. -/
theorem commaSeparated_append_inj {ts us : List Term} (readable : ∀ t ∈ ts, t.Readable)
    (plainTs : ∀ t ∈ ts, t.Plain) (plainUs : ∀ u ∈ us, u.Plain)
    (same : (commaSeparated ts).toList ++ ')' :: rest =
      (commaSeparated us).toList ++ ')' :: rest') :
    ts.map (instantiate .atom) = us.map (instantiate .atom) ∧ rest = rest' := by
  induction ts generalizing us with
  | nil =>
    cases us with
    | nil => exact ⟨rfl, (List.cons.inj same).2⟩
    | cons u us =>
      rw [commaSeparated_cons_toList] at same
      exact absurd same.symm ((plainUs u List.mem_cons_self).text_append_ne _ _)
  | cons t ts ih =>
    rw [List.forall_mem_cons] at readable plainTs
    rw [commaSeparated_cons_toList] at same
    cases us with
    | nil => exact absurd same (plainTs.1.text_append_ne _ _)
    | cons u us =>
      rw [List.forall_mem_cons] at plainUs
      rw [commaSeparated_cons_toList] at same
      obtain ⟨first, after⟩ := readable.1 u _ _ plainUs.1 (follows_textAfterArg _ ts)
        (follows_textAfterArg _ us) same
      -- After the first argument both lists are at their end, or both go on with a comma.
      have others : ts.map (instantiate .atom) = us.map (instantiate .atom) ∧ rest = rest' := by
        cases ts with
        | nil =>
          cases us with
          | nil => exact ⟨rfl, (List.cons.inj after).2⟩
          | cons v vs => simp [textAfterArg] at after
        | cons v vs =>
          cases us with
          | nil => simp [textAfterArg] at after
          | cons w ws =>
            simp only [textAfterArg, List.cons.injEq, true_and] at after
            exact ih readable.2 plainTs.2 plainUs.2 after
      rw [List.map_cons, List.map_cons, first, others.1]
      exact ⟨rfl, others.2⟩

/-- A term after whose name no bracket is opened is an atom or a variable. -/
theorem leaf_of_follows (follows : Follows (t.textAfterName ++ rest)) :
    t.textAfterName = [] ∧ t.instantiate .atom = .atom t.name := by
  cases t with
  | atom a => simp [textAfterName, name]
  | var x => simp [textAfterName, name]
  | compound functor args =>
    rcases follows '(' rfl with bracket | bracket <;> contradiction

/-- A text that begins with a plain term determines this term, up to variables, and where it
ends. -/
theorem Plain.readable (plain : t.Plain) : t.Readable := by
  induction t with
  | atom a =>
    intro u rest rest' plainU follows follows' same
    obtain ⟨rfl, rfl⟩ := plain.name_and_rest plainU follows follows' same
    obtain ⟨nothing, leaf⟩ := leaf_of_follows follows
    exact ⟨by rw [leaf, instantiate_atom], by rw [nothing, List.nil_append]⟩
  | var x =>
    intro u rest rest' plainU follows follows' same
    obtain ⟨rfl, rfl⟩ := plain.name_and_rest plainU follows follows' same
    obtain ⟨nothing, leaf⟩ := leaf_of_follows follows
    exact ⟨by rw [leaf, instantiate_var], by rw [nothing, List.nil_append]⟩
  | compound f ts ih =>
    intro u rest rest' plainU follows follows' same
    obtain ⟨names, after⟩ := plain.name_and_rest plainU follows follows' same
    cases u with
    | compound g us =>
      obtain rfl : f = g := names
      simp only [textAfterName, List.cons_append, List.cons.injEq, true_and,
        List.append_assoc, List.nil_append] at after
      have readable : ∀ t ∈ ts, t.Readable := fun t member => ih t member (plain.arg member)
      obtain ⟨args, ends⟩ := commaSeparated_append_inj readable
        (fun t member => plain.arg member) (fun u member => plainU.arg member) after
      rw [instantiate_compound, instantiate_compound, args]
      exact ⟨rfl, ends⟩
    | _ =>
      have opened : Follows ((compound f ts).textAfterName ++ rest) := after ▸ follows'
      exact absurd (leaf_of_follows opened).1 (List.cons_ne_nil _ _)

/-- If all names in two terms are plain, the terms have one text exactly if they are the same once
every variable is replaced by the atom of its name. -/
theorem text_eq_text_iff (plainT : t.Plain) (plainU : u.Plain) :
    t.text = u.text ↔ t.instantiate .atom = u.instantiate .atom := by
  constructor
  · intro same
    have nothing : Follows [] := nofun
    exact (plainT.readable u [] [] plainU nothing nothing (by rw [same])).1
  · intro same
    rw [← text_instantiate_atom t, same, text_instantiate_atom]

/-- Blanks may stand in names, and a compound may have no arguments. -/
theorem text_eq_text_iff_blank :
    let t := compound "f" [.var " X", .compound "g" [], .compound "h " [.atom "a b"]]
    let u := compound "f" [.atom " X", .compound "g" [], .compound "h " [.var "a b"]]
    t.Plain ∧ u.Plain ∧ t.text = u.text ∧ t.instantiate .atom = u.instantiate .atom := by
  intro t u
  have plainT : t.Plain := by decide +kernel
  have plainU : u.Plain := by decide +kernel
  have same : t.text = u.text := by decide +kernel
  exact ⟨plainT, plainU, same, (text_eq_text_iff plainT plainU).1 same⟩

/-- With an empty name or a comma in a name, different terms have one text. -/
example : (compound "f" [.atom ""]).text = (compound "f" []).text ∧
    (compound "f" [.atom "a, b"]).text = (compound "f" [.atom "a", .atom "b"]).text := by
  decide +kernel

end Term

end HornLogic
