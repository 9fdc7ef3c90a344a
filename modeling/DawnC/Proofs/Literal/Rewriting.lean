import DawnC.Proofs.Declaration
import DawnC.Proofs.Run

set_option autoImplicit false

namespace DawnC

/-- The lists are related element by element, and their counts add up. -/
inductive Counted {α : Type} (R : Nat → α → α → Prop) : Nat → List α → List α → Prop where
  | nil : Counted R 0 [] []
  | cons {m n : Nat} {a b : α} {rest rest' : List α} (first : R m a b)
      (later : Counted R n rest rest') : Counted R (m + n) (a :: rest) (b :: rest')

/-- The second text is the first with this many literals `old` rewritten to `new`. -/
inductive Rewritten (old new : String) : Nat → String → String → Prop where
  | same (text : String) : Rewritten old new 0 text text
  | literal : Rewritten old new 1 old new
  | append {m n : Nat} {first first' second second' : String}
      (front : Rewritten old new m first first') (back : Rewritten old new n second second') :
      Rewritten old new (m + n) (first ++ second) (first' ++ second')

/-- The second atom is the first, or its literal is rewritten. -/
inductive Atom.Rewritten (old new : String) : Nat → Atom → Atom → Prop where
  | same (a : Atom) : Atom.Rewritten old new 0 a a
  | literal {a : Atom} (isString : a.kind = .string) (text : a.text = old) :
      Atom.Rewritten old new 1 a { a with text := new }

def IsQuoted (text : String) : Prop := text.toList.head? = some '"'

instance (text : String) : Decidable (IsQuoted text) := inferInstanceAs (Decidable (_ = _))

namespace Counted

variable {α β : Type} {R : Nat → α → α → Prop} {S : Nat → β → β → Prop} {m n k : Nat}
  {list list' other other' : List α} {a b : α}

theorem single (related : R n a b) : Counted R n [a] [b] := .cons related .nil

theorem append (first : Counted R m list list') (second : Counted R n other other') :
    Counted R (m + n) (list ++ other) (list' ++ other') := by
  induction first with
  | nil => rwa [Nat.zero_add]
  | cons here later ih =>
      rw [Nat.add_assoc]
      exact .cons here ih

theorem reverse (counted : Counted R n list list') : Counted R n list.reverse list'.reverse := by
  induction counted with
  | nil => exact .nil
  | cons here later ih =>
      rw [List.reverse_cons, List.reverse_cons, Nat.add_comm]
      exact ih.append (.single here)

theorem map {f : α → β} (related : ∀ m a b, R m a b → S m (f a) (f b))
    (counted : Counted R n list list') : Counted S n (list.map f) (list'.map f) := by
  induction counted with
  | nil => exact .nil
  | cons here later ih => exact .cons (related _ _ _ here) ih

theorem isEmpty_eq (counted : Counted R n list list') : list.isEmpty = list'.isEmpty := by
  cases counted <;> rfl

theorem zero_of_isEmpty (counted : Counted R n list list') (empty : list.isEmpty = true) : n = 0 := by
  cases counted with
  | nil => rfl
  | cons here later => cases empty

theorem split (counted : Counted R n list list') (k : Nat) :
    ∃ m r, m + r = n ∧ Counted R m (list.take k) (list'.take k) ∧
      Counted R r (list.drop k) (list'.drop k) := by
  induction counted generalizing k with
  | nil => exact ⟨0, 0, rfl, by simpa using .nil, by simpa using .nil⟩
  | @cons first n a b rest rest' here later ih =>
      cases k with
      | zero => exact ⟨0, first + n, by omega, .nil, .cons here later⟩
      | succ k =>
          obtain ⟨m, r, total, taken, left⟩ := ih k
          exact ⟨first + m, r, by omega, .cons here taken, left⟩

/-- Tests that agree on related elements stop at the same place. -/
theorem length_takeWhile {p q : α → Bool} (same : ∀ m a b, R m a b → p a = q b)
    (counted : Counted R n list list') :
    (list.takeWhile p).length = (list'.takeWhile q).length := by
  induction counted with
  | nil => rfl
  | cons here later ih =>
      rw [List.takeWhile_cons, List.takeWhile_cons, ← same _ _ _ here]
      split
      · rw [List.length_cons, List.length_cons, ih]
      · rfl

theorem eq_of_zero (same : ∀ a b, R 0 a b → a = b) (counted : Counted R 0 list list') :
    list = list' := by
  generalize none : 0 = n at counted
  induction counted with
  | nil => rfl
  | @cons m n a b rest rest' here later ih =>
      have first : m = 0 := by omega
      have second : 0 = n := by omega
      subst first
      rw [same a b here, ih second]

theorem one (same : ∀ a b, R 0 a b → a = b) (counted : Counted R 1 list list') :
    ∃ front back a b, list = front ++ a :: back ∧ list' = front ++ b :: back ∧ R 1 a b := by
  generalize single : 1 = n at counted
  induction counted with
  | nil => cases single
  | @cons m n a b rest rest' here later ih =>
      rcases Nat.eq_zero_or_pos m with rfl | positive
      · rw [Nat.zero_add] at single ⊢
        obtain ⟨front, back, x, y, shape, shape', found⟩ := ih single
        exact ⟨a :: front, back, x, y, by rw [shape]; rfl, by rw [shape', same a b here]; rfl, found⟩
      · have first : m = 1 := by omega
        have second : n = 0 := by omega
        subst first second
        exact ⟨[], rest, a, b, rfl, by rw [later.eq_of_zero same]; rfl, here⟩

end Counted

namespace Rewritten

variable {old new : String} {m n : Nat} {text text' : String} {texts texts' : List String}

theorem eq_of_zero (rewritten : Rewritten old new 0 text text') : text = text' := by
  generalize none : 0 = n at rewritten
  induction rewritten with
  | same => rfl
  | literal => cases none
  | append _ _ first second => rw [first (by omega), second (by omega)]

theorem one (rewritten : Rewritten old new 1 text text') :
    ∃ front back, text = front ++ old ++ back ∧ text' = front ++ new ++ back := by
  generalize single : 1 = n at rewritten
  induction rewritten with
  | same => cases single
  | literal => exact ⟨"", "", by simp, by simp⟩
  | @append m n first first' second second' front back ihFront ihBack =>
      rcases Nat.eq_zero_or_pos m with rfl | positive
      · obtain ⟨pre, post, shape, shape'⟩ := ihBack (by omega)
        refine ⟨first ++ pre, post, ?_, ?_⟩
        · rw [shape]
          simp only [String.append_assoc]
        · rw [shape', ← front.eq_of_zero]
          simp only [String.append_assoc]
      · have none : n = 0 := by omega
        subst none
        obtain ⟨pre, post, shape, shape'⟩ := ihFront (by omega)
        refine ⟨pre, post ++ second, ?_, ?_⟩
        · rw [shape]
          simp only [String.append_assoc]
        · rw [shape', ← back.eq_of_zero]
          simp only [String.append_assoc]

theorem between (front back : String) (rewritten : Rewritten old new n text text') :
    Rewritten old new n (front ++ text ++ back) (front ++ text' ++ back) := by
  have whole := ((Rewritten.same front).append rewritten).append (.same back)
  rwa [Nat.zero_add, Nat.add_zero] at whole

theorem intercalate (separator : String) (counted : Counted (Rewritten old new) n texts texts') :
    Rewritten old new n (separator.intercalate texts) (separator.intercalate texts') := by
  induction counted with
  | nil => exact .same _
  | cons here later ih =>
      cases later with
      | nil =>
          rw [String.intercalate_singleton, String.intercalate_singleton]
          exact here
      | cons next later =>
          rw [String.intercalate_cons_cons, String.intercalate_cons_cons]
          exact (here.append (.same separator)).append ih

theorem join (counted : Counted (Rewritten old new) n texts texts') :
    Rewritten old new n (String.join texts) (String.join texts') := by
  induction counted with
  | nil => exact .same _
  | cons here later ih =>
      rw [String.join_cons, String.join_cons]
      exact here.append ih

/-- Where a literal was rewritten there is a quote. -/
theorem quote_mem (quoted : IsQuoted old) (quoted' : IsQuoted new)
    (rewritten : Rewritten old new n text text') (positive : 0 < n) :
    '"' ∈ text.toList ∧ '"' ∈ text'.toList := by
  induction rewritten with
  | same => exact absurd positive (Nat.lt_irrefl 0)
  | literal => exact ⟨List.mem_of_head? quoted, List.mem_of_head? quoted'⟩
  | @append m n _ _ _ _ front back ihFront ihBack =>
      simp only [String.toList_append, List.mem_append]
      rcases Nat.eq_zero_or_pos m with rfl | inFront
      · obtain ⟨here, here'⟩ := ihBack (by omega)
        exact ⟨Or.inr here, Or.inr here'⟩
      · obtain ⟨here, here'⟩ := ihFront inFront
        exact ⟨Or.inl here, Or.inl here'⟩

end Rewritten

theorem isIdentifier_of_quote_mem {text : String} (quote : '"' ∈ text.toList) :
    isIdentifier text = false := by
  rw [Bool.eq_false_iff]
  intro isName
  have plain := List.all_eq_true.mp (all_isPlainChar isName) '"' quote
  exact absurd plain (by decide)

/-- A text with a rewritten literal is no name. -/
theorem Rewritten.isIdentifier_eq {old new : String} {n : Nat} {text text' : String}
    (quoted : IsQuoted old) (quoted' : IsQuoted new) (rewritten : Rewritten old new n text text') :
    n = 0 ∧ text = text' ∨ isIdentifier text = false ∧ isIdentifier text' = false := by
  rcases Nat.eq_zero_or_pos n with rfl | positive
  · exact Or.inl ⟨rfl, rewritten.eq_of_zero⟩
  · obtain ⟨quote, quote'⟩ := rewritten.quote_mem quoted quoted' positive
    exact Or.inr ⟨isIdentifier_of_quote_mem quote, isIdentifier_of_quote_mem quote'⟩

namespace Atom.Rewritten

variable {old new : String} {n : Nat} {a b : Atom}

theorem kind (rewritten : Atom.Rewritten old new n a b) : a.kind = b.kind := by
  cases rewritten <;> rfl

theorem stmt (rewritten : Atom.Rewritten old new n a b) : a.stmt = b.stmt := by
  cases rewritten <;> rfl

theorem place (rewritten : Atom.Rewritten old new n a b) : a.file = b.file ∧ a.line = b.line := by
  cases rewritten <;> exact ⟨rfl, rfl⟩

theorem text (rewritten : Atom.Rewritten old new n a b) :
    DawnC.Rewritten old new n a.text b.text := by
  cases rewritten with
  | same => exact .same a.text
  | literal isString text => exact text ▸ .literal

theorem eq_of_kind (rewritten : Atom.Rewritten old new n a b) (plain : a.kind ≠ .string) :
    n = 0 ∧ a = b := by
  cases rewritten with
  | same => exact ⟨rfl, rfl⟩
  | literal isString => exact absurd isString plain

/-- No test of an atom can tell a literal from another. -/
theorem is_eq (rewritten : Atom.Rewritten old new n a b) (text : String) : a.is text = b.is text := by
  cases rewritten with
  | same => rfl
  | literal isString => simp [Atom.is, isString]

end Atom.Rewritten

theorem Atom.kind_of_is {a : Atom} {text : String} (is : a.is text = true) : a.kind ≠ .string := by
  simp only [Atom.is, Bool.and_eq_true, decide_eq_true_eq] at is
  exact is.1

abbrev AtomsRewritten (old new : String) : Nat → List Atom → List Atom → Prop :=
  Counted (Atom.Rewritten old new)

namespace AtomsRewritten

variable {old new : String} {n : Nat} {atoms atoms' : List Atom}

theorem tail {a b : Atom} {rest rest' : List Atom}
    (counted : AtomsRewritten old new n (a :: rest) (b :: rest')) (plain : a.kind ≠ .string) :
    a = b ∧ AtomsRewritten old new n rest rest' := by
  cases counted with
  | cons here later =>
      obtain ⟨rfl, rfl⟩ := here.eq_of_kind plain
      rw [Nat.zero_add]
      exact ⟨rfl, later⟩

theorem cons_same (a : Atom) (counted : AtomsRewritten old new n atoms atoms') :
    AtomsRewritten old new n (a :: atoms) (a :: atoms') :=
  Nat.zero_add n ▸ .cons (.same a) counted

theorem advance {k : Nat} (counted : AtomsRewritten old new n (atoms.drop k) (atoms'.drop k))
    (plain : ∀ a ∈ (atoms.drop k).head?, a.kind ≠ .string) :
    AtomsRewritten old new n (atoms.drop (k + 1)) (atoms'.drop (k + 1)) := by
  rw [← List.tail_drop, ← List.tail_drop]
  generalize atoms.drop k = list at counted plain
  generalize atoms'.drop k = list' at counted
  cases list with
  | nil =>
      cases counted with
      | nil => exact .nil
  | cons a rest =>
      cases list' with
      | nil => cases counted
      | cons b rest' => exact (tail counted (plain a rfl)).2

end AtomsRewritten

end DawnC
