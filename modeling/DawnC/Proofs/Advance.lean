import DawnC.Atom.Lexer
import DawnC.Proofs.Indexed
import Mathlib.Data.List.Range

set_option autoImplicit false

namespace DawnC

/-- The last atom of a construct is among the atoms, but for a directive that ends them. -/
theorem Translator.Effect.length_le {t t' : Translator} {previous : Option Atom} {i n : Nat} {a : Atom}
    {rest : List Atom} (effect : Translator.Effect t previous i a rest n t') :
    n ≤ (a :: rest).length ∨ a.isInclude = true ∧ rest = [] ∧ n = 2 := by
  have arguments_le {args : List String} {taken : Nat}
      (read : arguments (i + 1) rest = .ok (args, taken)) : 1 + taken ≤ (a :: rest).length := by
    obtain ⟨k, last, count, found, -⟩ := argumentsFrom_last read
    have inside := (List.getElem?_eq_some_iff.mp found).1
    rw [List.length_cons]
    omega
  have parameters_le {name : Atom} {tail : List Atom} {params : Parameters}
      (shape : rest = name :: tail) (read : parameters t.symbols (i + 2) tail = .ok params) :
      2 + params.taken ≤ (a :: rest).length := by
    obtain ⟨k, last, count, found, -⟩ := parametersFrom_last read
    have inside := (List.getElem?_eq_some_iff.mp found).1
    rw [shape, List.length_cons, List.length_cons]
    omega
  have statement_le : (statement (a :: rest)).length ≤ (a :: rest).length :=
    (statement_isPrefix (a :: rest)).length_le
  cases effect with
  | print word args => exact Or.inl (arguments_le args)
  | printFormatted word rule args => exact Or.inl (arguments_le args)
  | printListElement word args isList => exact Or.inl (arguments_le args)
  | declaration => exact Or.inl statement_le
  | intList word shape isName isEquals isBracket read declared =>
      obtain ⟨k, last, count, found, -⟩ := elementsFrom_last read
      have inside := (List.getElem?_eq_some_iff.mp found).1
      rw [shape, List.length_cons, List.length_cons, List.length_cons, List.length_cons]
      omega
  | assignment => exact Or.inl statement_le
  | call isWord free isFunction read resolved => exact Or.inl (arguments_le read)
  | forLoop word shape =>
      rw [shape]
      simp
  | thenEnd word shape =>
      rw [shape]
      simp
  | conditional => exact Or.inl statement_le
  | elseIf => simp
  | otherwise => simp
  | mainFunction word atTop shape isMain read bare => exact Or.inl (parameters_le shape read)
  | namedFunction word atTop shape isName notMain read => exact Or.inl (parameters_le shape read)
  | closeBrace => simp
  | closeBlock => simp
  | directive isWord isInclude =>
      cases rest with
      | nil =>
          refine Or.inr ⟨?_, rfl, rfl⟩
          rcases isInclude with text | text
          · simp [Atom.isInclude, Atom.is, isWord, text]
          · simp [Atom.isInclude, Atom.is, isWord, text]
      | cons b more => simp

def Stop.ofWalk : Except (Misstep × Translator) Translator → Except Stop Translator
  | .ok t => .ok t
  | .error (m, t) => .error (.reported m t)

namespace Indexed

variable {atoms rest : List Atom} {t t' : Translator} {a : Atom} {i : Nat} {n : Int}

/-- Only faults of the program stop a construct. -/
theorem construct_error (here : atoms.drop i = a :: rest) {stop : Stop}
    (stopped : construct atoms t i = .error stop) :
    ∃ m t', stop = .reported m t' ∧
      t.construct (Cursor.before atoms i) i a (a :: rest) = .error (m, t') := by
  rw [construct_eq here] at stopped
  rcases result : t.construct (Cursor.before atoms i) i a (a :: rest) with ⟨m, t'⟩ | ⟨n, t'⟩
  · rw [result] at stopped
    cases stopped
    exact ⟨m, t', rfl, rfl⟩
  · rw [result] at stopped
    cases stopped

/-- A construct that succeeds is one step of the translator. -/
theorem construct_ok (here : atoms.drop i = a :: rest) (taken : construct atoms t i = .ok (n, t')) :
    ∃ k : Nat, n = k ∧ Translator.Effect t (Cursor.before atoms i) i a rest k t' := by
  rw [construct_eq here] at taken
  rcases result : t.construct (Cursor.before atoms i) i a (a :: rest) with ⟨m, t''⟩ | ⟨k, t''⟩
  · rw [result] at taken
    cases taken
  · rw [result] at taken
    cases taken
    exact ⟨k, rfl, Translator.construct_effect result⟩

/-- A construct moves the index on, and not past the end, but for a directive that ends the atoms. -/
theorem construct_span (here : atoms.drop i = a :: rest) (taken : construct atoms t i = .ok (n, t')) :
    1 ≤ n ∧ (i + n ≤ atoms.length ∨ a.isInclude = true ∧ rest = [] ∧ n = 2) := by
  obtain ⟨k, rfl, effect⟩ := construct_ok here taken
  have positive := effect.pos
  have length := congrArg List.length here
  rw [List.length_drop] at length
  have inside := lt_of_drop here
  refine ⟨by omega, ?_⟩
  rcases effect.length_le with short | ⟨isInclude, last, two⟩
  · exact Or.inl (by omega)
  · exact Or.inr ⟨isInclude, last, by omega⟩

/-- The loop over the atoms from an index on: the constructs that succeed, each with its index and its
span, and the result. -/
inductive Loops (atoms : List Atom) :
    Int → Translator → List (Int × Int) → Except Stop Translator → Prop where
  | done {index : Int} {t : Translator} (used : atoms.length ≤ index) :
      Loops atoms index t [] (Stop.ofWalk (t.closeRemaining t.blocks))
  | outside {index : Int} {t : Translator} (negative : index < 0) :
      Loops atoms index t [] (.error (.outside index))
  | stopped {index : Int} {t : Translator} {stop : Stop} (low : 0 ≤ index) (high : index < atoms.length)
      (stopped : construct atoms t index.toNat = .error stop) :
      Loops atoms index t [] (.error stop)
  | next {index n : Int} {t t' : Translator} {spans : List (Int × Int)}
      {result : Except Stop Translator} (low : 0 ≤ index) (high : index < atoms.length)
      (taken : construct atoms t index.toNat = .ok (n, t'))
      (later : Loops atoms (index + n) t' spans result) :
      Loops atoms index t ((index, n) :: spans) result

/-- A loop ends in one way. -/
theorem Loops.unique {index : Int} {spans spans' : List (Int × Int)}
    {result result' : Except Stop Translator} (first : Loops atoms index t spans result)
    (second : Loops atoms index t spans' result') : spans = spans' ∧ result = result' := by
  induction first generalizing spans' result' with
  | done used =>
      cases second with
      | done => exact ⟨rfl, rfl⟩
      | outside negative => omega
      | stopped low high => omega
      | next low high => omega
  | outside negative =>
      cases second with
      | done used => omega
      | outside => exact ⟨rfl, rfl⟩
      | stopped low => omega
      | next low => omega
  | stopped low high stopped =>
      cases second with
      | done used => omega
      | outside negative => omega
      | stopped _ _ stopped' =>
          cases stopped.symm.trans stopped'
          exact ⟨rfl, rfl⟩
      | next _ _ taken => cases stopped.symm.trans taken
  | next low high taken later ih =>
      cases second with
      | done used => omega
      | outside negative => omega
      | stopped _ _ stopped => cases taken.symm.trans stopped
      | next _ _ taken' later' =>
          cases taken.symm.trans taken'
          obtain ⟨rfl, rfl⟩ := ih later'
          exact ⟨rfl, rfl⟩

/-- From every index the loop ends as the walk does. -/
theorem exists_loops (atoms : List Atom) (i : Nat) (t : Translator) :
    ∃ spans, Loops atoms i t spans (Stop.ofWalk (Cursor.walk atoms ⟨i, t⟩)) := by
  induction remaining : atoms.length - i using Nat.strongRecOn generalizing i t with
  | ind left ih =>
    cases here : atoms.drop i with
    | nil =>
        have ends : Cursor.walk atoms ⟨i, t⟩ = t.closeRemaining t.blocks := by
          rw [Cursor.walk, here, Translator.walk]
        rw [ends]
        have used := List.drop_eq_nil_iff.mp here
        exact ⟨[], .done (by omega)⟩
    | cons a rest =>
        have inside := lt_of_drop here
        have low : (0 : Int) ≤ i := by omega
        have high : (i : Int) < atoms.length := by omega
        cases result : construct atoms t i with
        | error stop =>
            obtain ⟨m, t', rfl, failed⟩ := construct_error here result
            have ends : Cursor.walk atoms ⟨i, t⟩ = .error (m, t') := by
              rw [Cursor.walk, here, Translator.walk, failed]
            rw [ends]
            exact ⟨[], .stopped low high result⟩
        | ok done =>
            obtain ⟨n, t'⟩ := done
            obtain ⟨k, rfl, effect⟩ := construct_ok here result
            have positive := effect.pos
            have next : Cursor.Next atoms ⟨i, t⟩ ⟨i + k, t'⟩ := ⟨a, rest, k, here, rfl, effect⟩
            obtain ⟨spans, later⟩ := ih (atoms.length - (i + k)) (by omega) (i + k) t' rfl
            rw [Cursor.walk_next next]
            exact ⟨(i, k) :: spans, .next low high result later⟩

def positions (span : Int × Int) : List Nat := List.range' span.1.toNat span.2.toNat

theorem getLast?_of_drop (here : atoms.drop i = [a]) : atoms.getLast? = some a := by
  have length := congrArg List.length here
  rw [List.length_drop, List.length_singleton] at length
  rw [List.getLast?_eq_getElem?, show atoms.length - 1 = i by omega]
  exact getElem?_of_drop here

theorem exists_drop {index : Int} (low : 0 ≤ index) (high : index < atoms.length) :
    ∃ a rest, atoms.drop index.toNat = a :: rest := by
  apply List.exists_cons_of_ne_nil
  rw [ne_eq, List.drop_eq_nil_iff]
  omega

namespace Loops

variable {index : Int} {spans : List (Int × Int)} {result : Except Stop Translator}

theorem span_pos (loops : Loops atoms index t spans result) : ∀ s ∈ spans, 1 ≤ s.2 := by
  induction loops with
  | done used => simp
  | outside negative => simp
  | stopped low high stopped => simp
  | next low high taken later ih =>
      obtain ⟨a, rest, here⟩ := exists_drop low high
      exact List.forall_mem_cons.mpr ⟨(construct_span here taken).1, ih⟩

/-- The spans of a loop that succeeds follow each other from its index to the end of the atoms. -/
theorem flatMap_positions (loops : Loops atoms index t spans result) (within : index ≤ atoms.length)
    (plain : ∀ a ∈ atoms.getLast?, a.isInclude = false) (success : result = .ok t') :
    spans.flatMap positions = List.range' index.toNat (atoms.length - index.toNat) := by
  induction loops with
  | @done index t used =>
      have nothing : atoms.length - index.toNat = 0 := by omega
      rw [nothing]
      rfl
  | outside negative => cases success
  | stopped low high stopped => cases success
  | @next index n t t₁ spans result low high taken later ih =>
      obtain ⟨a, rest, here⟩ := exists_drop low high
      obtain ⟨positive, inside | ⟨isInclude, last, -⟩⟩ := construct_span here taken
      · have start : (index + n).toNat = index.toNat + n.toNat := by omega
        have count : n.toNat + (atoms.length - (index.toNat + n.toNat)) =
          atoms.length - index.toNat := by omega
        rw [List.flatMap_cons, ih (by omega) success, positions, start, List.range'_append_1, count]
      · rw [last] at here
        rw [plain a (getLast?_of_drop here)] at isInclude
        cases isInclude

end Loops

/-- The translator always moves on and never looks outside. Whatever the atoms, the symbols and the open
blocks are, a construct asks for no atom, no part of the atoms and no block that is not there; where it
succeeds it takes at least one atom, and no more than are left unless it is a directive at the end. So
the loop over the atoms ends, and with what the walk gives; and where it succeeds, the spans of its
constructs put one after the other are all the indices, if no directive ends the atoms. -/
theorem translator_advances (atoms : List Atom) (t : Translator) :
    (∀ i a rest, atoms.drop i = a :: rest →
      construct atoms t i = Stop.ofStep (t.construct (Cursor.before atoms i) i a (a :: rest)) ∧
      (∀ stop, construct atoms t i = .error stop → ∃ m t', stop = .reported m t') ∧
      ∀ n t', construct atoms t i = .ok (n, t') →
        1 ≤ n ∧ (i + n ≤ atoms.length ∨ a.isInclude = true ∧ rest = [] ∧ n = 2)) ∧
    ∃ spans result, Loops atoms 0 t spans result ∧
      (∀ spans' result', Loops atoms 0 t spans' result' → spans' = spans ∧ result' = result) ∧
      result = Stop.ofWalk (t.walk none 0 0 atoms) ∧
      (∀ s ∈ spans, 1 ≤ s.2) ∧
      ∀ t', result = .ok t' → (∀ a ∈ atoms.getLast?, a.isInclude = false) →
        spans.flatMap positions = List.range atoms.length := by
  constructor
  · intro i a rest here
    refine ⟨construct_eq here, fun stop stopped => ?_, fun n t' taken => construct_span here taken⟩
    obtain ⟨m, t', reported, -⟩ := construct_error here stopped
    exact ⟨m, t', reported⟩
  · obtain ⟨spans, loops⟩ := exists_loops atoms 0 t
    rw [Cursor.walk, Cursor.before_zero, List.drop_zero] at loops
    refine ⟨spans, _, loops, fun _ _ other => other.unique loops, rfl, loops.span_pos, ?_⟩
    intro t' success plain
    rw [loops.flatMap_positions (by omega) plain success, List.range_eq_range']
    rfl

theorem translator_advances_branches :
    let atoms := lex "a.dawn" (["List<int> xs = [1, 2]", "int x = 1 + 2", "if x > 0 \x7b", "x = 3",
      "\x7d", "else \x7b", "for i from 1 to x", "print_list_element(xs, 0)", "then end",
      "\x7d"].map Utf8.encode)
    let t : Translator := { symbols := .empty, prototypes := [], lines := [] }
    ∃ spans t', Loops atoms 0 t spans (.ok t') ∧ spans.flatMap positions = List.range atoms.length := by
  intro atoms t
  obtain ⟨-, spans, result, loops, -, walked, -, whole⟩ := translator_advances atoms t
  have succeeds : (t.walk none 0 0 atoms).toOption.isSome = true := by decide +kernel
  have plain : atoms.getLast?.all (fun a => !a.isInclude) = true := by decide +kernel
  cases ends : t.walk none 0 0 atoms with
  | error fault =>
      rw [ends] at succeeds
      cases succeeds
  | ok t' =>
      rw [ends] at walked
      have success : result = .ok t' := walked
      rw [success] at loops
      refine ⟨spans, t', loops, whole t' success fun a last => ?_⟩
      rw [Option.mem_def.mp last] at plain
      simpa using plain

end Indexed

end DawnC
