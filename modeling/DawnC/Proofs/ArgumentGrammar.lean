import DawnC.Proofs.ArgumentList
import Mathlib.Data.List.Induction

set_option autoImplicit false

namespace DawnC

variable {list : List (List Atom)} {atoms read rest span : List Atom} {a : Atom} {index : Nat}

/-- Nothing was read of an argument yet: what was read is empty or ends in a comma. -/
def BlankArgument (read : List Atom) : Prop := ∀ last, read.getLast? = some last → last.is "," = true

/-- What is wrong with the atom after `read`, if there is one, in a list of arguments. -/
inductive ArgumentFault (read : List Atom) : Option Atom → Violation → Prop where
  | ended : ArgumentFault read none (.expected ")")
  | brace {a : Atom} (closes : a.is "\x7d" = true) : ArgumentFault read (some a) (.expected ")")
  | comma {a : Atom} (parts : a.is "," = true) (blank : BlankArgument read) :
      ArgumentFault read (some a) .missingArgument
  | close {a : Atom} (closes : a.is ")" = true) (blank : BlankArgument read) (started : read ≠ []) :
      ArgumentFault read (some a) .missingArgument

/-- No atom ends the list, and none is at fault. -/
def UnfinishedArguments (read : List Atom) : Prop :=
  ∀ before a after, read = before ++ a :: after →
    a.is ")" = false ∧ ∀ v, ¬ ArgumentFault before (some a) v

theorem blank_concat : BlankArgument (read ++ [a]) ↔ a.is "," = true := by
  simp [BlankArgument]

theorem unfinished_nil : UnfinishedArguments [] := by
  intro before a after split
  exact absurd split (by simp)

theorem unfinished_concat :
    UnfinishedArguments (read ++ [a]) ↔
      UnfinishedArguments read ∧ a.is ")" = false ∧ ∀ v, ¬ ArgumentFault read (some a) v := by
  constructor
  · intro unfinished
    refine ⟨?_, unfinished read a [] rfl⟩
    rintro before b after rfl
    exact unfinished before b (after ++ [a]) (by simp)
  · rintro ⟨unfinished, last⟩ before b after split
    rcases List.eq_nil_or_concat after with rfl | ⟨init, c, rfl⟩
    · obtain ⟨rfl, same⟩ := List.append_inj' split rfl
      cases same
      exact last
    · rw [List.concat_eq_append, ← List.cons_append, ← List.append_assoc] at split
      exact unfinished before b init (List.append_inj' split rfl).1

/-- A list ends with the first closing parenthesis in it. -/
theorem ArgumentList.ends (valid : ArgumentList list span) :
    ∃ init close, span = init ++ [close] ∧ close.is ")" = true ∧ ∀ a ∈ init, a.is ")" = false := by
  induction valid with
  | @none close closes => exact ⟨[], close, rfl, closes, by simp⟩
  | @last argument close filled inside closes =>
      exact ⟨argument, close, rfl, closes, fun a member => (inside a member).1⟩
  | @more argument span comma arguments filled inside parts follows later ih =>
      obtain ⟨init, close, rfl, closes, free⟩ := ih
      refine ⟨argument ++ comma :: init, close, by simp, closes, ?_⟩
      intro a member
      rcases List.mem_append.mp member with first | others
      · exact (inside a first).1
      · rcases List.mem_cons.mp others with rfl | others
        · exact is_of_is parts (by decide)
        · exact free a others

/-- So it is all that stands up to the first closing parenthesis. -/
theorem findIdx?_argumentList (valid : ArgumentList list span) (rest : List Atom) :
    (span ++ rest).findIdx? (·.is ")") = some (span.length - 1) := by
  obtain ⟨init, close, rfl, closes, free⟩ := valid.ends
  have passed : init.findIdx? (·.is ")") = none := List.findIdx?_eq_none_iff.mpr free
  simp [List.append_assoc, List.findIdx?_append, List.findIdx?_cons, passed, closes]

/-- Up to an atom that is at fault or ends the list, reading goes on. The two accumulators tell whether
an argument was begun and whether there was one before. -/
theorem arguments_unfinished (unfinished : UnfinishedArguments read) (index : Nat) :
    ∃ args current : List String, (current = [] ↔ BlankArgument read) ∧
      (current = [] → (args = [] ↔ read = [])) ∧
      ∀ rest, arguments index (read ++ rest) =
        argumentsFrom args current read.length (index + read.length) rest := by
  induction read using List.reverseRecOn with
  | nil => exact ⟨[], [], by simp [BlankArgument], by simp, fun _ => rfl⟩
  | append_singleton read a ih =>
      obtain ⟨before, stays, fine⟩ := unfinished_concat.mp unfinished
      obtain ⟨args, current, blank, first, reads⟩ := ih before
      have length : (read ++ [a]).length = read.length + 1 := by simp
      by_cases parts : a.is "," = true
      · have filled : current ≠ [] := fun empty => fine _ (.comma parts (blank.mp empty))
        refine ⟨spaced current.reverse :: args, [], ?_, by simp, ?_⟩
        · simpa [blank_concat] using parts
        · intro rest
          rw [List.append_assoc, reads, List.singleton_append, argumentsFrom, if_neg (by simp [stays]),
            if_pos parts, if_neg (by simpa using filled), length]
          rfl
      · have brace : a.is "\x7d" ≠ true := fun closes => fine _ (.brace closes)
        refine ⟨args, a.text :: current, ?_, by simp, ?_⟩
        · simpa [blank_concat] using parts
        · intro rest
          rw [List.append_assoc, reads, List.singleton_append, argumentsFrom, if_neg (by simp [stays]),
            if_neg parts, if_neg brace, length]
          rfl

/-- An atom at fault, or the end, is where reading fails. -/
theorem arguments_of_fault {v : Violation} (unfinished : UnfinishedArguments read)
    (fault : ArgumentFault read rest.head? v) (index : Nat) :
    arguments index (read ++ rest) = .error ⟨index + read.length, v⟩ := by
  obtain ⟨args, current, blank, first, reads⟩ := arguments_unfinished unfinished index
  rw [reads]
  cases rest with
  | nil =>
      cases fault
      rfl
  | cons a rest =>
      rw [argumentsFrom]
      cases fault with
      | brace closes =>
          rw [if_neg (by simp [is_of_is closes (show "\x7d" ≠ ")" by decide)]),
            if_neg (by simp [is_of_is closes (show "\x7d" ≠ "," by decide)]), if_pos closes]
      | comma parts empty =>
          rw [if_neg (by simp [is_of_is parts (show "," ≠ ")" by decide)]), if_pos parts,
            if_pos (by simpa using blank.mpr empty)]
      | close closes empty started =>
          have none := blank.mpr empty
          have some : args ≠ [] := fun free => started ((first none).mp free)
          rw [if_pos closes, none, if_neg (by simp), if_pos (by simpa using some)]

/-- A closing parenthesis that is not at fault ends the list. -/
theorem arguments_of_close (unfinished : UnfinishedArguments read) (closes : a.is ")" = true)
    (fine : ∀ v, ¬ ArgumentFault read (some a) v) (index : Nat) (rest : List Atom) :
    ∃ args, arguments index (read ++ a :: rest) = .ok (args, read.length + 1) := by
  obtain ⟨args, current, blank, first, reads⟩ := arguments_unfinished unfinished index
  rw [reads, argumentsFrom, if_pos closes]
  by_cases empty : current = []
  · have none : args = [] := (first empty).mpr (by
      by_contra started
      exact fine _ (.close closes (blank.mp empty) started))
    rw [empty, none]
    exact ⟨[], rfl⟩
  · rw [if_pos (by simpa using empty)]
    exact ⟨_, rfl⟩

/-- Reading comes to the end, to an atom at fault, or to one that closes the list. -/
theorem exists_unfinished (atoms : List Atom) :
    ∃ read rest, atoms = read ++ rest ∧ UnfinishedArguments read ∧
      ((∃ v, ArgumentFault read rest.head? v) ∨
        ∃ a after, rest = a :: after ∧ a.is ")" = true ∧ ∀ v, ¬ ArgumentFault read (some a) v) := by
  induction atoms using List.reverseRecOn with
  | nil => exact ⟨[], [], rfl, unfinished_nil, Or.inl ⟨_, .ended⟩⟩
  | append_singleton atoms a ih =>
      obtain ⟨read, rest, rfl, unfinished, turn⟩ := ih
      cases rest with
      | cons b rest =>
          refine ⟨read, b :: (rest ++ [a]), by simp, unfinished, ?_⟩
          rcases turn with fault | ⟨_, _, same, closes⟩
          · exact Or.inl fault
          · cases same
            exact Or.inr ⟨b, rest ++ [a], rfl, closes⟩
      | nil =>
          rw [List.append_nil]
          by_cases fault : ∃ v, ArgumentFault read (some a) v
          · exact ⟨read, [a], rfl, unfinished, Or.inl fault⟩
          have fine : ∀ v, ¬ ArgumentFault read (some a) v := fun v here => fault ⟨v, here⟩
          by_cases closes : a.is ")" = true
          · exact ⟨read, [a], rfl, unfinished, Or.inr ⟨a, [], rfl, closes, fine⟩⟩
          · exact ⟨read ++ [a], [], by simp,
              unfinished_concat.mpr ⟨unfinished, by simpa using closes, fine⟩,
              Or.inl ⟨_, .ended⟩⟩

/-- Reading fails at the first atom that is at fault, or at the end. -/
theorem arguments_eq_error {m : Misstep} :
    arguments index atoms = .error m ↔ ∃ read rest, atoms = read ++ rest ∧ UnfinishedArguments read ∧
      ArgumentFault read rest.head? m.violation ∧ m.index = index + read.length := by
  constructor
  · intro failed
    obtain ⟨read, rest, rfl, unfinished, ⟨v, fault⟩ | ⟨a, after, rfl, closes, fine⟩⟩ :=
      exists_unfinished atoms
    · rw [arguments_of_fault unfinished fault] at failed
      cases failed
      exact ⟨read, rest, rfl, unfinished, fault, rfl⟩
    · obtain ⟨args, success⟩ := arguments_of_close unfinished closes fine index after
      rw [success] at failed
      cases failed
  · rintro ⟨read, rest, rfl, unfinished, fault, place⟩
    rw [arguments_of_fault unfinished fault, ← place]

/-- Arguments are read by exactly their grammar. From any index of a program on, reading succeeds if and
only if the atoms up to the first closing parenthesis are a list of arguments, and gives their texts
and the number of these atoms. Otherwise it fails at the first atom at fault, or at the end. -/
theorem arguments_follow_grammar (program : List Atom) (i : Nat) :
    (∀ args taken, arguments i (program.drop i) = .ok (args, taken) ↔
      ∃ list k, (program.drop i).findIdx? (·.is ")") = some k ∧
        ArgumentList list ((program.drop i).take (k + 1)) ∧ args = list.map argumentText ∧
        taken = k + 1) ∧
    ∀ m, arguments i (program.drop i) = .error m ↔
      ∃ read rest, program.drop i = read ++ rest ∧ UnfinishedArguments read ∧
        ArgumentFault read rest.head? m.violation ∧ m.index = i + read.length := by
  refine ⟨fun args taken => ?_, fun m => arguments_eq_error⟩
  rw [arguments_eq_ok]
  constructor
  · rintro ⟨list, span, ⟨rest, split⟩, valid, texts, count⟩
    obtain ⟨init, close, shape, -⟩ := valid.ends
    have filled : span.length - 1 + 1 = span.length := by simp [shape]
    refine ⟨list, span.length - 1, ?_, ?_, texts, by omega⟩
    · rw [← split]
      exact findIdx?_argumentList valid rest
    · rw [filled, ← split, List.take_left]
      exact valid
  · rintro ⟨list, k, found, valid, texts, rfl⟩
    refine ⟨list, (program.drop i).take (k + 1), List.take_prefix _ _, valid, texts, ?_⟩
    obtain ⟨bound, -⟩ := List.findIdx?_eq_some_iff_getElem.mp found
    rw [List.length_take]
    omega

end DawnC
