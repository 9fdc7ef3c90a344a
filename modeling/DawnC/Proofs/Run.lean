import DawnC.Proofs.Construct
import DawnC.Proofs.Symbols
import Mathlib.Data.List.TakeWhile
import Mathlib.Logic.Relation

set_option autoImplicit false

namespace DawnC

namespace Atom

theorem eq_of_is {a : Atom} {first second : String} (isFirst : a.is first = true)
    (isSecond : a.is second = true) : first = second := by
  simp only [is, Bool.and_eq_true, decide_eq_true_eq] at isFirst isSecond
  rw [← isFirst.2, isSecond.2]

theorem IsWord.is {a : Atom} {text : String} (word : a.IsWord text) : a.is text = true := by
  simp [Atom.is, word.1, word.2]

end Atom

theorem argumentsFrom_last {args current args' : List String} {taken index taken' : Nat}
    {atoms : List Atom} (success : argumentsFrom args current taken index atoms = .ok (args', taken')) :
    ∃ k last, taken' = taken + k + 1 ∧ atoms[k]? = some last ∧ last.is ")" = true := by
  induction atoms generalizing args current taken index with
  | nil => simp [argumentsFrom] at success
  | cons a rest ih =>
      have later {args current : List String}
          (success : argumentsFrom args current (taken + 1) (index + 1) rest = .ok (args', taken')) :
          ∃ k last, taken' = taken + k + 1 ∧ (a :: rest)[k]? = some last ∧ last.is ")" = true := by
        obtain ⟨k, last, count, found, closes⟩ := ih success
        exact ⟨k + 1, last, by omega, found, closes⟩
      have here (closes : a.is ")" = true) :
          ∃ k last, taken + 1 = taken + k + 1 ∧ (a :: rest)[k]? = some last ∧
            last.is ")" = true := ⟨0, a, rfl, rfl, closes⟩
      simp only [argumentsFrom] at success
      split at success
      · rename_i closes
        split at success
        · cases success
          exact here closes
        · split at success
          · cases success
          · cases success
            exact here closes
      · split at success
        · split at success
          · cases success
          · exact later success
        · split at success
          · cases success
          · exact later success

theorem elementsFrom_last {texts : List String} {taken index taken' : Nat} {elements : String}
    {atoms : List Atom} (success : elementsFrom texts taken index atoms = .ok (elements, taken')) :
    ∃ k last, taken' = taken + k + 1 ∧ atoms[k]? = some last ∧ last.is "]" = true := by
  induction atoms generalizing texts taken index with
  | nil => simp [elementsFrom] at success
  | cons a rest ih =>
      simp only [elementsFrom] at success
      split at success
      · rename_i closes
        cases success
        exact ⟨0, a, rfl, rfl, closes⟩
      · split at success
        · cases success
        · obtain ⟨k, last, count, found, closes⟩ := ih success
          exact ⟨k + 1, last, by omega, found, closes⟩

theorem parametersFrom_last {symbols : SymbolTable} {texts : List String} {taken index : Nat}
    {state : ParameterState} {atoms : List Atom} {params : Parameters}
    (success : parametersFrom symbols texts taken index state atoms = .ok params) :
    ∃ k last, params.taken = taken + k + 1 ∧ atoms[k]? = some last ∧ last.is ")" = true := by
  induction atoms generalizing symbols texts taken index state with
  | nil => simp [parametersFrom] at success
  | cons a rest ih =>
      have later {symbols : SymbolTable} {texts : List String} {state : ParameterState}
          (success : parametersFrom symbols texts (taken + 1) (index + 1) state rest = .ok params) :
          ∃ k last, params.taken = taken + k + 1 ∧ (a :: rest)[k]? = some last ∧
            last.is ")" = true := by
        obtain ⟨k, last, count, found, closes⟩ := ih success
        exact ⟨k + 1, last, by omega, found, closes⟩
      cases state with
      | name cls =>
          simp only [parametersFrom] at success
          split at success
          · split at success
            · exact later success
            · cases success
          · cases success
      | separator =>
          simp only [parametersFrom] at success
          split at success
          · rename_i closes
            cases success
            exact ⟨0, a, rfl, rfl, closes⟩
          · split at success
            · exact later success
            · cases success
      | start =>
          simp only [parametersFrom] at success
          split at success
          · rename_i closes
            cases success
            exact ⟨0, a, rfl, rfl, closes⟩
          · split at success
            · exact later success
            · cases success
      | type =>
          simp only [parametersFrom] at success
          split at success
          · exact later success
          · cases success

theorem statement_isPrefix (atoms : List Atom) : statement atoms <+: atoms := by
  cases atoms with
  | nil => exact List.nil_prefix
  | cons a rest => exact List.takeWhile_prefix _

theorem statement_getElem? {atoms : List Atom} {k : Nat} (inside : k < (statement atoms).length) :
    (statement atoms)[k]? = atoms[k]? := by
  obtain ⟨tail, split⟩ := statement_isPrefix atoms
  calc
    (statement atoms)[k]? = (statement atoms ++ tail)[k]? :=
      (List.getElem?_append_left inside).symm
    _ = atoms[k]? := by rw [split]

theorem statement_no_brace {atoms : List Atom} {b : Atom} (inside : b ∈ statement atoms) :
    b.is "\x7d" = false := by
  cases atoms with
  | nil => simp [statement] at inside
  | cons a rest =>
      have kept := List.mem_takeWhile_imp inside
      simp only [Bool.and_eq_true, Bool.not_eq_true'] at kept
      exact kept.2

namespace Translator

variable {t t' : Translator} {previous : Option Atom} {i n : Nat} {a : Atom} {rest : List Atom}

theorem settle_of_closed {b : Block} {outer : List Block} (blocks : t.blocks = b :: outer)
    (closed : b.isClosedLoop = true) : t.settle = t.closeBlock b outer := by
  simp only [settle, blocks, closed, if_true]

theorem settle_of_open {b : Block} {outer : List Block} (blocks : t.blocks = b :: outer)
    (unclosed : b.isClosedLoop ≠ true) : t.settle = t := by
  simp only [settle, blocks, if_neg unclosed]

@[simp] theorem settle_symbols : t.settle.symbols = t.symbols := by
  simp only [settle]
  split
  · rfl
  · split <;> rfl

@[simp] theorem closeBlock_symbols (b : Block) (outer : List Block) :
    (t.closeBlock b outer).symbols = t.symbols := rfl

@[simp] theorem closeBrace_symbols (b : Block) (outer : List Block) :
    (t.closeBrace b outer).symbols = t.symbols := rfl

theorem Effect.pos (effect : Effect t previous i a rest n t') : 0 < n := by
  cases effect with
  | declaration word scalar shape isName isEquals value declared =>
      have longer := List.length_pos_iff.mpr value
      rw [List.length_drop] at longer
      omega
  | assignment isWord free assignable shape isEquals together value =>
      have longer := List.length_pos_iff.mpr value
      rw [List.length_drop] at longer
      omega
  | conditional word condition =>
      have longer := List.length_pos_iff.mpr condition
      rw [List.length_drop] at longer
      omega
  | _ => omega

/-- The last atom of a construct is among the atoms. Only a closing brace ends with a closing brace; a
loop ends at its bound, which is a brace only where a variable has that name. -/
theorem Effect.last (effect : Effect t previous i a rest n t') (plain : a.isInclude = false)
    (noVariable : t.symbols.classOf "\x7d" ≠ .int) :
    ∃ last, (a :: rest)[n - 1]? = some last ∧ (last.is "\x7d" = true → a.kind ≠ .word) := by
  have positive := effect.pos
  have ended {text : String} {k : Nat} {last : Atom} (count : n = 1 + k + 1)
      (found : rest[k]? = some last) (other : last.is text = true) (different : text ≠ "\x7d") :
      ∃ last, (a :: rest)[n - 1]? = some last ∧ (last.is "\x7d" = true → a.kind ≠ .word) := by
    refine ⟨last, ?_, fun brace => absurd (Atom.eq_of_is other brace) different⟩
    rw [count, show 1 + k + 1 - 1 = k + 1 by omega]
    exact found
  have stopped (span : n = (statement (a :: rest)).length) :
      ∃ last, (a :: rest)[n - 1]? = some last ∧ (last.is "\x7d" = true → a.kind ≠ .word) := by
    have inside : n - 1 < (statement (a :: rest)).length := by omega
    refine ⟨(statement (a :: rest))[n - 1], ?_, ?_⟩
    · rw [← statement_getElem? inside]
      exact List.getElem?_eq_getElem inside
    · intro brace
      rw [statement_no_brace (List.getElem_mem inside)] at brace
      cases brace
  have alone {text : String} (single : n = 1) (word : a.IsWord text) (different : text ≠ "\x7d") :
      ∃ last, (a :: rest)[n - 1]? = some last ∧ (last.is "\x7d" = true → a.kind ≠ .word) := by
    subst single
    exact ⟨a, rfl, fun brace => absurd (Atom.eq_of_is word.is brace) different⟩
  cases effect with
  | print word args =>
      obtain ⟨k, b, count, found, closes⟩ := argumentsFrom_last args
      exact ended (by omega) found closes (by decide)
  | printFormatted word rule args =>
      obtain ⟨k, b, count, found, closes⟩ := argumentsFrom_last args
      exact ended (by omega) found closes (by decide)
  | printListElement word args isList =>
      obtain ⟨k, b, count, found, closes⟩ := argumentsFrom_last args
      exact ended (by omega) found closes (by decide)
  | declaration word scalar shape isName isEquals value declared => exact stopped rfl
  | intList word shape isName isEquals isBracket read declared =>
      obtain ⟨k, b, count, found, closes⟩ := elementsFrom_last read
      subst shape
      exact ended (k := k + 3) (by omega) found closes (by decide)
  | assignment isWord free assignable shape isEquals together value => exact stopped rfl
  | call isWord free isFunction read resolved =>
      obtain ⟨k, b, count, found, closes⟩ := argumentsFrom_last read
      exact ended (by omega) found closes (by decide)
  | @forLoop name start low stop high tail symbols word shape isName isFrom lowBound isTo highBound
      declared =>
      subst shape
      refine ⟨high, rfl, fun brace => ?_⟩
      have text : high.text = "\x7d" := by
        simp only [Atom.is, Bool.and_eq_true, decide_eq_true_eq] at brace
        exact brace.2
      rcases highBound.2 with isNumber | isInt
      · rw [text] at isNumber
        exact absurd isNumber (by decide)
      · rw [text] at isInt
        exact absurd isInt noVariable
  | thenEnd word shape isEnd blocks isLoop =>
      subst shape
      exact ended (k := 0) rfl rfl isEnd (by decide)
  | conditional word condition => exact stopped rfl
  | elseIf word afterBrace afterIf shape isIf together => exact alone rfl word (by decide)
  | otherwise word afterBrace afterIf single => exact alone rfl word (by decide)
  | mainFunction word atTop shape isMain read bare =>
      obtain ⟨k, b, count, found, closes⟩ := parametersFrom_last read
      subst shape
      exact ended (k := k + 1) (by omega) found closes (by decide)
  | namedFunction word atTop shape isName notMain read =>
      obtain ⟨k, b, count, found, closes⟩ := parametersFrom_last read
      subst shape
      exact ended (k := k + 1) (by omega) found closes (by decide)
  | closeBrace notWord brace blocks isLoop => exact ⟨a, rfl, fun _ => notWord⟩
  | closeBlock notWord brace blocks notLoop => exact ⟨a, rfl, fun _ => notWord⟩
  | directive isWord isInclude =>
      rcases isInclude with text | text
      · simp [Atom.isInclude, Atom.is, isWord, text] at plain
      · simp [Atom.isInclude, Atom.is, isWord, text] at plain

/-- The translator declares variables only, and forgets nothing. -/
theorem Effect.grows (effect : Effect t previous i a rest n t') :
    t.symbols.Grows IsVariableName t'.symbols := by
  cases effect with
  | declaration word scalar shape isName isEquals value declared =>
      refine .of_declare declared ⟨isName.2, ?_⟩
      simp only [List.mem_cons, List.not_mem_nil, or_false] at scalar
      rcases scalar with rfl | rfl | rfl <;> rfl
  | intList word shape isName isEquals isBracket read declared =>
      exact .of_declare declared ⟨isName.2, rfl⟩
  | forLoop word shape isName isFrom lowBound isTo highBound declared =>
      exact .of_declare declared ⟨isName.2, rfl⟩
  | mainFunction word atTop shape isMain read bare => exact parametersFrom_grows read trivial
  | namedFunction word atTop shape isName notMain read => exact parametersFrom_grows read trivial
  | closeBrace notWord brace blocks isLoop =>
      rw [closeBrace_symbols, settle_symbols]
      exact .refl _
  | closeBlock notWord brace blocks notLoop =>
      rw [closeBlock_symbols, settle_symbols]
      exact .refl _
  | _ => exact .refl _

/-- A construct that does not start with a word is a closing brace. -/
theorem Effect.of_not_word (effect : Effect t previous i a rest n t') (notWord : a.kind ≠ .word) :
    ∃ b outer, t.settle.blocks = b :: outer ∧
      (b.kind = .loop ∧ t' = t.settle.closeBrace b outer ∨
        b.kind ≠ .loop ∧ t' = t.settle.closeBlock b outer) := by
  cases effect with
  | closeBrace notWord brace blocks isLoop => exact ⟨_, _, blocks, Or.inl ⟨isLoop, rfl⟩⟩
  | closeBlock notWord brace blocks notLoop => exact ⟨_, _, blocks, Or.inr ⟨notLoop, rfl⟩⟩
  | assignment isWord => exact absurd isWord notWord
  | call isWord => exact absurd isWord notWord
  | directive isWord => exact absurd isWord notWord
  | print word => exact absurd word.1 notWord
  | printFormatted word => exact absurd word.1 notWord
  | printListElement word => exact absurd word.1 notWord
  | declaration word => exact absurd word.1 notWord
  | intList word => exact absurd word.1 notWord
  | forLoop word => exact absurd word.1 notWord
  | thenEnd word => exact absurd word.1 notWord
  | conditional word => exact absurd word.1 notWord
  | elseIf word => exact absurd word.1 notWord
  | otherwise word => exact absurd word.1 notWord
  | mainFunction word => exact absurd word.1 notWord
  | namedFunction word => exact absurd word.1 notWord

/-- What closing one brace-closed loop keeps holds when all that is left was closed. -/
theorem closeRemaining_induction {P : Translator → Prop}
    (close : ∀ t b outer, t.blocks = b :: outer → b.isClosedLoop = true → P t →
      P (t.closeBlock b outer))
    {t t' : Translator} (holds : P t) (success : t.closeRemaining t.blocks = .ok t') :
    P t' ∧ t'.blocks = [] := by
  induction blocks : t.blocks generalizing t with
  | nil =>
      rw [blocks] at success
      cases success
      exact ⟨holds, blocks⟩
  | cons b outer ih =>
      rw [blocks] at success
      simp only [closeRemaining] at success
      split at success
      · rename_i closed
        exact ih (close t b outer blocks closed holds) success rfl
      · cases success

end Translator

/-- The translator between two constructs: the index of the next atom, and the state. -/
structure Cursor where
  index : Nat
  state : Translator
  deriving DecidableEq

namespace Cursor

def before (atoms : List Atom) (index : Nat) : Option Atom := (atoms.take index).getLast?

def Next (atoms : List Atom) (c d : Cursor) : Prop :=
  ∃ a rest n, atoms.drop c.index = a :: rest ∧ d.index = c.index + n ∧
    Translator.Effect c.state (before atoms c.index) c.index a rest n d.state

abbrev Runs (atoms : List Atom) : Cursor → Cursor → Prop := Relation.ReflTransGen (Next atoms)

/-- No construct follows: the atoms are used up and what is open is closed, or the next construct
fails. -/
def Ends (atoms : List Atom) (c : Cursor) (result : Except (Misstep × Translator) Translator) : Prop :=
  match atoms.drop c.index with
  | [] => c.state.closeRemaining c.state.blocks = result
  | a :: rest => ∃ fault, result = .error fault ∧
      c.state.construct (before atoms c.index) c.index a (a :: rest) = .error fault

def walk (atoms : List Atom) (c : Cursor) : Except (Misstep × Translator) Translator :=
  c.state.walk (before atoms c.index) c.index 0 (atoms.drop c.index)

theorem before_zero (atoms : List Atom) : before atoms 0 = none := by
  simp [before]

theorem before_add {atoms span : List Atom} {index n : Nat} {last : Atom}
    (here : atoms.drop index = span) (positive : 0 < n) (found : span[n - 1]? = some last) :
    before atoms (index + n) = some last := by
  have found' : atoms[index + n - 1]? = some last := by
    rw [← found, ← here, List.getElem?_drop]
    congr 1
    omega
  rw [before, show index + n = index + n - 1 + 1 by omega, List.take_add_one, found']
  simp

theorem before_succ {atoms : List Atom} {index : Nat} {a : Atom} {rest : List Atom}
    (here : atoms.drop index = a :: rest) : before atoms (index + 1) = some a :=
  before_add here Nat.one_pos rfl

theorem drop_succ {atoms : List Atom} {index : Nat} {a : Atom} {rest : List Atom}
    (here : atoms.drop index = a :: rest) : atoms.drop (index + 1) = rest := by
  rw [← List.tail_drop, here, List.tail_cons]

theorem walk_skip (atoms : List Atom) (t : Translator) (index skip : Nat) :
    t.walk (before atoms index) index skip (atoms.drop index) = walk atoms ⟨index + skip, t⟩ := by
  induction skip generalizing index with
  | zero => rfl
  | succ skip ih =>
      cases here : atoms.drop index with
      | nil =>
          have past : atoms.drop (index + (skip + 1)) = [] := by
            rw [List.drop_eq_nil_iff] at here ⊢
            omega
          simp only [walk, past, Translator.walk]
      | cons a rest =>
          have next := ih (index + 1)
          rw [drop_succ here, before_succ here] at next
          rw [Translator.walk, next, show index + 1 + skip = index + (skip + 1) by omega]

theorem walk_next {atoms : List Atom} {c d : Cursor} (next : Next atoms c d) :
    walk atoms c = walk atoms d := by
  obtain ⟨a, rest, n, here, index, effect⟩ := next
  have skipped := walk_skip atoms d.state (c.index + 1) (n - 1)
  rw [drop_succ here, before_succ here] at skipped
  have positive := effect.pos
  rw [walk, here, Translator.walk, effect.construct]
  simp only [skipped]
  rw [show c.index + 1 + (n - 1) = d.index by omega]

theorem walk_runs {atoms : List Atom} {c d : Cursor} (runs : Runs atoms c d) :
    walk atoms c = walk atoms d := by
  induction runs with
  | refl => rfl
  | tail _ next ih => rw [ih, walk_next next]

theorem walk_ends {atoms : List Atom} {c : Cursor}
    {result : Except (Misstep × Translator) Translator} (ends : c.Ends atoms result) :
    walk atoms c = result := by
  simp only [Ends] at ends
  split at ends
  · rename_i used
    rw [walk, used, Translator.walk, ends]
  · rename_i a rest here
    obtain ⟨fault, rfl, failed⟩ := ends
    rw [walk, here, Translator.walk, failed]

/-- A construct that the translator accepts is one step. -/
theorem Next.of_construct {atoms : List Atom} {c : Cursor} {a : Atom} {rest : List Atom} {n : Nat}
    {t : Translator} (here : atoms.drop c.index = a :: rest)
    (accepted : c.state.construct (before atoms c.index) c.index a (a :: rest) = .ok (n, t)) :
    Next atoms c ⟨c.index + n, t⟩ :=
  ⟨a, rest, n, here, rfl, Translator.construct_effect accepted⟩

theorem next_iff {atoms : List Atom} {c d : Cursor} :
    Next atoms c d ↔ c.index ≤ d.index ∧ (atoms.drop c.index).head?.any fun a =>
      c.state.construct (before atoms c.index) c.index a (atoms.drop c.index) =
        .ok (d.index - c.index, d.state) := by
  constructor
  · rintro ⟨a, rest, n, here, index, effect⟩
    have accepted := effect.construct
    refine ⟨by omega, ?_⟩
    rw [here, List.head?_cons, Option.any_some, decide_eq_true_eq, accepted, index,
      Nat.add_sub_cancel_left]
  · rintro ⟨forward, accepted⟩
    cases here : atoms.drop c.index with
    | nil => simp [here] at accepted
    | cons a rest =>
        rw [here, List.head?_cons, Option.any_some, decide_eq_true_eq] at accepted
        exact ⟨a, rest, d.index - c.index, here, by omega, Translator.construct_effect accepted⟩

instance (atoms : List Atom) (c d : Cursor) : Decidable (Next atoms c d) :=
  decidable_of_iff _ next_iff.symm

/-- Every walk is a run to where no construct follows. -/
theorem exists_ends (atoms : List Atom) (c : Cursor) :
    ∃ d, Runs atoms c d ∧ d.Ends atoms (walk atoms c) := by
  induction remaining : atoms.length - c.index using Nat.strongRecOn generalizing c with
  | ind left ih =>
    cases here : atoms.drop c.index with
    | nil =>
        refine ⟨c, .refl, ?_⟩
        simp only [Ends, here, walk, Translator.walk]
    | cons a rest =>
        cases result : c.state.construct (before atoms c.index) c.index a (a :: rest) with
        | error fault =>
            refine ⟨c, .refl, ?_⟩
            simp only [Ends, here]
            exact ⟨fault, by simp only [walk, here, Translator.walk, result], result⟩
        | ok done =>
            obtain ⟨n, t⟩ := done
            have positive := (Translator.construct_effect result).pos
            have next := Next.of_construct here result
            have inside : c.index < atoms.length := by
              have longer := congrArg List.length here
              rw [List.length_drop, List.length_cons] at longer
              omega
            obtain ⟨d, runs, ends⟩ := ih (atoms.length - (c.index + n)) (by omega)
              ⟨c.index + n, t⟩ rfl
            exact ⟨d, .head next runs, by rw [walk_next next]; exact ends⟩

/-- A walk gives a result exactly if a run from its start ends with it. -/
theorem walk_eq_iff {atoms : List Atom} {c : Cursor}
    {result : Except (Misstep × Translator) Translator} :
    walk atoms c = result ↔ ∃ d, Runs atoms c d ∧ d.Ends atoms result := by
  constructor
  · rintro rfl
    exact exists_ends atoms c
  · rintro ⟨d, runs, ends⟩
    rw [walk_runs runs, walk_ends ends]

/-- At most one construct stands at a cursor. -/
theorem rightUnique_next (atoms : List Atom) : Relator.RightUnique (Next atoms) := by
  rintro c ⟨i, t⟩ ⟨i', t'⟩ ⟨a, rest, n, here, rfl, effect⟩ ⟨a', rest', n', here', rfl, effect'⟩
  rw [here] at here'
  cases here'
  have same := effect.construct
  rw [effect'.construct] at same
  cases same
  rfl

theorem Next.index_lt {atoms : List Atom} {c d : Cursor} (next : Next atoms c d) :
    c.index < d.index := by
  obtain ⟨a, rest, n, here, index, effect⟩ := next
  have positive := effect.pos
  omega

namespace Runs

variable {atoms : List Atom} {start c d e : Cursor}

theorem index_le (runs : Runs atoms c d) : c.index ≤ d.index := by
  induction runs with
  | refl => exact Nat.le_refl _
  | tail _ next ih => exact Nat.le_trans ih (Nat.le_of_lt next.index_lt)

/-- Cursors of one run are in the order of their indices. -/
theorem of_index_le (first : Runs atoms start c) (second : Runs atoms start d)
    (before : c.index ≤ d.index) : Runs atoms c d := by
  rcases first.total_of_right_unique (rightUnique_next atoms) second with runs | runs
  · exact runs
  · rcases Relation.ReflTransGen.cases_head runs with rfl | ⟨e, next, later⟩
    · exact .refl
    · have forward := next.index_lt
      have rest := index_le later
      omega

theorem eq_of_index (first : Runs atoms start c) (second : Runs atoms start d)
    (same : c.index = d.index) : c = d := by
  rcases Relation.ReflTransGen.cases_head (of_index_le first second (Nat.le_of_eq same)) with
    rfl | ⟨e, next, later⟩
  · rfl
  · have forward := next.index_lt
    have rest := index_le later
    omega

theorem eq_of_used (runs : Runs atoms c d) (used : atoms.drop c.index = []) : c = d := by
  rcases Relation.ReflTransGen.cases_head runs with same | ⟨e, next, -⟩
  · exact same
  · obtain ⟨a, rest, n, here, -⟩ := next
    rw [used] at here
    cases here

theorem to_end (first : Runs atoms start c) (whole : Runs atoms start e)
    (used : atoms.drop e.index = []) : Runs atoms c e := by
  rcases first.total_of_right_unique (rightUnique_next atoms) whole with runs | runs
  · exact runs
  · rw [eq_of_used runs used]

theorem of_next (first : Runs atoms start c) (next : Next atoms c d) (second : Runs atoms start e)
    (before : c.index < e.index) : Runs atoms d e := by
  rcases Relation.ReflTransGen.cases_head (of_index_le first second (Nat.le_of_lt before)) with
    rfl | ⟨d', next', later⟩
  · exact absurd before (lt_irrefl _)
  · cases rightUnique_next atoms next next'
    exact later

end Runs

end Cursor

/-- What a successful analysis leaves of a fresh unit. -/
theorem analyze_eq_ok {file : String} {atoms : List Atom} {u : CompilationUnit}
    (analyzed : ({ file, atoms } : CompilationUnit).analyze = .ok u) :
    u.atoms = atoms ∧ u.lines = [] ∧ u.prototypes = [] ∧
      SymbolTable.empty.Grows (fun _ cls => cls = .function) u.symbols := by
  simp only [CompilationUnit.analyze, CompilationUnit.scanFunctions, CompilationUnit.enter] at analyzed
  split at analyzed
  · cases analyzed
  · rename_i u' scanned
    split at scanned
    · rename_i symbols declared
      cases scanned
      cases analyzed
      exact ⟨rfl, rfl, rfl, declareFunctions_grows declared⟩
    · cases scanned

/-- A translation succeeds exactly if a run uses up the atoms and what is then open can be closed. -/
theorem CompilationUnit.translate_eq_ok {u v : CompilationUnit} :
    u.translate = .ok v ↔
      ∃ c t, Cursor.Runs u.atoms ⟨0, u.translator⟩ c ∧ u.atoms.drop c.index = [] ∧
        c.state.closeRemaining c.state.blocks = .ok t ∧ v = (u.enter .convert).absorb t := by
  have walks : Cursor.walk u.atoms ⟨0, u.translator⟩ = u.translator.walk none 0 0 u.atoms := by
    rw [Cursor.walk, Cursor.before_zero, List.drop_zero]
  have whole : u.translate = .ok v ↔
      ∃ t, u.translator.walk none 0 0 u.atoms = .ok t ∧ v = (u.enter .convert).absorb t := by
    have entered : (u.enter .convert).translator.walk none 0 0 (u.enter .convert).atoms =
      u.translator.walk none 0 0 u.atoms := rfl
    simp only [translate, entered]
    cases u.translator.walk none 0 0 u.atoms with
    | ok t => simp [eq_comm]
    | error e => simp
  rw [whole, ← walks]
  constructor
  · rintro ⟨t, walked, rfl⟩
    obtain ⟨c, runs, ends⟩ := Cursor.walk_eq_iff.mp walked
    simp only [Cursor.Ends] at ends
    split at ends
    · rename_i used
      exact ⟨c, t, runs, used, ends, rfl⟩
    · obtain ⟨fault, failed, -⟩ := ends
      cases failed
  · rintro ⟨c, t, runs, used, closed, rfl⟩
    refine ⟨t, Cursor.walk_eq_iff.mpr ⟨c, runs, ?_⟩, rfl⟩
    simp only [Cursor.Ends, used, closed]

end DawnC
