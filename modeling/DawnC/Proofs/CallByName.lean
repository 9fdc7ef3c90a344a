import DawnC.Proofs.ArgumentList
import DawnC.Proofs.FunctionNames

set_option autoImplicit false

namespace DawnC

def callLine (name : String) (arguments : List (List Atom)) : String :=
  name ++ "(" ++ String.intercalate ", " (arguments.map argumentText) ++ ");"

theorem isPlainLine_callLine (name : String) (arguments : List (List Atom)) :
    IsPlainLine (callLine name arguments) :=
  getLast?_append _ (by decide)

/-- What follows a name starts with one list of arguments at most: the call of it is determined. -/
theorem ArgumentList.call_eq {arguments arguments' : List (List Atom)} {span span' rest : List Atom}
    (list : ArgumentList arguments span) (list' : ArgumentList arguments' span') (here : span <+: rest)
    (here' : span' <+: rest) (name : String) :
    callLine name arguments = callLine name arguments' ∧ span.length = span'.length := by
  have read : DawnC.arguments 0 rest = .ok (arguments.map argumentText, span.length) :=
    arguments_eq_ok.mpr ⟨arguments, span, here, list, rfl, rfl⟩
  rw [arguments_eq_ok.mpr ⟨arguments', span', here', list', rfl, rfl⟩] at read
  simp only [Except.ok.injEq, Prod.mk.injEq] at read
  refine ⟨?_, read.2.symm⟩
  rw [callLine, callLine, read.1]

namespace Translator

variable {t t' : Translator} {previous : Option Atom} {i n : Nat} {a : Atom} {rest : List Atom}

/-- Where the name of a function leads a construct, it takes a list of arguments and emits the call. -/
theorem Effect.of_function_name (effect : Effect t previous i a rest n t') (isWord : a.kind = .word)
    (free : a.text ∉ leadingWords) (isFunction : t.symbols.classOf a.text = .function) :
    ∃ arguments span, span <+: rest ∧ ArgumentList arguments span ∧ n = 1 + span.length ∧
      t' = t.emit (callLine a.text arguments) := by
  have accepted := effect.construct
  rw [construct_of_free isWord free, keeping_eq_ok] at accepted
  simp only [identifier, isFunction, Translator.call, List.drop_succ_cons, List.drop_zero,
    bind_eq_ok] at accepted
  obtain ⟨⟨args, taken⟩, read, accepted⟩ := accepted
  obtain ⟨arguments, span, here, list, rfl, rfl⟩ := arguments_eq_ok.mp read
  dsimp only at accepted
  split at accepted
  · cases accepted
  · cases accepted
    exact ⟨arguments, span, here, list, rfl, rfl⟩

/-- A word that leads a construct of its own never emits a call of itself. -/
theorem Effect.not_call (effect : Effect t previous i a rest n t') (isWord : a.kind = .word)
    (leading : a.text ∈ leadingWords) (arguments : List (List Atom)) :
    t'.lines ≠ t.lines ++ [callLine a.text arguments] := by
  have apart {line : String} (different : line ≠ callLine a.text arguments) :
      t.lines ++ [line] ≠ t.lines ++ [callLine a.text arguments] := by
    intro same
    exact different (by simpa using same)
  -- the lines that start like a call of the word open a block, and a call does not
  have opener {line : String} (last : line.toList.getLast? = some '\x7b') :
      t.lines ++ [line] ≠ t.lines ++ [callLine a.text arguments] :=
    apart ((isPlainLine_callLine _ _).ne (by simp [last])).symm
  cases effect with
  | print word =>
      apply apart
      simp [callLine, word.2, ← String.toList_inj]
  | printFormatted word rule =>
      simp only [List.mem_cons, Prod.mk.injEq, List.not_mem_nil, or_false] at rule
      apply apart
      rcases rule with ⟨rfl, -⟩ | ⟨rfl, -⟩ <;> simp [callLine, word.2, ← String.toList_inj]
  | printListElement word =>
      apply apart
      simp [callLine, word.2, ← String.toList_inj]
  | declaration word scalar =>
      simp only [List.mem_cons, List.not_mem_nil, or_false] at scalar
      apply apart
      rcases scalar with rfl | rfl | rfl <;>
        simp [callLine, word.2, SymbolClass.name, declarator, ← String.toList_inj]
  | intList word =>
      apply apart
      simp [callLine, word.2, ← String.toList_inj]
  | assignment _ free => exact absurd leading free
  | call _ free => exact absurd leading free
  | forLoop word => exact opener (getLast?_append _ (by decide))
  | thenEnd word =>
      apply apart
      simp [callLine, word.2, ← String.toList_inj]
  | conditional word => exact opener (getLast?_append _ (by decide))
  | elseIf word =>
      apply apart
      simp [callLine, word.2, ← String.toList_inj]
  | otherwise word => exact opener (by decide)
  | mainFunction word => exact opener (by decide)
  | namedFunction word => exact opener (getLast?_append _ (by decide))
  | closeBrace notWord => exact absurd isWord notWord
  | closeBlock notWord => exact absurd isWord notWord
  | directive => simp

end Translator

namespace Cursor

variable {atoms : List Atom} {start c : Cursor}

/-- Every atom that a run has passed belongs to one of its constructs. -/
theorem Runs.covers (runs : Runs atoms start c) {i : Nat} (after : start.index ≤ i)
    (passed : i < c.index) :
    ∃ e d, Runs atoms start e ∧ Next atoms e d ∧ e.index ≤ i ∧ i < d.index := by
  induction runs with
  | refl => omega
  | @tail e d runs next ih =>
      by_cases before : i < e.index
      · exact ih before
      · exact ⟨e, d, runs, next, by omega, passed⟩

/-- The construct that comes next is the one that starts with the next atom. -/
theorem Next.effect {d : Cursor} (next : Next atoms c d) {a : Atom} {rest : List Atom}
    (here : atoms.drop c.index = a :: rest) :
    ∃ n, d.index = c.index + n ∧
      Translator.Effect c.state (before atoms c.index) c.index a rest n d.state := by
  obtain ⟨a', rest', n, here', index, effect⟩ := next
  rw [here] at here'
  cases here'
  exact ⟨n, index, effect⟩

theorem Runs.goes_on {e : Cursor} (reached : Runs atoms start c) (runs : Runs atoms start e)
    (used : atoms.drop e.index = []) (left : atoms.drop c.index ≠ []) :
    ∃ d, Next atoms c d ∧ Runs atoms d e := by
  rcases Relation.ReflTransGen.cases_head (Runs.to_end reached runs used) with rfl | ⟨d, next, later⟩
  · exact absurd used left
  · exact ⟨d, next, later⟩

/-- What a construct emits stands in the lines of the whole, at the place where it was emitted. -/
theorem Runs.emitted_at {d e : Cursor} {line : String} (later : Runs atoms d e)
    (emitted : d.state.lines = c.state.lines ++ [line]) {t : Translator}
    (closed : e.state.closeRemaining e.state.blocks = .ok t) : t.lines[c.state.lines.length]? = some line := by
  have kept : d.state.lines <+: t.lines := by
    rw [Translator.closeRemaining_lines closed]
    exact later.lines.trans (List.prefix_append _ _)
  obtain ⟨after, split⟩ := kept
  rw [← split, emitted, List.append_assoc, List.singleton_append]
  simp

end Cursor

open Cursor in
/-- A construct that starts with the name of a function has a list of arguments after it, and is
translated to the line that calls the function with them, if the name leads no construct of its own. If
it does, its constructs emit no call. Statements at which no construct starts lie in the span of an
earlier one. -/
theorem functions_called_by_name (file : String) (atoms : List Atom) (u v : CompilationUnit)
    (analyzed : ({ file, atoms } : CompilationUnit).analyze = .ok u)
    (translated : u.translate = .ok v) :
    (∀ i < atoms.length, ∃ c d, Runs atoms ⟨0, u.translator⟩ c ∧ Next atoms c d ∧
      c.index ≤ i ∧ i < d.index) ∧
    ∀ name c a rest, name ≠ entryFunction → (∃ i, FunctionAt atoms i name) →
      Runs atoms ⟨0, u.translator⟩ c → atoms.drop c.index = a :: rest → a.IsWord name →
      (name ∉ leadingWords → (∃ arguments span, ArgumentList arguments span ∧ span <+: rest) ∧
        ∀ arguments span, ArgumentList arguments span → span <+: rest →
          Next atoms c ⟨c.index + 1 + span.length, c.state.emit (callLine name arguments)⟩ ∧
          v.lines[c.state.lines.length]? = some (callLine name arguments)) ∧
      (name ∈ leadingWords → ∀ d arguments, Next atoms c d →
        d.state.lines ≠ c.state.lines ++ [callLine name arguments]) := by
  obtain ⟨e, t, runs, used, closed, rfl⟩ := CompilationUnit.translate_eq_ok.mp translated
  rw [(analyze_eq_ok analyzed).1] at runs used
  have whole := List.drop_eq_nil_iff.mp used
  refine ⟨fun i inside => runs.covers (Nat.zero_le i) (by omega), ?_⟩
  rintro name c a rest notMain defined reached here ⟨isWord, rfl⟩
  constructor
  · intro free
    have isFunction : c.state.symbols.classOf a.text = .function := by
      rw [SymbolTable.classOf_eq (by decide), reached.functions]
      exact (classOf_of_analyze analyzed a.text).mpr ⟨notMain, defined⟩
    obtain ⟨d, next, later⟩ := Runs.goes_on reached runs used (by simp [here])
    obtain ⟨n, index, effect⟩ := next.effect here
    obtain ⟨arguments, span, taken, list, rfl, state⟩ :=
      effect.of_function_name isWord free isFunction
    refine ⟨⟨arguments, span, list, taken⟩, ?_⟩
    intro arguments' span' list' taken'
    obtain ⟨line, length⟩ := list'.call_eq list taken' taken a.text
    rw [line, length, Nat.add_assoc, ← index, ← state]
    exact ⟨next, later.emitted_at (by rw [state, Translator.emit]) closed⟩
  · intro leading d arguments next
    obtain ⟨n, index, effect⟩ := next.effect here
    exact effect.not_call isWord leading arguments

open Cursor in
/-- A call before the definition, with an argument of several atoms. -/
theorem functions_called_by_name_forward :
    let lines := ["function main() \x7b", "area(3, 4 + 5)", "\x7d",
      "function area(int a, int b) \x7b", "\x7d"].map Utf8.encode
    let atoms := lex "a.dawn" lines
    let arguments := [(atoms.drop 4).take 1, (atoms.drop 6).take 3]
    ∃ u v, ({ file := "a.dawn", atoms } : CompilationUnit).analyze = .ok u ∧ u.translate = .ok v ∧
      ArgumentList arguments ((atoms.drop 4).take 6) ∧
      callLine "area" arguments = "area(3, 4 + 5);" ∧
      v.lines[1]? = some (callLine "area" arguments) := by
  intro lines atoms arguments
  let u : CompilationUnit :=
    { file := "a.dawn", atoms, symbols := .ofList [("area", .function)], phase := .importScan }
  let inMain : Cursor := ⟨3, ⟨u.symbols, [], ["int main()\x7b"], [⟨.function, 0, false⟩], none⟩⟩
  have enters : Runs atoms ⟨0, u.translator⟩ inMain := .single (by decide)
  have list : ArgumentList arguments ((atoms.drop 4).take 6) :=
    have second : ArgumentList [(atoms.drop 6).take 3] ((atoms.drop 6).take 4) :=
      @ArgumentList.last ((atoms.drop 6).take 3) _ (by decide) (by decide) rfl
    @ArgumentList.more ((atoms.drop 4).take 1) _ _ _ (by decide) (by decide) rfl (by decide) second
  obtain ⟨v, translated, -⟩ := toOption_map_eq_some.mp
    (by decide : (u.translate.toOption.map fun v => v.lines.length) = some 5)
  have reach := (functions_called_by_name "a.dawn" atoms u v rfl translated).2 "area" inMain
    _ (atoms.drop 4) (by decide) ⟨11, _, _, rfl, by decide, rfl, rfl⟩ enters rfl ⟨rfl, rfl⟩
  exact ⟨u, v, rfl, translated, list, by decide,
    ((reach.1 (by decide)).2 arguments _ list (List.take_prefix 6 _)).2⟩

/-- A keyword is accepted as the name of a function, and the statement that should call it is the
keyword's own. -/
theorem keyword_named_function_not_called :
    let lines := ["function print(int n) \x7b", "\x7d", "print(3)"].map Utf8.encode
    let atoms := lex "t.dawn" lines
    let arguments := [(atoms.drop 7).take 1]
    ∃ u v, ({ file := "t.dawn", atoms } : CompilationUnit).analyze = .ok u ∧ u.translate = .ok v ∧
      FunctionAt atoms 0 "print" ∧ v.symbols.classOf "print" = .function ∧
      (atoms.drop 6).head?.any (·.is "print") = true ∧ ArgumentList arguments (atoms.drop 7) ∧
      callLine "print" arguments = "print(3);" ∧
      v.lines = ["void print(int n)\x7b", "\x7d", "printf(3);"] := by
  intro lines atoms arguments
  let u : CompilationUnit :=
    { file := "t.dawn", atoms, symbols := .ofList [("print", .function)], headers := ["<stdio.h>"],
      phase := .importScan }
  have list : ArgumentList arguments (atoms.drop 7) :=
    @ArgumentList.last ((atoms.drop 7).take 1) _ (by decide) (by decide) rfl
  obtain ⟨v, translated, facts⟩ := toOption_map_eq_some.mp
    (by decide : (u.translate.toOption.map fun v => (v.symbols.classOf "print", v.lines)) =
      some (.function, ["void print(int n)\x7b", "\x7d", "printf(3);"]))
  simp only [Prod.mk.injEq] at facts
  exact ⟨u, v, rfl, translated, ⟨_, _, rfl, by decide, rfl, rfl⟩, facts.1, by decide, list, by decide,
    facts.2⟩

end DawnC
