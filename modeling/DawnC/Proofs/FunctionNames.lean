import DawnC.Proofs.DeclaredNames

set_option autoImplicit false

namespace DawnC

/-- The word `function` stands at the index, and `name` after it. -/
def FunctionAt (atoms : List Atom) (i : Nat) (name : String) : Prop :=
  ∃ a b, atoms[i]? = some a ∧ a.is "function" = true ∧ atoms[i + 1]? = some b ∧ b.text = name

theorem functionAt_cons_succ {a : Atom} {rest : List Atom} {i : Nat} {name : String} :
    FunctionAt (a :: rest) (i + 1) name ↔ FunctionAt rest i name := by
  simp only [FunctionAt, List.getElem?_cons_succ]

theorem functionAt_cons_zero {a b : Atom} {rest : List Atom} {name : String} :
    FunctionAt (a :: b :: rest) 0 name ↔ a.is "function" = true ∧ b.text = name := by
  simp [FunctionAt]

theorem functionAt_of_drop {atoms rest : List Atom} {a : Atom} {i : Nat} {name : String}
    (here : atoms.drop i = a :: rest) :
    FunctionAt atoms i name ↔ a.is "function" = true ∧ rest.head?.map Atom.text = some name := by
  have first : atoms[i]? = some a := by rw [← List.head?_drop, here, List.head?_cons]
  have second : atoms[i + 1]? = rest.head? := by rw [← List.head?_drop, Cursor.drop_succ here]
  simp only [FunctionAt, first, second, Option.map_eq_some_iff, Option.some_inj]
  constructor
  · rintro ⟨_, b, rfl, isFunction, found, named⟩
    exact ⟨isFunction, b, found, named⟩
  · rintro ⟨isFunction, b, found, named⟩
    exact ⟨a, b, rfl, isFunction, found, named⟩

/-- The scan declares the names that stand after the word `function`. -/
theorem declareFunctions_names {table table' : SymbolTable} {index : Nat} {atoms : List Atom}
    (success : declareFunctions table index atoms = .ok table') (name : String) :
    table'.get? name = some .function ↔ table.get? name = some .function ∨
      name ≠ entryFunction ∧ ∃ i, FunctionAt atoms i name := by
  induction atoms generalizing table index with
  | nil =>
      cases success
      simp [FunctionAt]
  | cons a rest ih =>
      -- the names after a later word are those of the rest; `here` is the name after this one
      have split (here : Prop) (first : FunctionAt (a :: rest) 0 name ↔ here) :
          (∃ i, FunctionAt (a :: rest) i name) ↔ here ∨ ∃ i, FunctionAt rest i name := by
        constructor
        · rintro ⟨i, found⟩
          cases i with
          | zero => exact Or.inl (first.mp found)
          | succ i => exact Or.inr ⟨i, functionAt_cons_succ.mp found⟩
        · rintro (found | ⟨i, found⟩)
          · exact ⟨0, first.mpr found⟩
          · exact ⟨i + 1, functionAt_cons_succ.mpr found⟩
      simp only [declareFunctions] at success
      split at success
      · rename_i other
        rw [ih success, split False (by simp_all [FunctionAt])]
        simp
      · rename_i isFunction
        have isFunction : a.is "function" = true := by simpa using isFunction
        split at success
        · cases success
        · rename_i b tail
          rw [split (b.text = name) (by simp [functionAt_cons_zero, isFunction])]
          split at success
          · cases success
          · split at success
            · rename_i isMain
              rw [ih success]
              simp only [isMain]
              grind
            · rename_i notMain
              split at success
              · cases success
              · rename_i declared
                rw [ih success, get?_declare_iff declared]
                simp only [List.mem_singleton, Prod.mk.injEq, and_true]
                grind

/-- The function that a prototype declares: what stands between its type and its parameters. -/
def prototypeName (line : String) : String :=
  String.ofList ((line.toList.drop 5).takeWhile (· ≠ '('))

theorem prototypeName_signature {name : String} (isName : isIdentifier name = true)
    (parameters : List String) :
    prototypeName (Translator.signature name parameters ++ ";") = name := by
  have plain : ∀ c ∈ name.toList, decide (c ≠ '(') = true := by
    intro c member
    have kept := List.all_eq_true.mp (all_isPlainChar isName) c member
    rw [decide_eq_true_eq]
    rintro rfl
    exact absurd kept (by decide)
  have shape : (Translator.signature name parameters ++ ";").toList.drop 5 =
      name.toList ++ '(' :: (String.intercalate ", " parameters ++ ");").toList := by
    simp [Translator.signature]
  rw [prototypeName, shape, List.takeWhile_append_of_pos plain, List.takeWhile_cons_of_neg (by simp),
    List.append_nil, String.ofList_toList]

namespace Translator

variable {t t' : Translator} {previous : Option Atom} {i n : Nat} {a : Atom} {rest : List Atom}

/-- Only a function adds a prototype. -/
theorem Effect.prototypes_eq (effect : Effect t previous i a rest n t')
    (other : a.is "function" = false) : t'.prototypes = t.prototypes := by
  cases effect with
  | namedFunction word =>
      rw [word.is] at other
      cases other
  | closeBrace => exact t.settle_prototypes
  | closeBlock => exact t.settle_prototypes
  | _ => rfl

/-- A construct that starts with `function` defines the function after it, unless that is the entry
function. -/
theorem Effect.of_function (effect : Effect t previous i a rest n t')
    (isFunction : a.is "function" = true) :
    ∃ name tail, rest = name :: tail ∧
      (name.text = entryFunction ∧ t'.prototypes = t.prototypes ∨
        isIdentifier name.text = true ∧ name.text ≠ entryFunction ∧ ∃ parameters,
          t'.prototypes = t.prototypes ++ [signature name.text parameters ++ ";"] ∧
          t'.lines = t.lines ++ [signature name.text parameters ++ "\x7b"]) := by
  have apart {text : String} {P : Prop} (is : a.is text = true) (different : text ≠ "function") : P :=
    absurd (Atom.eq_of_is is isFunction) different
  have leading : a.text ∈ leadingWords := by
    simp only [Atom.is, Bool.and_eq_true, decide_eq_true_eq] at isFunction
    rw [isFunction.2]
    decide
  cases effect with
  | mainFunction word atTop shape isMain read bare =>
      exact ⟨_, _, shape, Or.inl ⟨isMain.2, rfl⟩⟩
  | namedFunction word atTop shape isName notMain read =>
      exact ⟨_, _, shape, Or.inr ⟨isName.2, notMain, _, rfl, rfl⟩⟩
  | print word => exact apart word.is (by decide)
  | printFormatted word rule =>
      simp only [List.mem_cons, Prod.mk.injEq, List.not_mem_nil, or_false] at rule
      rcases rule with ⟨rfl, -⟩ | ⟨rfl, -⟩ <;> exact apart word.is (by decide)
  | printListElement word => exact apart word.is (by decide)
  | declaration word scalar =>
      simp only [List.mem_cons, List.not_mem_nil, or_false] at scalar
      rcases scalar with rfl | rfl | rfl <;> exact apart word.is (by decide)
  | intList word => exact apart word.is (by decide)
  | assignment isWord free => exact absurd leading free
  | call isWord free => exact absurd leading free
  | forLoop word => exact apart word.is (by decide)
  | thenEnd word => exact apart word.is (by decide)
  | conditional word => exact apart word.is (by decide)
  | elseIf word => exact apart word.is (by decide)
  | otherwise word => exact apart word.is (by decide)
  | closeBrace notWord brace => exact apart brace (by decide)
  | closeBlock notWord brace => exact apart brace (by decide)
  | directive isWord isInclude =>
      rcases isInclude with text | text <;>
        exact apart (Atom.IsWord.is ⟨isWord, text⟩) (by decide)

/-- A construct that emits a call finds its name among the functions. -/
theorem Effect.calls (effect : Effect t previous i a rest n t') (isWord : a.kind = .word)
    (free : a.text ∉ leadingWords) {after : String}
    (emitted : t'.lines = t.lines ++ [a.text ++ "(" ++ after]) :
    t.symbols.classOf a.text = .function := by
  have listed := free
  simp only [leadingWords, List.mem_cons, List.not_mem_nil, or_false, not_or] at listed
  cases effect with
  | call _ _ isFunction => exact isFunction
  | assignment _ _ assignable =>
      -- the line of an assignment has a blank where a call has its parenthesis
      simp only [emit, List.append_cancel_left_eq, List.cons.injEq, and_true, ← String.toList_inj,
        String.toList_append, List.append_assoc] at emitted
      simp at emitted
  | printFormatted word rule args =>
      simp only [List.mem_cons, Prod.mk.injEq, List.not_mem_nil, or_false] at rule
      rcases rule with ⟨rfl, -⟩ | ⟨rfl, -⟩ <;> simp_all [Atom.IsWord]
  | declaration word scalar =>
      simp only [List.mem_cons, List.not_mem_nil, or_false] at scalar
      rcases scalar with rfl | rfl | rfl <;> simp_all [Atom.IsWord, SymbolClass.name]
  | closeBrace notWord => exact absurd isWord notWord
  | closeBlock notWord => exact absurd isWord notWord
  | _ => simp_all [Atom.IsWord]

theorem closeRemaining_keeps (closed : t.closeRemaining t.blocks = .ok t') :
    t'.symbols = t.symbols ∧ t'.prototypes = t.prototypes :=
  (closeRemaining_induction (P := fun x => x.symbols = t.symbols ∧ x.prototypes = t.prototypes)
    (fun _ _ _ _ _ holds => holds) ⟨rfl, rfl⟩ closed).1

end Translator

namespace Cursor

open Translator (signature)

variable {atoms : List Atom} {start c d : Cursor}

/-- A construct of the run starts at the word `function` before the name. -/
def Introduces (atoms : List Atom) (start : Cursor) (name : String) : Prop :=
  ∃ c, Runs atoms start c ∧ FunctionAt atoms c.index name

/-- The prototypes are of the functions that the constructs before the cursor introduce, and each has its
definition among the lines. -/
structure Defines (atoms : List Atom) (start c : Cursor) : Prop where
  names : ∀ name, name ∈ c.state.prototypes.map prototypeName ↔
    name ≠ entryFunction ∧ ∃ e, Runs atoms start e ∧ e.index < c.index ∧ FunctionAt atoms e.index name
  headers : ∀ name ∈ c.state.prototypes.map prototypeName, ∃ parameters,
    signature name parameters ++ "\x7b" ∈ c.state.lines ∧
      signature name parameters ++ ";" ∈ c.state.prototypes

theorem before_next (runs : Runs atoms start c) (next : Next atoms c d) (P : Nat → Prop) :
    (∃ e, Runs atoms start e ∧ e.index < d.index ∧ P e.index) ↔
      (∃ e, Runs atoms start e ∧ e.index < c.index ∧ P e.index) ∨ P c.index := by
  have forward := next.index_lt
  constructor
  · rintro ⟨e, reached, inside, holds⟩
    rcases Nat.lt_trichotomy e.index c.index with before | same | after
    · exact Or.inl ⟨e, reached, before, holds⟩
    · exact Or.inr (same ▸ holds)
    · have later := (Runs.of_next runs next reached after).index_le
      omega
  · rintro (⟨e, reached, before, holds⟩ | holds)
    · exact ⟨e, reached, Nat.lt_trans before forward, holds⟩
    · exact ⟨c, runs, forward, holds⟩

/-- The construct at a cursor keeps the account of the functions before it. -/
theorem Defines.next (defines : Defines atoms start c) (runs : Runs atoms start c)
    (next : Next atoms c d) : Defines atoms start d := by
  have grows := next.lines.subset
  have split (name : String) := before_next runs next (FunctionAt atoms · name)
  obtain ⟨a, rest, n, here, index, effect⟩ := next
  -- a construct that adds no prototype introduces no function but the entry function
  have unchanged (same : d.state.prototypes = c.state.prototypes)
      (none : ∀ name, name ≠ entryFunction → ¬ FunctionAt atoms c.index name) :
      Defines atoms start d := by
    constructor
    · intro name
      rw [same, split, defines.names]
      refine and_congr_right fun notMain => ?_
      rw [or_iff_left (none name notMain)]
    · intro name member
      rw [same] at member ⊢
      obtain ⟨parameters, header, prototype⟩ := defines.headers name member
      exact ⟨parameters, grows header, prototype⟩
  by_cases isFunction : a.is "function" = true
  · obtain ⟨b, tail, shape, defined⟩ := effect.of_function isFunction
    have found (name : String) : FunctionAt atoms c.index name ↔ name = b.text := by
      rw [functionAt_of_drop here, shape, List.head?_cons, Option.map_some, Option.some_inj]
      exact ⟨fun named => named.2.symm, fun named => ⟨isFunction, named.symm⟩⟩
    rcases defined with ⟨isMain, same⟩ | ⟨isName, notMain, parameters, prototypes, lines⟩
    · refine unchanged same fun name notMain here => notMain ?_
      rw [(found name).mp here, isMain]
    · have names (name : String) : name ∈ d.state.prototypes.map prototypeName ↔
          name ∈ c.state.prototypes.map prototypeName ∨ name = b.text := by
        rw [prototypes, List.map_append, List.map_singleton, List.mem_append, List.mem_singleton,
          prototypeName_signature isName parameters]
      constructor
      · intro name
        rw [names, split, found, defines.names]
        constructor
        · rintro (⟨other, before⟩ | rfl)
          · exact ⟨other, Or.inl before⟩
          · exact ⟨notMain, Or.inr rfl⟩
        · rintro ⟨other, before | rfl⟩
          · exact Or.inl ⟨other, before⟩
          · exact Or.inr rfl
      · intro name member
        rw [lines, prototypes]
        rcases (names name).mp member with old | rfl
        · obtain ⟨parameters, header, prototype⟩ := defines.headers name old
          exact ⟨parameters, List.mem_append_left _ header, List.mem_append_left _ prototype⟩
        · exact ⟨parameters, by simp, by simp⟩
  · refine unchanged (effect.prototypes_eq (by simpa using isFunction)) fun name _ => ?_
    rw [functionAt_of_drop here]
    exact fun found => isFunction found.1

/-- Along a run from the start of the atoms the prototypes are of the functions introduced so far. -/
theorem Runs.defines {t : Translator} (noPrototypes : t.prototypes = [])
    (runs : Runs atoms ⟨0, t⟩ c) : Defines atoms ⟨0, t⟩ c := by
  induction runs with
  | refl =>
      refine ⟨fun name => ?_, fun name member => ?_⟩
      · simp [noPrototypes]
      · simp [noPrototypes] at member
  | tail runs next ih => exact ih.next runs next

/-- Constructs declare variables only, so the functions of the table stay. -/
theorem Runs.functions (runs : Runs atoms c d) (name : String) :
    d.state.symbols.get? name = some .function ↔ c.state.symbols.get? name = some .function := by
  induction runs with
  | refl => exact Iff.rfl
  | tail _ next ih =>
      obtain ⟨a, rest, n, here, index, effect⟩ := next
      have grows := effect.grows
      refine Iff.trans ⟨fun found => ?_, grows.keeps name .function⟩ ih
      rcases grows.adds name .function found with old | ⟨-, isVariable⟩
      · exact old
      · cases isVariable

/-- The construct at a cursor of the run starts with the name and emits the line, a call of the name. -/
def Calls (atoms : List Atom) (start : Cursor) (name line : String) : Prop :=
  ∃ c d a rest args, Runs atoms start c ∧ Next atoms c d ∧ atoms.drop c.index = a :: rest ∧
    a.IsWord name ∧ name ∉ leadingWords ∧
    line = name ++ "(" ++ String.intercalate ", " args ++ ");" ∧
    d.state.lines = c.state.lines ++ [line]

/-- A call is of a function of the table, and its line stays. -/
theorem Calls.exists_next {name line : String} (calls : Calls atoms start name line) :
    ∃ c d, Runs atoms start c ∧ Next atoms c d ∧ c.state.symbols.get? name = some .function ∧
      line ∈ d.state.lines := by
  obtain ⟨c, d, a, rest, args, reached, next, here, ⟨isWord, rfl⟩, free, shape, emitted⟩ := calls
  refine ⟨c, d, reached, next, ?_, by simp [emitted]⟩
  obtain ⟨a', rest', n, here', -, effect⟩ := next
  rw [here] at here'
  cases here'
  rw [shape, @String.append_assoc (a.text ++ "(")] at emitted
  exact (SymbolTable.classOf_eq (by decide)).mp (effect.calls isWord free emitted)

end Cursor

/-- After the scan the functions are the names after the word `function`, the entry function apart. -/
theorem classOf_of_analyze {file : String} {atoms : List Atom} {u : CompilationUnit}
    (analyzed : ({ file, atoms } : CompilationUnit).analyze = .ok u) (name : String) :
    u.symbols.get? name = some .function ↔ name ≠ entryFunction ∧ ∃ i, FunctionAt atoms i name := by
  simp only [CompilationUnit.analyze, CompilationUnit.scanFunctions, CompilationUnit.enter] at analyzed
  split at analyzed
  · cases analyzed
  · rename_i u' scanned
    split at scanned
    · rename_i symbols declared
      cases scanned
      cases analyzed
      refine (declareFunctions_names declared name).trans ?_
      simp [SymbolTable.empty, SymbolTable.get?]
    · cases scanned

open Cursor in
/-- A translated unit calls functions of its table. The table's functions are the names after the word
`function`, and the prototypes are of those that a construct introduces; the two are the same set exactly
if every such name is introduced. A call of a name that is introduced has a definition among the lines
and the prototype to it. -/
theorem calls_reach_definitions (file : String) (atoms : List Atom) (u v : CompilationUnit)
    (analyzed : ({ file, atoms } : CompilationUnit).analyze = .ok u)
    (translated : u.translate = .ok v) :
    (∀ name, v.symbols.classOf name = .function ↔
      name ≠ entryFunction ∧ ∃ i, FunctionAt atoms i name) ∧
    (∀ name, name ∈ v.prototypes.map prototypeName ↔
      name ≠ entryFunction ∧ Introduces atoms ⟨0, u.translator⟩ name) ∧
    ((∀ name, v.symbols.classOf name = .function ↔ name ∈ v.prototypes.map prototypeName) ↔
      ∀ i name, FunctionAt atoms i name → name ≠ entryFunction →
        Introduces atoms ⟨0, u.translator⟩ name) ∧
    ∀ name line, Calls atoms ⟨0, u.translator⟩ name line →
      line ∈ v.lines ∧ v.symbols.classOf name = .function ∧
      (Introduces atoms ⟨0, u.translator⟩ name → ∃ parameters,
        Translator.signature name parameters ++ "\x7b" ∈ v.lines ∧
        Translator.signature name parameters ++ ";" ∈ v.prototypes) := by
  obtain ⟨c, t, runs, used, closed, rfl⟩ := CompilationUnit.translate_eq_ok.mp translated
  obtain ⟨sameAtoms, -, noPrototypes, -⟩ := analyze_eq_ok analyzed
  rw [sameAtoms] at runs used
  obtain ⟨symbols, prototypes⟩ := Translator.closeRemaining_keeps closed
  have defines := runs.defines noPrototypes
  have class_iff (name : String) : t.symbols.classOf name = .function ↔
      name ≠ entryFunction ∧ ∃ i, FunctionAt atoms i name := by
    rw [SymbolTable.classOf_eq (by decide), symbols, runs.functions]
    exact classOf_of_analyze analyzed name
  have defined_iff (name : String) : name ∈ t.prototypes.map prototypeName ↔
      name ≠ entryFunction ∧ Introduces atoms ⟨0, u.translator⟩ name := by
    rw [prototypes, defines.names]
    refine and_congr_right fun _ => ⟨?_, ?_⟩
    · rintro ⟨e, reached, -, found⟩
      exact ⟨e, reached, found⟩
    · rintro ⟨e, reached, found⟩
      refine ⟨e, reached, ?_, found⟩
      obtain ⟨a, -, present, -⟩ := found
      have inside := (List.getElem?_eq_some_iff.mp present).1
      have past := List.drop_eq_nil_iff.mp used
      omega
  refine ⟨class_iff, defined_iff, ?_, ?_⟩
  · constructor
    · intro same i name found notMain
      exact ((defined_iff name).mp ((same name).mp ((class_iff name).mpr ⟨notMain, i, found⟩))).2
    · intro introduced name
      refine (class_iff name).trans (Iff.trans (and_congr_right fun notMain => ?_)
        (defined_iff name).symm)
      constructor
      · rintro ⟨i, found⟩
        exact introduced i name found notMain
      · rintro ⟨e, -, found⟩
        exact ⟨e.index, found⟩
  · intro name line calls
    obtain ⟨e, d, reached, next, found, emitted⟩ := calls.exists_next
    have kept : t.lines = c.state.lines ++ _ := Translator.closeRemaining_lines closed
    have member : line ∈ t.lines := by
      have later := Runs.to_end (reached.tail next) runs used
      rw [kept]
      exact List.mem_append_left _ (later.lines.subset emitted)
    have isFunction : t.symbols.classOf name = .function := by
      rw [SymbolTable.classOf_eq (by decide), symbols, (Runs.to_end reached runs used).functions]
      exact found
    refine ⟨member, isFunction, fun introduced => ?_⟩
    have listed := (defined_iff name).mpr ⟨((class_iff name).mp isFunction).1, introduced⟩
    rw [prototypes] at listed
    obtain ⟨parameters, header, prototype⟩ := defines.headers name listed
    refine ⟨parameters, ?_, ?_⟩
    · show _ ∈ t.lines
      rw [kept]
      exact List.mem_append_left _ header
    · show _ ∈ t.prototypes
      rw [prototypes]
      exact prototype

open Cursor in
/-- A function may be called before its definition: the scan knows it, and its prototype comes first. -/
theorem calls_reach_definitions_forward :
    let lines := ["function main() \x7b", "greet(3)", "\x7d", "function greet(int n) \x7b",
      "print_int(n)", "\x7d"].map Utf8.encode
    let atoms := lex "a.dawn" lines
    ∃ u v, ({ file := "a.dawn", atoms } : CompilationUnit).analyze = .ok u ∧ u.translate = .ok v ∧
      Calls atoms ⟨0, u.translator⟩ "greet" "greet(3);" ∧ v.symbols.classOf "greet" = .function ∧
      (∀ name, v.symbols.classOf name = .function ↔ name ∈ v.prototypes.map prototypeName) ∧
      ∃ parameters, Translator.signature "greet" parameters ++ "\x7b" ∈ v.lines ∧
        Translator.signature "greet" parameters ++ ";" ∈ v.prototypes := by
  intro lines atoms
  let functions : SymbolTable := .ofList [("greet", .function)]
  let u : CompilationUnit :=
    { file := "a.dawn", atoms, symbols := functions, headers := ["<stdio.h>"], phase := .importScan }
  let header := "int main()\x7b"
  let inMain : Cursor := ⟨3, ⟨functions, [], [header], [⟨.function, 0, false⟩], none⟩⟩
  let called : Cursor := ⟨6, ⟨functions, [], [header, "greet(3);"], [⟨.function, 0, false⟩], none⟩⟩
  let atGreet : Cursor := ⟨7, ⟨functions, [], [header, "greet(3);", "\x7d"], [], some .function⟩⟩
  have enters : Runs atoms ⟨0, u.translator⟩ inMain := .single (by decide)
  have calls : Next atoms inMain called := by decide
  have leaves : Next atoms called atGreet := by decide
  have introduced : Introduces atoms ⟨0, u.translator⟩ "greet" :=
    ⟨atGreet, (enters.tail calls).tail leaves, _, _, rfl, by decide, rfl, rfl⟩
  have call : Calls atoms ⟨0, u.translator⟩ "greet" "greet(3);" :=
    ⟨inMain, called, _, _, ["3"], enters, calls, rfl, ⟨rfl, rfl⟩, by decide, by decide, rfl⟩
  obtain ⟨v, translated, symbols⟩ := toOption_map_eq_some.mp
    (by decide : (u.translate.toOption.map fun v => v.symbols.entries) =
      some [("greet", .function), ("n", .int)])
  obtain ⟨names, -, same, reach⟩ := calls_reach_definitions "a.dawn" atoms u v rfl translated
  obtain ⟨-, isFunction, defined⟩ := reach "greet" "greet(3);" call
  refine ⟨u, v, rfl, translated, call, isFunction, same.mpr ?_, defined introduced⟩
  intro i name found notMain
  have known := (names name).mpr ⟨notMain, i, found⟩
  rw [SymbolTable.classOf_eq (by decide), SymbolTable.get?, symbols, List.lookup_cons] at known
  split at known
  · rename_i isGreet
    exact eq_of_beq isGreet ▸ introduced
  · rw [List.lookup_cons] at known
    split at known <;> cases known

open Cursor in
/-- A construct takes the word `function` into an expression: the name after it is called, and nothing
defines it. -/
theorem swallowed_function_is_called :
    let lines := ["int x = function f", "f()"].map Utf8.encode
    let atoms := lex "t.dawn" lines
    ∃ u v, ({ file := "t.dawn", atoms } : CompilationUnit).analyze = .ok u ∧ u.translate = .ok v ∧
      v.lines = ["int x = function f;", "f();"] ∧ v.prototypes = [] ∧
      v.symbols.classOf "f" = .function ∧ Calls atoms ⟨0, u.translator⟩ "f" "f();" := by
  intro lines atoms
  let u : CompilationUnit :=
    { file := "t.dawn", atoms, symbols := .ofList [("f", .function)], phase := .importScan }
  let symbols : SymbolTable := .ofList [("f", .function), ("x", .int)]
  let declared : Cursor := ⟨5, ⟨symbols, [], ["int x = function f;"], [], none⟩⟩
  let called : Cursor := ⟨7, ⟨symbols, [], ["int x = function f;", "f();"], [], none⟩⟩
  have declares : Runs atoms ⟨0, u.translator⟩ declared := .single (by decide)
  have calls : Next atoms declared called := by decide
  have call : Calls atoms ⟨0, u.translator⟩ "f" "f();" :=
    ⟨declared, called, _, _, [], declares, calls, rfl, ⟨rfl, rfl⟩, by decide, by decide, rfl⟩
  obtain ⟨v, translated, facts⟩ := toOption_map_eq_some.mp
    (by decide : (u.translate.toOption.map fun v =>
      (v.lines, v.prototypes, v.symbols.classOf "f")) =
        some (["int x = function f;", "f();"], [], .function))
  simp only [Prod.mk.injEq] at facts
  exact ⟨u, v, rfl, translated, facts.1, facts.2.1, facts.2.2, call⟩

end DawnC
