import DawnC.Proofs.FunctionNames
import DawnC.Proofs.LineParts

set_option autoImplicit false

namespace DawnC

def stdioHeader : String := "<stdio.h>"

def stdboolHeader : String := "<stdbool.h>"

def printKeywords : List String := ["print", "print_int", "print_str", "print_list_element"]

theorem usesWord_iff {atoms : List Atom} {keyword : String} :
    usesWord atoms keyword = true ↔ ∃ a ∈ atoms, a.IsWord keyword := by
  simp [usesWord, Atom.IsWord]

theorem mem_addHeader {headers : List String} {header other : String} :
    other ∈ addHeader headers header ↔ other ∈ headers ∨ other = header := by
  rw [addHeader]
  split
  · rename_i present
    constructor
    · exact Or.inl
    · rintro (old | rfl)
      · exact old
      · exact present
  · rw [List.mem_append, List.mem_singleton]

theorem nodup_addHeader {headers : List String} (distinct : headers.Nodup) (header : String) :
    (addHeader headers header).Nodup := by
  rw [addHeader]
  split
  · exact distinct
  · rename_i absent
    refine List.nodup_append.mpr ⟨distinct, by simp, ?_⟩
    intro old member new single same
    rw [List.mem_singleton.mp single] at same
    exact absent (same ▸ member)

theorem mem_foldl_addHeader {atoms : List Atom} {rules : List (String × String)}
    {headers : List String} {header : String} :
    header ∈ rules.foldl
        (fun headers rule => if usesWord atoms rule.1 then addHeader headers rule.2 else headers) headers ↔
      header ∈ headers ∨ ∃ keyword, (keyword, header) ∈ rules ∧ usesWord atoms keyword = true := by
  induction rules generalizing headers with
  | nil => simp
  | cons rule rules ih =>
      obtain ⟨keyword, needed⟩ := rule
      rw [List.foldl_cons, ih]
      by_cases used : usesWord atoms keyword = true
      · rw [if_pos used, mem_addHeader]
        constructor
        · rintro ((old | rfl) | ⟨other, rule, uses⟩)
          · exact Or.inl old
          · exact Or.inr ⟨keyword, List.mem_cons_self, used⟩
          · exact Or.inr ⟨other, List.mem_cons_of_mem _ rule, uses⟩
        · rintro (old | ⟨other, rule, uses⟩)
          · exact Or.inl (Or.inl old)
          · rcases List.mem_cons.mp rule with same | later
            · cases same
              exact Or.inl (Or.inr rfl)
            · exact Or.inr ⟨other, later, uses⟩
      · rw [if_neg used]
        refine or_congr_right ⟨?_, ?_⟩
        · rintro ⟨other, rule, uses⟩
          exact ⟨other, List.mem_cons_of_mem _ rule, uses⟩
        · rintro ⟨other, rule, uses⟩
          rcases List.mem_cons.mp rule with same | later
          · cases same
            exact absurd uses used
          · exact ⟨other, later, uses⟩

theorem nodup_foldl_addHeader {atoms : List Atom} (rules : List (String × String))
    {headers : List String} (distinct : headers.Nodup) :
    (rules.foldl (fun headers rule =>
      if usesWord atoms rule.1 then addHeader headers rule.2 else headers) headers).Nodup := by
  induction rules generalizing headers with
  | nil => exact distinct
  | cons rule rules ih =>
      rw [List.foldl_cons]
      apply ih
      split
      · exact nodup_addHeader distinct rule.2
      · exact distinct

/-- The headers of a fresh unit: those that a keyword among the atoms needs, each once. -/
theorem headers_of_translate {file : String} {atoms : List Atom} {u v : CompilationUnit}
    (analyzed : ({ file, atoms } : CompilationUnit).analyze = .ok u) (translated : u.translate = .ok v) :
    v.headers.Nodup ∧ ∀ header, header ∈ v.headers ↔
      ∃ keyword, (keyword, header) ∈ headerRules ∧ usesWord atoms keyword = true := by
  have resolved : u.headers = requiredHeaders atoms [] := by
    simp only [CompilationUnit.analyze, CompilationUnit.scanFunctions, CompilationUnit.enter] at analyzed
    split at analyzed
    · cases analyzed
    · rename_i u' scanned
      split at scanned
      · cases scanned
        cases analyzed
        rfl
      · cases scanned
  obtain ⟨c, t, -, -, -, rfl⟩ := CompilationUnit.translate_eq_ok.mp translated
  have same : ((u.enter .convert).absorb t).headers = requiredHeaders atoms [] := resolved
  rw [same]
  refine ⟨nodup_foldl_addHeader headerRules List.nodup_nil, fun header => ?_⟩
  rw [requiredHeaders, mem_foldl_addHeader, or_iff_right List.not_mem_nil]

/-- The keywords with the starts of the lines that they are translated to. -/
def lineStarts : List (String × String) :=
  [("print", "printf("), ("print_str", "printf("), ("print_int", "printf("),
   ("print_list_element", "printf("), ("int", "int "), ("bool", "bool "), ("string", "char "),
   ("List<int>", "int "), ("for", "for("), ("if", "if("), ("else", "else"), ("function", "int main("),
   ("function", "void ")]

namespace Translator

variable {t : Translator} {a : Atom} {rest : List Atom} {parts : List LinePart}

theorem prefix_lineOf {start text : String} (parts : List LinePart)
    (begins : start.toList <+: text.toList) : start.toList <+: (lineOf (.fixed text :: parts)).toList := by
  rw [lineOf_cons]
  exact prefix_append _ begins

/-- The line of a keyword starts as the table says, any other with its first atom and the character that
comes after the name of a variable or a function. -/
theorem Writes.line_start (writes : t.Writes a rest parts) :
    (∃ entry ∈ lineStarts, a.IsWord entry.1 ∧ entry.2.toList <+: (lineOf parts).toList) ∨
      a.kind = .word ∧ a.text ∉ leadingWords ∧ ∃ stop after,
        (lineOf parts).toList = a.text.toList ++ stop :: after ∧
          (stop = ' ' ∨ stop = '(' ∧ t.symbols.classOf a.text = .function) := by
  have keyword {word start : String} {line : List Char} {P : Prop} (isWord : a.IsWord word)
      (entry : (word, start) ∈ lineStarts) (begins : start.toList <+: line) :
      (∃ entry ∈ lineStarts, a.IsWord entry.1 ∧ entry.2.toList <+: line) ∨ P :=
    Or.inl ⟨(word, start), entry, isWord, begins⟩
  have named {stop : Char} (text : String) (chars : List Char) (fixed : text.toList = stop :: chars)
      (more : List LinePart) : (lineOf (.copy a :: .fixed text :: more)).toList =
        a.text.toList ++ stop :: (chars ++ (lineOf more).toList) := by
    simp [LinePart.text, fixed]
  cases writes with
  | print word => exact keyword word (by decide) (prefix_lineOf _ List.prefix_rfl)
  | printFormatted word rule =>
      simp only [List.mem_cons, Prod.mk.injEq, List.not_mem_nil, or_false] at rule
      rcases rule with ⟨rfl, rfl⟩ | ⟨rfl, rfl⟩
      · exact keyword word (by decide) (prefix_lineOf _ (by decide : "printf(".toList <+: _))
      · exact keyword word (by decide) (prefix_lineOf _ (by decide : "printf(".toList <+: _))
  | printListElement word =>
      exact keyword word (by decide) (prefix_lineOf _ (by decide : "printf(".toList <+: _))
  | declaration word scalar =>
      simp only [List.mem_cons, List.not_mem_nil, or_false] at scalar
      rcases scalar with rfl | rfl | rfl
      · exact keyword word (by decide) (prefix_lineOf _ List.prefix_rfl)
      · exact keyword word (by decide) (prefix_lineOf _ List.prefix_rfl)
      · exact keyword word (by decide) (prefix_lineOf _ List.prefix_rfl)
  | intList word => exact keyword word (by decide) (prefix_lineOf _ List.prefix_rfl)
  | assignment isWord free =>
      exact Or.inr ⟨isWord, free, ' ', _, named " = " ['=', ' '] (by decide) _, Or.inl rfl⟩
  | call isWord free isFunction =>
      exact Or.inr ⟨isWord, free, '(', _, named "(" [] (by decide) _, Or.inr ⟨rfl, isFunction⟩⟩
  | forLoop word =>
      exact keyword word (by decide) (prefix_lineOf _ (by decide : "for(".toList <+: _))
  | conditional word => exact keyword word (by decide) (prefix_lineOf _ List.prefix_rfl)
  | elseIf word => exact keyword word (by decide) (prefix_lineOf _ List.prefix_rfl)
  | otherwise word => exact keyword word (by decide) (prefix_lineOf _ (by decide : "else".toList <+: _))
  | mainFunction word =>
      exact keyword word (by decide) (prefix_lineOf _ (by decide : "int main(".toList <+: _))
  | namedFunction word => exact keyword word (by decide) (prefix_lineOf _ List.prefix_rfl)

/-- The atom that a line with this start is written for: one of the keywords with such lines, or the word
that the line starts with, as the name of a variable or a function. -/
theorem Writes.of_start (writes : t.Writes a rest parts)
    (atomic : a.kind = .word → Scanner.IsAtomText a.text.toList) {word : String} {stop : Char}
    (plain : word.toList.all isPlainChar = true) (stops : isPlainChar stop = false)
    (notQuote : stop ≠ '"') (starts : word.toList ++ [stop] <+: (lineOf parts).toList) :
    (∃ entry ∈ lineStarts, a.IsWord entry.1 ∧
        (entry.2.toList <+: word.toList ++ [stop] ∨ word.toList ++ [stop] <+: entry.2.toList)) ∨
      a.IsWord word ∧ word ∉ leadingWords ∧
        (stop = ' ' ∨ stop = '(' ∧ t.symbols.classOf word = .function) := by
  rcases writes.line_start with ⟨entry, listed, isWord, begins⟩ | ⟨isWord, free, next, after, shape, kind⟩
  · exact Or.inl ⟨entry, listed, isWord, List.prefix_or_prefix_of_prefix begins starts⟩
  · obtain ⟨tail, whole⟩ := starts
    have found : firstWord (a.text.toList ++ next :: after) = (word, stop :: tail) := by
      rw [← shape, ← whole, List.append_assoc, List.singleton_append]
      exact firstWord_append plain stops tail
    have ends : isPlainChar next = false := by
      rcases kind with rfl | ⟨rfl, -⟩ <;> decide
    -- the first word of the line is the atom up to its first quote
    obtain ⟨first, quoted, split, all, rfl | ⟨cut, rfl⟩⟩ := (atomic isWord).split
    · rw [List.append_nil] at split
      rw [← split] at all
      rw [firstWord_append all ends, Prod.mk.injEq, List.cons.injEq] at found
      obtain ⟨rfl, rfl, -⟩ := found
      exact Or.inr ⟨⟨isWord, rfl⟩, free, kind⟩
    · have isPlain : (String.ofList first).toList.all isPlainChar = true := by simpa using all
      have first' := firstWord_append isPlain (show isPlainChar '"' = false by decide)
        (cut ++ next :: after)
      rw [String.toList_ofList] at first'
      rw [split, List.append_assoc, List.cons_append, first', Prod.mk.injEq, List.cons.injEq] at found
      exact absurd found.2.1.symm notQuote

end Translator

open Cursor in
/-- A construct that writes a line with this start is in the atoms, with one of the keywords of such
lines or with the word of the start. -/
theorem Cursor.Emits.of_start {file : String} {lines : List Bytes} {start : Cursor} {a : Atom}
    {parts : List LinePart} (emits : Emits (lex file lines) start a parts) {word : String} {stop : Char}
    (plain : word.toList.all isPlainChar = true) (stops : isPlainChar stop = false)
    (notQuote : stop ≠ '"') (starts : word.toList ++ [stop] <+: (lineOf parts).toList) :
    a ∈ lex file lines ∧
      ((∃ entry ∈ lineStarts, a.IsWord entry.1 ∧
          (entry.2.toList <+: word.toList ++ [stop] ∨ word.toList ++ [stop] <+: entry.2.toList)) ∨
        a.IsWord word ∧ word ∉ leadingWords ∧
          (stop = ' ' ∨ stop = '(' ∧ start.state.symbols.get? word = some .function)) := by
  obtain ⟨c, d, rest, runs, next, here, writes, -⟩ := emits
  have member : a ∈ lex file lines := by
    apply List.mem_of_mem_drop
    rw [here]
    exact List.mem_cons_self
  refine ⟨member, (writes.of_start (isAtomText_of_mem_lex member) plain stops notQuote starts).imp_right ?_⟩
  rintro ⟨isWord, free, blank | ⟨call, isFunction⟩⟩
  · exact ⟨isWord, free, Or.inl blank⟩
  · rw [SymbolTable.classOf_eq (by decide), runs.functions] at isFunction
    exact ⟨isWord, free, Or.inr ⟨call, isFunction⟩⟩

namespace Cursor

variable {file : String} {lines : List Bytes} {start : Cursor} {a : Atom} {parts : List LinePart}

/-- A line that prints is written for a print keyword, or it calls a function of that name. -/
theorem Emits.of_printing (emits : Emits (lex file lines) start a parts)
    (starts : "printf(".toList <+: (lineOf parts).toList) :
    (∃ keyword ∈ printKeywords, usesWord (lex file lines) keyword = true) ∨
      start.state.symbols.get? "printf" = some .function := by
  have keywords : ∀ entry ∈ lineStarts, (entry.2.toList <+: "printf".toList ++ ['('] ∨
      "printf".toList ++ ['('] <+: entry.2.toList) → entry.1 ∈ printKeywords := by decide
  obtain ⟨here, ⟨entry, listed, isWord, either⟩ | ⟨-, -, blank | ⟨-, isFunction⟩⟩⟩ :=
    emits.of_start (show "printf".toList.all isPlainChar = true by decide)
      (show isPlainChar '(' = false by decide) (by decide) starts
  · exact Or.inl ⟨entry.1, keywords entry listed either, usesWord_iff.mpr ⟨a, here, isWord⟩⟩
  · exact absurd blank (by decide)
  · exact Or.inr isFunction

/-- A line that declares a bool is written for the word `bool`. -/
theorem Emits.of_declaring {name : String} (emits : Emits (lex file lines) start a parts)
    (declares : Declares name .bool (lineOf parts)) : usesWord (lex file lines) "bool" = true := by
  have keywords : ∀ entry ∈ lineStarts, (entry.2.toList <+: "bool".toList ++ [' '] ∨
      "bool".toList ++ [' '] <+: entry.2.toList) → entry.1 = "bool" := by decide
  have starts : "bool ".toList <+: (lineOf parts).toList := by
    cases declares with
    | bool value shape =>
        rw [shape]
        simp only [String.append_assoc]
        exact prefix_append _ (by decide)
  obtain ⟨here, ⟨entry, listed, isWord, either⟩ | ⟨-, free, -⟩⟩ :=
    emits.of_start (show "bool".toList.all isPlainChar = true by decide)
      (show isPlainChar ' ' = false by decide) (by decide) starts
  · rw [keywords entry listed either] at isWord
    exact usesWord_iff.mpr ⟨a, here, isWord⟩
  · exact absurd (by decide) free

theorem Emits.mem_of_copied {atoms : List Atom} (emits : Emits atoms start a parts) {b : Atom}
    (copied : b ∈ copiedIn parts) : b ∈ atoms := by
  obtain ⟨c, d, rest, -, -, here, writes, -⟩ := emits
  apply List.mem_of_mem_drop
  rw [here]
  exact writes.mem_of_copied copied

end Cursor

open Cursor in
/-- The headers of a translated program are distinct, and they are those of its keywords: the one for
printing exactly if a print keyword is used, the one for bools exactly if the word `bool` is. Lines that
print have theirs, unless a function is called `printf`; lines that declare a bool have theirs, and so
have lines into which the word `bool` is copied. -/
theorem headers_cover_keywords (file : String) (lines : List Bytes) (u v : CompilationUnit)
    (analyzed : ({ file, atoms := lex file lines } : CompilationUnit).analyze = .ok u)
    (translated : u.translate = .ok v) :
    v.headers.Nodup ∧
    (stdioHeader ∈ v.headers ↔ ∃ keyword ∈ printKeywords, usesWord (lex file lines) keyword = true) ∧
    (stdboolHeader ∈ v.headers ↔ usesWord (lex file lines) "bool" = true) ∧
    (∀ line ∈ v.lines, "printf(".toList <+: line.toList →
      stdioHeader ∈ v.headers ∨ ∃ i, FunctionAt (lex file lines) i "printf") ∧
    (∀ line ∈ v.lines, ∀ name, Declares name .bool line → stdboolHeader ∈ v.headers) ∧
    (∀ line ∈ v.lines, line = closingLine ∨ ∃ a parts,
      Emits (lex file lines) ⟨0, u.translator⟩ a parts ∧ line = lineOf parts) ∧
    ∀ a parts, Emits (lex file lines) ⟨0, u.translator⟩ a parts →
      ∀ b ∈ copiedIn parts, b.IsWord "bool" → stdboolHeader ∈ v.headers := by
  obtain ⟨distinct, needed⟩ := headers_of_translate analyzed translated
  obtain ⟨sameAtoms, fresh, -, -⟩ := analyze_eq_ok analyzed
  have stdio : stdioHeader ∈ v.headers ↔
      ∃ keyword ∈ printKeywords, usesWord (lex file lines) keyword = true := by
    rw [needed]
    simp [headerRules, stdioHeader, printKeywords]
  have stdbool : stdboolHeader ∈ v.headers ↔ usesWord (lex file lines) "bool" = true := by
    rw [needed]
    simp [headerRules, stdboolHeader]
  have origin (line : String) (member : line ∈ v.lines) : line = closingLine ∨ ∃ a parts,
      Emits (lex file lines) ⟨0, u.translator⟩ a parts ∧ line = lineOf parts := by
    rw [← sameAtoms]
    exact emitted_of_translate fresh translated member
  refine ⟨distinct, stdio, stdbool, ?_, ?_, origin, ?_⟩
  · intro line member starts
    rcases origin line member with rfl | ⟨a, parts, emits, rfl⟩
    · exact absurd starts (by decide)
    · rcases emits.of_printing starts with prints | isFunction
      · exact Or.inl (stdio.mpr prints)
      · exact Or.inr ((classOf_of_analyze analyzed "printf").mp isFunction).2
  · intro line member name declares
    rcases origin line member with rfl | ⟨a, parts, emits, rfl⟩
    · cases declares with
      | bool value shape => exact absurd shape (by simp [closingLine, ← String.toList_inj])
    · exact stdbool.mpr (emits.of_declaring declares)
  · intro a parts emits b copied isWord
    exact stdbool.mpr (usesWord_iff.mpr ⟨b, emits.mem_of_copied copied, isWord⟩)

/-- A program that prints and declares a bool. -/
theorem headers_cover_keywords_both :
    let lines := ["bool ready = true", "if ready \x7b", "print(\"go\")", "\x7d"].map Utf8.encode
    ∃ u v, ({ file := "a.dawn", atoms := lex "a.dawn" lines } : CompilationUnit).analyze = .ok u ∧
      u.translate = .ok v ∧ "printf(\"go\");" ∈ v.lines ∧ Declares "ready" .bool "bool ready = true;" ∧
      stdioHeader ∈ v.headers ∧ stdboolHeader ∈ v.headers ∧ v.headers.Nodup := by
  intro lines
  let u : CompilationUnit :=
    { file := "a.dawn", atoms := lex "a.dawn" lines, headers := ["<stdio.h>", "<stdbool.h>"],
      phase := .importScan }
  obtain ⟨v, translated, emitted⟩ := toOption_map_eq_some.mp
    (by decide : (u.translate.toOption.map fun v => v.lines) =
      some ["bool ready = true;", "if(ready)\x7b", "printf(\"go\");", "\x7d"])
  have declares : Declares "ready" .bool "bool ready = true;" := .bool "true" (by decide)
  have prints : "printf(\"go\");" ∈ v.lines := by simp [emitted]
  have declared : "bool ready = true;" ∈ v.lines := by simp [emitted]
  obtain ⟨distinct, -, -, stdio, stdbool, -⟩ :=
    headers_cover_keywords "a.dawn" lines u v rfl translated
  refine ⟨u, v, rfl, translated, prints, declares, ?_, stdbool _ declared "ready" declares, distinct⟩
  rcases stdio _ prints (by decide) with found | ⟨i, a, b, here, isFunction, -⟩
  · exact found
  · have none : ∀ a ∈ lex "a.dawn" lines, a.is "function" = false := by decide
    rw [none a (List.mem_of_getElem? here)] at isFunction
    cases isFunction

/-- The argument `true` is copied into a call, and the program has no header that knows it. -/
theorem copied_true_lacks_header :
    let lines := ["function f(int a) \x7b", "\x7d", "f(true)"].map Utf8.encode
    let atoms := lex "t.dawn" lines
    ∃ u v a parts, ({ file := "t.dawn", atoms } : CompilationUnit).analyze = .ok u ∧
      u.translate = .ok v ∧ Cursor.Emits atoms ⟨0, u.translator⟩ a parts ∧
      lineOf parts = "f(true);" ∧ "f(true);" ∈ v.lines ∧ (∃ b ∈ copiedIn parts, b.IsWord "true") ∧
      v.headers = [] := by
  intro lines atoms
  let u : CompilationUnit :=
    { file := "t.dawn", atoms, symbols := .ofList [("f", .function)], phase := .importScan }
  let name : Atom := ⟨"f", .word, "t.dawn", 3, 6⟩
  let argument : Atom := ⟨"true", .word, "t.dawn", 3, 6⟩
  let symbols : SymbolTable := .ofList [("f", .function), ("a", .int)]
  let header := "void f(int a)\x7b"
  let prototypes := ["void f(int a);"]
  let opened : Cursor := ⟨5, ⟨symbols, prototypes, [header], [⟨.function, 0, false⟩], none⟩⟩
  let closed : Cursor := ⟨6, ⟨symbols, prototypes, [header, "\x7d"], [], some .function⟩⟩
  let called : Cursor :=
    ⟨9, ⟨symbols, prototypes, [header, "\x7d", "f(true);"], [], some .function⟩⟩
  have opens : Cursor.Next atoms ⟨0, u.translator⟩ opened := by decide
  have closes : Cursor.Next atoms opened closed := by decide
  have calls : Cursor.Next atoms closed called := by decide
  have list : ArgumentList [[argument]] (atoms.drop 7) :=
    @ArgumentList.last [argument] _ (by decide) (by decide) rfl
  have emits : Cursor.Emits atoms ⟨0, u.translator⟩ name
      (.copy name :: .fixed "(" :: (listedParts ([[argument]].map spacedParts) ++ [.fixed ");"])) :=
    ⟨closed, called, atoms.drop 7, .tail (.single opens) closes, calls, by decide,
      .call rfl (by decide) (by decide) List.prefix_rfl list, by decide⟩
  obtain ⟨v, translated, facts⟩ := toOption_map_eq_some.mp
    (by decide : (u.translate.toOption.map fun v => (v.lines, v.headers)) =
      some ([header, "\x7d", "f(true);"], []))
  simp only [Prod.mk.injEq] at facts
  exact ⟨u, v, name, _, rfl, translated, emits, by decide, by simp [facts.1],
    ⟨argument, by decide, rfl, rfl⟩, facts.2⟩

end DawnC
