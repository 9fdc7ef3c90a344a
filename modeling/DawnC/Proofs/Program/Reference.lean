import DawnC.Proofs.Program.Analysis
import DawnC.Proofs.Program.Translation
import DawnC.Proofs.Utf8
import DawnC.Code

set_option autoImplicit false

namespace DawnC

def Tree.bytes (program : Tree) : List Bytes :=
  program.source.map fun pieces => Utf8.encode (String.ofList (spell pieces))

theorem Tree.lex_bytes (file : String) (program : Tree) :
    lex file program.bytes = lineAtoms file 1 0 program.source := by
  have decoded : program.bytes.map Utf8.decode = program.source.map spell := by
    rw [Tree.bytes, List.map_map]
    refine List.map_congr_left fun pieces _ => ?_
    rw [Function.comp_apply, Utf8.decode_encode, String.toList_ofList]
  rw [lex, decoded, lexText_spell file program.isLine_source]

/-- One class for each name, read off the declarations. -/
theorem Tree.WellFormed.exists_agrees {program : Tree} (wellFormed : program.WellFormed) :
    ∃ classes, Agrees classes program.declared := by
  refine ⟨fun name => ((program.declared.find? (·.1 = name)).map Prod.snd).getD .unknown, ?_⟩
  intro entry member
  obtain ⟨found, search⟩ : ∃ found, program.declared.find? (·.1 = entry.1) = some found := by
    rw [← Option.isSome_iff_exists, List.find?_isSome]
    exact ⟨entry, member, decide_eq_true rfl⟩
  have same : found.1 = entry.1 := by simpa using List.find?_some search
  simp only [search, Option.map_some, Option.getD_some]
  exact wellFormed.oneClass found (List.mem_of_find?_eq_some search) entry member same

theorem SymbolTable.knows_empty : SymbolTable.empty.Knows [] := by
  intro name cls
  rw [SymbolTable.get?_empty]
  simp

def Tree.unit (file : String) (program : Tree) : CompilationUnit :=
  { file, atoms := lex file program.bytes }

/-- The analysis of a program knows its functions and its headers. -/
theorem Tree.analyze_unit (file : String) {program : Tree} {classes : String → SymbolClass}
    (agrees : Agrees classes program.functions) :
    ∃ symbols, symbols.Knows program.functions ∧ (program.unit file).analyze =
      .ok { program.unit file with symbols, headers := program.headers, phase := .importScan } := by
  obtain ⟨symbols, declared, knows⟩ :=
    declareFunctions_items file program SymbolTable.knows_empty agrees 1 0 0
  refine ⟨symbols, knows, ?_⟩
  have scanned : declareFunctions .empty 0 (lex file program.bytes) = .ok symbols := by
    rw [Tree.lex_bytes]
    exact declared
  have headers : requiredHeaders (lex file program.bytes) [] = program.headers := by
    rw [Tree.lex_bytes]
    exact requiredHeaders_source file program
  simp only [CompilationUnit.analyze, CompilationUnit.scanFunctions, CompilationUnit.enter,
    CompilationUnit.resolveImports, Tree.unit, scanned, headers]

theorem CompilationUnit.convert_eq_ok {u analyzed translated : CompilationUnit}
    (analysis : u.analyze = .ok analyzed) (translation : analyzed.translate = .ok translated) :
    u.convert = .ok (translated.enter .writeC) := by
  simp only [convert, analysis, translation]

/-- Every well-formed program is translated, to the lines it stands for, with the prototypes of its
functions, the headers it needs, and no names but its own. -/
theorem translation_meets_reference (file : String) (program : Tree)
    (wellFormed : program.WellFormed) :
    ∃ u, (program.unit file).convert = .ok u ∧ u.lines = program.emitted ∧
      u.prototypes = program.prototypes ∧ u.headers = program.headers ∧
      ∀ name cls, u.symbols.get? name = some cls ↔ (name, cls) ∈ program.declared := by
  obtain ⟨classes, agrees⟩ := wellFormed.exists_agrees
  obtain ⟨symbols, knows, analyzed⟩ := Tree.analyze_unit file agrees.left
  have fresh : Stands file (lex file program.bytes) ⟨0, { symbols, prototypes := [], lines := [] }⟩
      (program.flatMap Item.source) program.functions :=
    ⟨⟨1, 0, Tree.lex_bytes file program⟩, knows⟩
  obtain ⟨d, yields, stands⟩ := items_yield program rfl fresh agrees wellFormed.inOrder
  obtain ⟨line, stmt, used⟩ := stands.here
  have closed : d.state.closeRemaining d.state.blocks = .ok d.state := by
    rw [yields.blocks]
    rfl
  have translated := CompilationUnit.convert_eq_ok analyzed
    (CompilationUnit.translate_eq_ok.mpr ⟨d, d.state, yields.runs, used, closed, rfl⟩)
  exact ⟨_, translated, yields.lines, yields.prototypes, rfl, stands.knows⟩

/-- A function that is called before it is defined, with loops of both styles inside each other and
a chain of alternatives. -/
def countdown : Tree :=
  let n : Name := ⟨"n", by decide, by decide⟩
  let i : Name := ⟨"i", by decide, by decide⟩
  let j : Name := ⟨"j", by decide, by decide⟩
  let xs : Name := ⟨"xs", by decide, by decide⟩
  let report : Name := ⟨"report", by decide, by decide⟩
  let label : Name := ⟨"label", by decide, by decide⟩
  [ .main <|
      .next (.simple (.declare .int n ⟨[.run "3"], by decide, by decide⟩)) <|
      .next (.simple (.declareList xs [⟨[.run "1"], by decide, by decide⟩,
        ⟨[.run "2"], by decide, by decide⟩])) <|
      .next (.loop i (.literal "1" (by decide)) (.name n) true <|
        .next (.loop j (.literal "1" (by decide)) (.name i) false <|
          .next (.simple (.printElement xs ⟨[.run "j"], by decide, by decide⟩)) .done) <|
        .next (.conditional ⟨[.run "i", .run "==", .run "1"], by decide, by decide⟩
          (.next (.simple (.assign n ⟨[.run "n", .run "-", .run "1"], by decide, by decide⟩)) .done)
          (.elseIf ⟨[.run "n"], by decide, by decide⟩
            (.next (.simple (.call report [⟨[.run "n"], by decide, by decide⟩,
              ⟨[.run "\"a b\""], by decide, by decide⟩])) .done)
            (.otherwise (.next (.simple (.print .printStr
              ⟨[.run "\"\x7d\""], by decide, by decide⟩)) .done))))
        .done) .done,
    .function report (by decide) [⟨false, j⟩, ⟨true, label⟩] <|
      .next (.simple (.print .printStr ⟨[.run "label"], by decide, by decide⟩)) .done ]

theorem translation_meets_reference_countdown :
    countdown.WellFormed ∧ ∃ u, (countdown.unit "a.dawn").convert = .ok u ∧
      u.lines = ["int main()\x7b", "int n = 3;", "int xs[] = \x7b1,2\x7d;",
        "for(int i = 1; i <= n; i++)\x7b", "for(int j = 1; j <= i; j++)\x7b",
        "printf(\"%d\\n\", xs[j]);", "\x7d", "if(i == 1)\x7b", "n = n - 1;", "\x7d", "else",
        "if(n)\x7b", "report(n, \"a b\");", "\x7d", "else\x7b",
        "printf(\"%s\\n\", \"\x7d\");", "\x7d", "\x7d", "\x7d", "void report(int j, char label[])\x7b",
        "printf(\"%s\\n\", label);", "\x7d"] ∧
      u.prototypes = ["void report(int j, char label[]);"] ∧ u.headers = ["<stdio.h>"] := by
  have wellFormed : countdown.WellFormed := ⟨by decide, by decide⟩
  obtain ⟨u, converted, lines, prototypes, headers, -⟩ :=
    translation_meets_reference "a.dawn" countdown wellFormed
  exact ⟨wellFormed, u, converted, lines.trans (by decide), prototypes.trans (by decide),
    headers.trans (by decide)⟩

end DawnC
