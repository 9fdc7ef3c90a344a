import DawnC.Proofs.Path
import DawnC.Proofs.SingleLine

set_option autoImplicit false

namespace DawnC

/-- The lines of a text. What stands after the last newline is none. -/
def fileLines (text : String) : List String := (Text.splitAt '\n' text).dropLast

theorem toList_lineText_cons (line : String) (lines : List String) :
    (lineText (line :: lines)).toList = line.toList ++ '\n' :: (lineText lines).toList := by
  simp [lineText]

theorem lineText_append (first second : List String) :
    lineText (first ++ second) = lineText first ++ lineText second := by
  simp [lineText]

/-- Lines that are written one after the other are read back. -/
theorem fileLines_lineText {lines : List String} (unbroken : ∀ line ∈ lines, '\n' ∉ line.toList) :
    fileLines (lineText lines) = lines := by
  have pieces : Text.splitAt '\n' (lineText lines) = lines ++ [""] := by
    induction lines with
    | nil => rfl
    | cons line lines ih =>
        obtain ⟨here, later⟩ := List.forall_mem_cons.mp unbroken
        have rest := ih later
        rw [Text.splitAt] at rest
        rw [Text.splitAt, toList_lineText_cons, Text.cut_append here, List.map_cons, rest,
          String.ofList_toList, List.cons_append]
  rw [fileLines, pieces, List.dropLast_concat]

/-- What generated text is made of. -/
structure Sections where
  headers : List String
  prototypes : List String
  lines : List String
  deriving DecidableEq, Repr

def includedHeader (line : String) : String := String.ofList (line.toList.drop "#include ".length)

theorem includedHeader_append (header : String) : includedHeader ("#include " ++ header) = header := by
  rw [includedHeader, String.toList_append, List.drop_left' (by decide), String.ofList_toList]

theorem SingleLine.included {header : String} (single : SingleLine header) :
    SingleLine ("#include " ++ header) :=
  .append (by decide) single

/-- Reads the sections of a text: they stand between its blank lines, and the one of the prototypes may be
missing. -/
def readSections? (text : String) : Option Sections :=
  match Text.cut "" (fileLines text) with
  | [includes, lines] => some ⟨includes.map includedHeader, [], lines⟩
  | [includes, prototypes, lines] => some ⟨includes.map includedHeader, prototypes, lines⟩
  | _ => none

namespace CompilationUnit

variable {u : CompilationUnit}

def sections (u : CompilationUnit) : Sections := ⟨u.headers, u.prototypes, u.lines⟩

def codeLines (u : CompilationUnit) : List String :=
  u.headers.map ("#include " ++ ·) ++ "" ::
    ((if u.prototypes.isEmpty then [] else u.prototypes ++ [""]) ++ u.lines)

theorem code_eq_lineText (u : CompilationUnit) : u.code = lineText u.codeLines := by
  have blank (lines : List String) : lineText ("" :: lines) = "\n" ++ lineText lines := by
    simp [lineText]
  rw [code, codeLines, lineText_append, blank, lineText_append, String.append_assoc, String.append_assoc]
  split
  · rfl
  · rw [lineText_append, blank, show lineText [] = "" from rfl, String.append_empty]

/-- The text has a line for each header, prototype and emitted line, and blank ones after the headers and
after the prototypes. -/
theorem LineByLine.fileLines_code (single : u.LineByLine) : fileLines u.code = u.codeLines := by
  rw [code_eq_lineText]
  apply fileLines_lineText
  have blank : '\n' ∉ "".toList := by decide
  have headers : ∀ line ∈ u.headers.map ("#include " ++ ·), '\n' ∉ line.toList := by
    intro line member
    obtain ⟨header, listed, rfl⟩ := List.mem_map.mp member
    exact (single.headers header listed).included.unbroken
  have prototypes : ∀ line ∈ (if u.prototypes.isEmpty then [] else u.prototypes ++ [""]),
      '\n' ∉ line.toList := by
    split
    · simp
    · rw [List.forall_mem_append, List.forall_mem_singleton]
      exact ⟨fun line member => (single.prototypes line member).unbroken, blank⟩
  rw [codeLines, List.forall_mem_append, List.forall_mem_cons, List.forall_mem_append]
  exact ⟨headers, blank, prototypes, fun line member => (single.lines line member).unbroken⟩

/-- The sections of a unit are read back from its text. -/
theorem LineByLine.readSections?_code (single : u.LineByLine) :
    readSections? u.code = some u.sections := by
  have includes : "" ∉ u.headers.map ("#include " ++ ·) := by
    intro member
    obtain ⟨header, listed, empty⟩ := List.mem_map.mp member
    exact (single.headers header listed).included.filled empty
  have headers : (u.headers.map ("#include " ++ ·)).map includedHeader = u.headers := by
    rw [List.map_map]
    exact (List.map_congr_left fun header _ => includedHeader_append header).trans (List.map_id _)
  have lines : "" ∉ u.lines := fun member => (single.lines _ member).filled rfl
  have prototypes : "" ∉ u.prototypes := fun member => (single.prototypes _ member).filled rfl
  rw [readSections?, single.fileLines_code, codeLines, Text.cut_append includes]
  cases listed : u.prototypes with
  | nil =>
      rw [List.isEmpty_nil, if_pos rfl, List.nil_append, Text.cut_self lines]
      simp only [headers, sections, listed]
  | cons first rest =>
      rw [listed] at prototypes
      rw [List.isEmpty_cons, if_neg Bool.false_ne_true, List.append_assoc, List.singleton_append,
        Text.cut_append prototypes, Text.cut_self lines]
      simp only [headers, sections, listed]

/-- Generated text determines what it was made of. If a program of lines without newlines is accepted, its
headers, prototypes and emitted lines are lines by themselves, they can be read back from the text alone,
and the text has exactly one line for each; so accepted programs with the same text have the same
headers, prototypes and lines. -/
theorem code_determines_unit (file : String) (source : List Bytes) (v : CompilationUnit)
    (single : ∀ line ∈ source, newline ∉ line)
    (accepted : ({ file, atoms := lex file source } : CompilationUnit).convert = .ok v) :
    v.LineByLine ∧ readSections? v.code = some v.sections ∧ fileLines v.code = v.codeLines ∧
      ∀ (file' : String) (source' : List Bytes) (w : CompilationUnit),
        (∀ line ∈ source', newline ∉ line) →
        ({ file := file', atoms := lex file' source' } : CompilationUnit).convert = .ok w →
        w.code = v.code → w.headers = v.headers ∧ w.prototypes = v.prototypes ∧ w.lines = v.lines := by
  have lineByLine := convert_lineByLine (fun a member => newline_not_mem_of_mem_lex single member) accepted
  refine ⟨lineByLine, lineByLine.readSections?_code, lineByLine.fileLines_code, ?_⟩
  intro file' source' w single' accepted' same
  have lineByLine' := convert_lineByLine (fun a member => newline_not_mem_of_mem_lex single' member) accepted'
  have sections : w.sections = v.sections := by
    rw [← Option.some_inj, ← lineByLine'.readSections?_code, same, lineByLine.readSections?_code]
  exact ⟨congrArg Sections.headers sections, congrArg Sections.prototypes sections,
    congrArg Sections.lines sections⟩

/-- A program with all three sections, and the same one with comments and another layout. -/
theorem code_determines_unit_relaid :
    let source := ["function f(int n) \x7b", "print_int(n)", "\x7d", "f(3)"].map Utf8.encode
    let source' := ["// shows a number", "function f(int n)\x7b print_int(n) \x7d; f(3)"].map Utf8.encode
    let lines := ["void f(int n)\x7b", "printf(\"%d\\n\", n);", "\x7d", "f(3);"]
    ∃ v w, (∀ line ∈ source, newline ∉ line) ∧ (∀ line ∈ source', newline ∉ line) ∧
      ({ file := "a.dawn", atoms := lex "a.dawn" source } : CompilationUnit).convert = .ok v ∧
      ({ file := "b.dawn", atoms := lex "b.dawn" source' } : CompilationUnit).convert = .ok w ∧
      readSections? v.code = some ⟨["<stdio.h>"], ["void f(int n);"], lines⟩ ∧
      fileLines v.code = "#include <stdio.h>" :: "" :: "void f(int n);" :: "" :: lines ∧
      w.lines = v.lines := by
  intro source source' lines
  let sections : Sections := ⟨["<stdio.h>"], ["void f(int n);"], lines⟩
  let text := "#include <stdio.h>\n\nvoid f(int n);\n\n" ++ lineText lines
  obtain ⟨v, accepted, made⟩ := toOption_map_eq_some.mp (by decide +kernel :
    (({ file := "a.dawn", atoms := lex "a.dawn" source } : CompilationUnit).convert.toOption.map
      fun v => (v.sections, v.codeLines, v.code)) =
        some (sections, "#include <stdio.h>" :: "" :: "void f(int n);" :: "" :: lines, text))
  obtain ⟨w, accepted', same⟩ := toOption_map_eq_some.mp (by decide +kernel :
    (({ file := "b.dawn", atoms := lex "b.dawn" source' } : CompilationUnit).convert.toOption.map code) =
      some text)
  obtain ⟨readBack, written, text_eq⟩ : v.sections = sections ∧ v.codeLines = _ ∧ v.code = text := by
    simpa using made
  have single : ∀ line ∈ source, newline ∉ line := by decide +kernel
  have single' : ∀ line ∈ source', newline ∉ line := by decide +kernel
  obtain ⟨-, read, file, unique⟩ := code_determines_unit "a.dawn" source v single accepted
  rw [readBack] at read
  rw [written] at file
  exact ⟨v, w, single, single', accepted, accepted', read, file,
    (unique "b.dawn" source' w single' accepted' (same.trans text_eq.symm)).2.2⟩

end CompilationUnit

end DawnC
