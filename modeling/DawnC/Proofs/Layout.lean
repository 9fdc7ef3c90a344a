import DawnC.Code
import DawnC.Proofs.Include.Lines
import Mathlib.Data.List.TakeWhile

set_option autoImplicit false

namespace DawnC

def isBlank (c : Char) : Bool := c = ' ' || c = '\t'

def Scanner.Mode.next : Scanner.Mode → Char → Scanner.Mode
  | .plain, c => if c = '"' then .quoted else .plain
  | .quoted, c => if c = '\\' then .escaped else if c = '"' then .plain else .quoted
  | .escaped, _ => .quoted

/-- Every run of blanks outside literals as one space. In a `gap` the space of a run is already there. -/
def squeezed (mode : Scanner.Mode) (gap : Bool) : List Char → List Char
  | [] => []
  | c :: rest =>
    if mode = .plain && isBlank c then
      if gap then squeezed mode true rest else ' ' :: squeezed mode true rest
    else c :: squeezed (mode.next c) false rest

/-- A line without leading blanks, and with one space for every run of blanks outside literals. -/
def lineLayout (line : List Char) : List Char := squeezed .plain false (line.dropWhile isBlank)

/-- The lines that are not comments and not blank, each in its layout. -/
def layout (lines : List (List Char)) : List (List Char) :=
  (lines.filter fun line => !isComment line && !line.all isBlank).map lineLayout

theorem lineLayout_eq (line : List Char) : lineLayout line = squeezed .plain true line := by
  unfold lineLayout
  induction line with
  | nil => rfl
  | cons c rest ih =>
      by_cases blank : isBlank c = true
      · rw [List.dropWhile_cons_of_pos blank, ih]
        simp [squeezed, blank]
      · rw [List.dropWhile_cons_of_neg blank]
        simp [squeezed, blank]

theorem lineLayout_of_blank {line : List Char} (blank : line.all isBlank = true) :
    lineLayout line = [] := by
  rw [lineLayout, List.dropWhile_eq_nil_iff.mpr (List.all_eq_true.mp blank)]
  rfl

namespace Scanner

variable {s : Scanner}

/-- Outside literals a blank ends the pending atom, and does nothing else. -/
theorem step_blank (plain : s.mode = .plain) {c : Char} (blank : isBlank c = true) :
    s.step c = s.flush := by
  simp only [isBlank, Bool.or_eq_true, decide_eq_true_eq] at blank
  simp only [step, plain, stepPlain]
  rcases blank with rfl | rfl <;> rfl

theorem step_mode (c : Char) : (s.step c).mode = s.mode.next c := by
  simp only [step]
  split
  · rename_i plain
    simp only [stepPlain, plain, Mode.next]
    split
    · rfl
    · split
      · split <;> simp [endStatement, plain]
      · split
        · split <;> simp [endStatement, push, plain]
        · rfl
  · rename_i quoted
    rw [quoted]
    rfl
  · rename_i escaped
    rw [escaped]
    rfl

/-- The scanner reads the same from the squeezed characters; in a gap nothing is pending. -/
theorem foldl_squeezed (gap : Bool) (idle : gap = true → s.pending = []) (chars : List Char) :
    (squeezed s.mode gap chars).foldl step s = chars.foldl step s := by
  induction chars generalizing s gap with
  | nil => rfl
  | cons c rest ih =>
      rw [squeezed, List.foldl_cons]
      split
      · rename_i inside
        simp only [Bool.and_eq_true, decide_eq_true_eq] at inside
        obtain ⟨plain, blank⟩ := inside
        have flushed : (s.flush).mode = s.mode := flush_mode s
        have rest_same := ih (s := s.flush) true fun _ => flush_pending s
        rw [flushed] at rest_same
        rw [step_blank plain blank, ← rest_same]
        split
        · rename_i isGap
          rw [flush_of_empty (idle isGap)]
        · rw [List.foldl_cons, step_blank plain (by decide)]
      · rw [List.foldl_cons, ← step_mode]
        exact ih false (by simp)

end Scanner

/-- Squeezing changes no `;` at the end; in a gap the characters before end with a space. -/
theorem getLast?_squeezed {mode : Scanner.Mode} {gap : Bool} {last last' : Char}
    (same : last = ';' ↔ last' = ';') (space : gap = true → last ≠ ';') (chars : List Char) :
    (squeezed mode gap chars).getLast?.getD last = ';' ↔ chars.getLast?.getD last' = ';' := by
  induction chars generalizing mode gap last last' with
  | nil => exact same
  | cons c rest ih =>
      rw [squeezed, List.getLast?_cons, Option.getD_some]
      split
      · rename_i inside
        simp only [isBlank, Bool.and_eq_true, Bool.or_eq_true, decide_eq_true_eq] at inside
        have other : c ≠ ';' := by
          rcases inside.2 with rfl | rfl <;> decide
        split
        · rename_i isGap
          exact ih (iff_of_false (space isGap) other) fun _ => space isGap
        · rw [List.getLast?_cons, Option.getD_some]
          exact ih (iff_of_false (by decide) other) fun _ => by decide
      · rw [List.getLast?_cons, Option.getD_some]
        exact ih Iff.rfl (by simp)

theorem getLast?_eq_iff (chars : List Char) :
    chars.getLast? = some ';' ↔ chars.getLast?.getD ' ' = ';' := by
  cases chars.getLast? with
  | none => simp
  | some c => simp

theorem getLast?_lineLayout (line : List Char) :
    (lineLayout line).getLast? = some ';' ↔ line.getLast? = some ';' := by
  rw [getLast?_eq_iff, getLast?_eq_iff, lineLayout_eq]
  exact getLast?_squeezed Iff.rfl (fun _ => by decide) line

namespace Scanner

/-- A scanner between two lines reads the same from a line and from its layout. -/
theorem foldl_terminated {s : Scanner} (plain : s.mode = .plain) (idle : s.pending = [])
    (line : List Char) :
    (terminated line).foldl step s = (terminated (lineLayout line)).foldl step s := by
  have read : (lineLayout line).foldl step s = line.foldl step s := by
    rw [lineLayout_eq, ← plain]
    exact foldl_squeezed true (fun _ => idle) line
  by_cases ended : line.getLast? = some ';'
  · rw [terminated, if_pos ended, terminated, if_pos ((getLast?_lineLayout line).mpr ended), read]
  · have unended : ¬ (lineLayout line).getLast? = some ';' := mt (getLast?_lineLayout line).mp ended
    rw [terminated, if_neg ended, terminated, if_neg unended, List.foldl_append, List.foldl_append,
      read]

end Scanner

/-- What is seen of a line in its layout. -/
def layoutSeen (line : List Char) : List (String × AtomKind × Bool) :=
  seen Atom.key none
    ((terminated line).foldl Scanner.step { file := "", line := 1 }).flush.done.reverse

theorem lineSeen_of_comment {line : Bytes} (comment : isComment (Utf8.decode line) = true) :
    lineSeen line = [] := by
  rw [lineSeen, atomsOf, scanned, Scanner.scanLine, if_pos comment]
  rfl

theorem lineSeen_eq {line : Bytes} (code : ¬ isComment (Utf8.decode line) = true) :
    lineSeen line = layoutSeen (lineLayout (Utf8.decode line)) := by
  rw [lineSeen, atomsOf, scanned, Scanner.scanLine, if_neg code, layoutSeen,
    ← Scanner.foldl_terminated rfl rfl]
  rfl

/-- What is seen of lines is what is seen of their layout. -/
theorem flatMap_lineSeen (lines : List Bytes) :
    lines.flatMap lineSeen = (layout (lines.map Utf8.decode)).flatMap layoutSeen := by
  induction lines with
  | nil => rfl
  | cons first rest ih =>
      have later : (layout (Utf8.decode first :: rest.map Utf8.decode)).flatMap layoutSeen =
          lineSeen first ++ (layout (rest.map Utf8.decode)).flatMap layoutSeen := by
        by_cases comment : isComment (Utf8.decode first) = true
        · rw [lineSeen_of_comment comment]
          simp [layout, comment]
        · by_cases blank : (Utf8.decode first).all isBlank = true
          · rw [lineSeen_eq comment, lineLayout_of_blank blank]
            simp only [layout, List.filter_cons, blank, Bool.not_true, Bool.and_false]
            rfl
          · rw [lineSeen_eq comment]
            simp [layout, comment, blank]
      rw [List.flatMap_cons, List.map_cons, later, ih]

/-- Lines of the same layout have atoms that are alike. -/
theorem alike_of_layout {lines lines' : List Bytes}
    (same : layout (lines.map Utf8.decode) = layout (lines'.map Utf8.decode)) (file : String) :
    Alike (lex file lines) (lex file lines') := by
  apply @Alike.of_seen _ _ none none
  rw [seen_lex, seen_lex, flatMap_lineSeen, flatMap_lineSeen, same]

/-- The same code, symbols, headers and prototypes, or faults that differ in the line only. -/
inductive SameButLine : Progress → Progress → Prop where
  | ok {u v : CompilationUnit} (code : u.code = v.code) (symbols : u.symbols = v.symbols)
      (headers : u.headers = v.headers) (prototypes : u.prototypes = v.prototypes) :
      SameButLine (.ok u) (.ok v)
  | error {phase : Phase} {file : String} {line line' index : Int} {atom : String}
      {cause : Option Fault} {u v : CompilationUnit} :
      SameButLine (.error (.phase phase file line index atom cause, u))
        (.error (.phase phase file line' index atom cause, v))

theorem SameButLine.enter {x y : Progress} (same : SameButLine x y) (phase : Phase) :
    SameButLine (x >>= fun u => pure (u.enter phase)) (y >>= fun u => pure (u.enter phase)) := by
  cases same with
  | ok code symbols headers prototypes => exact .ok code symbols headers prototypes
  | error => exact .error

/-- The atoms with other statement ordinals, where two are of one statement if they were before. -/
structure Renumbered (atoms atoms' : List Atom) : Prop where
  same : atoms.map (fun a => { a with stmt := 0 }) = atoms'.map (fun a => { a with stmt := 0 })
  statements : ∀ p ∈ atoms.zip atoms', ∀ q ∈ atoms.zip atoms',
    p.1.stmt = q.1.stmt ↔ p.2.stmt = q.2.stmt

def Progress.withAtoms (atoms : List Atom) : Progress → Progress
  | .ok u => .ok { u with atoms }
  | .error (fault, u) => .error (fault, { u with atoms })

variable {atoms atoms' : List Atom}

theorem Alike.getElem? (alike : Alike atoms atoms') (i : Nat) :
    atoms[i]? = none ∧ atoms'[i]? = none ∨
      ∃ a b, atoms[i]? = some a ∧ atoms'[i]? = some b ∧ a.Same b := by
  induction alike generalizing i with
  | nil => exact Or.inl ⟨rfl, rfl⟩
  | cons same breaks alike ih =>
      cases i with
      | zero => exact Or.inr ⟨_, _, rfl, rfl, same⟩
      | succ i => exact ih i

theorem Renumbered.alike (renumbered : Renumbered atoms atoms') : Alike atoms atoms' := by
  obtain ⟨same, statements⟩ := renumbered
  induction atoms generalizing atoms' with
  | nil =>
      cases atoms' with
      | nil => exact .nil
      | cons b rest' => cases same
  | cons a rest ih =>
      cases atoms' with
      | nil => cases same
      | cons b rest' =>
          simp only [List.map_cons, List.cons.injEq, Atom.mk.injEq] at same
          obtain ⟨⟨text, kind, -⟩, later⟩ := same
          refine .cons ⟨text, kind⟩ ?_ (ih later fun p first q second =>
            statements p (List.mem_cons_of_mem _ first) q (List.mem_cons_of_mem _ second))
          intro next head next' head'
          obtain ⟨tail, rfl⟩ := List.head?_eq_some_iff.mp head
          obtain ⟨tail', rfl⟩ := List.head?_eq_some_iff.mp head'
          exact statements (a, b) (by simp) (next, next') (by simp)

namespace CompilationUnit

variable {u : CompilationUnit}

/-- A broken rule in alike atoms of one file is one fault, but for its line. -/
theorem failMisstep_alike (alike : Alike atoms atoms') (one : ∀ a ∈ atoms, a.file = u.file)
    (one' : ∀ a ∈ atoms', a.file = u.file) (m : Misstep) (v v' : CompilationUnit) :
    SameButLine (.error ({ u with atoms }.failMisstep m, v))
      (.error ({ u with atoms := atoms' }.failMisstep m, v')) := by
  have inside : ¬ (m.index : Int) < 0 := by omega
  simp only [failMisstep, failAt, atom?, if_neg inside, Int.toNat_natCast]
  rcases alike.getElem? m.index with ⟨none, none'⟩ | ⟨a, b, found, found', same⟩
  · rw [none, none']
    exact .error
  · have place := one a (List.mem_of_getElem? found)
    have place' := one' b (List.mem_of_getElem? found')
    simp only [found, found', place, place', same.text]
    exact .error

theorem failMisstep_renumbered (renumbered : Renumbered u.atoms atoms') (m : Misstep) :
    { u with atoms := atoms' }.failMisstep m = u.failMisstep m := by
  have same := congrArg (·[m.index]?) renumbered.same
  simp only [List.getElem?_map] at same
  have inside : ¬ (m.index : Int) < 0 := by omega
  simp only [failMisstep, failAt, atom?, if_neg inside, Int.toNat_natCast]
  cases found : u.atoms[m.index]? with
  | none =>
      rw [found, Option.map_none, eq_comm, Option.map_eq_none_iff] at same
      rw [same]
  | some a =>
      rw [found, Option.map_some, eq_comm, Option.map_eq_some_iff] at same
      obtain ⟨b, found', same⟩ := same
      rw [Atom.mk.injEq] at same
      obtain ⟨text, -, file, line, -⟩ := same
      simp only [found', text, file, line]

/-- The translator tells statements apart only by whether ordinals are equal. -/
theorem translate_renumbered (renumbered : Renumbered u.atoms atoms') :
    { u with atoms := atoms' }.translate = Progress.withAtoms atoms' u.translate := by
  have walked : u.translator.walk none 0 0 u.atoms = u.translator.walk none 0 0 atoms' :=
    renumbered.alike.walk u.translator rfl 0 0
  have whole (atoms : List Atom) : ({ u with atoms }.enter .convert).translator.walk none 0 0
      ({ u with atoms }.enter .convert).atoms = u.translator.walk none 0 0 atoms := rfl
  have fault (m : Misstep) : ({ u with atoms := atoms' }.enter .convert).failMisstep m =
      (u.enter .convert).failMisstep m :=
    failMisstep_renumbered (u := u.enter .convert) renumbered m
  simp only [translate, whole, walked, fault]
  cases u.translator.walk none 0 0 atoms' with
  | error e => rfl
  | ok t => rfl

theorem translate_sameButLine (alike : Alike atoms atoms') (one : ∀ a ∈ atoms, a.file = u.file)
    (one' : ∀ a ∈ atoms', a.file = u.file) :
    SameButLine { u with atoms }.translate { u with atoms := atoms' }.translate := by
  have walked : u.translator.walk none 0 0 atoms = u.translator.walk none 0 0 atoms' :=
    alike.walk u.translator rfl 0 0
  have whole (atoms : List Atom) : ({ u with atoms }.enter .convert).translator.walk none 0 0
      ({ u with atoms }.enter .convert).atoms = u.translator.walk none 0 0 atoms := rfl
  simp only [translate, whole, walked]
  cases u.translator.walk none 0 0 atoms' with
  | error e => exact failMisstep_alike (u := u.enter .convert) alike one one' e.1 _ _
  | ok t => exact .ok rfl rfl rfl rfl

/-- Alike atoms of one file come to the same, but for the line of a fault. -/
theorem convert_sameButLine {file : String} (alike : Alike atoms atoms')
    (one : ∀ a ∈ atoms, a.file = file) (one' : ∀ a ∈ atoms', a.file = file) :
    SameButLine ({ file, atoms } : CompilationUnit).convert
      ({ file, atoms := atoms' } : CompilationUnit).convert := by
  rw [convert_eq, convert_eq]
  simp only [analyze, scanFunctions, resolveImports, enter, alike.declareFunctions]
  cases declareFunctions .empty 0 atoms' with
  | error e =>
      exact failMisstep_alike (u := { file, phase := .functionScan }) alike one one' e.1 _ _
  | ok symbols =>
      let u : CompilationUnit :=
        { file, symbols, headers := requiredHeaders atoms' [], phase := .importScan }
      dsimp only
      rw [alike.requiredHeaders]
      exact (translate_sameButLine (u := u) alike one one').enter .writeC

end CompilationUnit

/-- The layout of a program does not matter: lines that differ only in comment lines, blank lines,
leading blanks and the width of blanks outside literals come to the same, but for the line of a fault.
Nor do the ordinals of statements matter to the translator, only which atoms share one. -/
theorem layout_is_immaterial (file : String) :
    (∀ lines lines' : List Bytes,
      layout (lines.map Utf8.decode) = layout (lines'.map Utf8.decode) →
      SameButLine ({ file, atoms := lex file lines } : CompilationUnit).convert
        ({ file, atoms := lex file lines' } : CompilationUnit).convert) ∧
    ∀ (u : CompilationUnit) (atoms : List Atom), Renumbered u.atoms atoms →
      { u with atoms }.translate = Progress.withAtoms atoms u.translate := by
  refine ⟨fun lines lines' same => ?_, fun u atoms renumbered =>
    CompilationUnit.translate_renumbered renumbered⟩
  have one (lines : List Bytes) : ∀ a ∈ lex file lines, a.file = file := by
    intro a member
    rw [lex_eq] at member
    exact mem_atomsFrom member
  exact CompilationUnit.convert_sameButLine (alike_of_layout same file) (one lines) (one lines')

/-- A comment, an empty line and an indentation are taken out, and blanks are put in; the two blanks in
the literal stay. Counting statements down in steps of three makes no difference either. -/
theorem layout_is_immaterial_indented :
    let lines :=
      ["// greets", "function main() \x7b", "", "\tprint(\"a  // b\")", "\x7d"].map Utf8.encode
    let lines' := ["function \t main() \x7b", "print(\"a  // b\")", "  \x7d"].map Utf8.encode
    let atoms := (lex "a.dawn" lines).map fun a => { a with stmt := 7 - 3 * a.stmt }
    let u : CompilationUnit := { file := "a.dawn", atoms := lex "a.dawn" lines }
    layout (lines.map Utf8.decode) = layout (lines'.map Utf8.decode) ∧
      SameButLine ({ file := "a.dawn", atoms := lex "a.dawn" lines } : CompilationUnit).convert
        ({ file := "a.dawn", atoms := lex "a.dawn" lines' } : CompilationUnit).convert ∧
      Renumbered u.atoms atoms ∧ { u with atoms }.translate = Progress.withAtoms atoms u.translate := by
  intro lines lines' atoms u
  have same : layout (lines.map Utf8.decode) = layout (lines'.map Utf8.decode) := by decide
  have renumbered : Renumbered u.atoms atoms := ⟨by decide, by decide⟩
  obtain ⟨converted, translated⟩ := layout_is_immaterial "a.dawn"
  exact ⟨same, converted lines lines' same, renumbered, translated u atoms renumbered⟩

end DawnC
