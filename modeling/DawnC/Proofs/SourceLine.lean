import DawnC.Atom.Lexer

set_option autoImplicit false

namespace DawnC

/-- From a mode on, the characters stay in one atom and leave no literal open. -/
def isRunFrom : Scanner.Mode → List Char → Bool
  | .plain, [] => true
  | .quoted, [] => false
  | .escaped, [] => false
  | .plain, c :: rest =>
    if c = '"' then isRunFrom .quoted rest
    else !isSeparator c && !isPunctuation c && isRunFrom .plain rest
  | .quoted, c :: rest =>
    isRunFrom (if c = '\\' then .escaped else if c = '"' then .plain else .quoted) rest
  | .escaped, _ :: rest => isRunFrom .quoted rest

/-- The text is an atom on its own: a word, or a literal with both its quotes. -/
def isRun (text : String) : Bool := !text.toList.isEmpty && isRunFrom .plain text.toList

inductive Piece where
  | run (text : String)
  | mark (c : Char)
  deriving DecidableEq, Repr

namespace Piece

def chars : Piece → List Char
  | run text => text.toList
  | mark c => [c]

def isValid : Piece → Bool
  | run text => isRun text
  | mark c => isPunctuation c || isSeparator c && c ≠ ';'

def isMark : Piece → Bool
  | run _ => false
  | mark _ => true

end Piece

def spell (pieces : List Piece) : List Char := pieces.flatMap Piece.chars

/-- No run stands right after another. -/
def separated : List Piece → Bool
  | [] => true
  | .mark _ :: rest => separated rest
  | .run _ :: rest => rest.head?.all Piece.isMark && separated rest

def bump (stmt : Int) (c : Char) : Int := if c = '\x7b' || c = '\x7d' then stmt + 1 else stmt

def stmtAfter (stmt : Int) : List Piece → Int
  | [] => stmt
  | .run _ :: rest => stmtAfter stmt rest
  | .mark c :: rest => stmtAfter (bump stmt c) rest

def pieceAtoms (file : String) (line stmt : Int) : List Piece → List Atom
  | [] => []
  | .run text :: rest =>
    ⟨text, Scanner.kindOf text.toList, file, line, stmt⟩ :: pieceAtoms file line stmt rest
  | .mark c :: rest =>
    (if isPunctuation c then [⟨String.ofList [c], .punct, file, line, stmt⟩] else []) ++
      pieceAtoms file line (bump stmt c) rest

/-- The atoms of lines, the first with this number and its first statement with this ordinal. -/
def lineAtoms (file : String) (line stmt : Int) : List (List Piece) → List Atom
  | [] => []
  | pieces :: rest =>
    pieceAtoms file line stmt pieces ++
      lineAtoms file (line + 1) (stmtAfter stmt pieces + 2) rest

/-- The pieces are read as they are meant: each is what it says, runs do not run together, and the
line is no comment. -/
def isLine (pieces : List Piece) : Bool :=
  pieces.all Piece.isValid && separated pieces &&
    (spell pieces).head?.any fun c => c ≠ ' ' && c ≠ '\t' && c ≠ '/'

theorem isRunFrom_tail {mode : Scanner.Mode} {c : Char} {rest : List Char}
    (run : isRunFrom mode (c :: rest) = true) : ∃ next, isRunFrom next rest = true := by
  cases mode with
  | plain =>
      simp only [isRunFrom] at run
      split at run
      · exact ⟨.quoted, run⟩
      · rw [Bool.and_eq_true] at run
        exact ⟨.plain, run.2⟩
  | quoted => exact ⟨_, run⟩
  | escaped => exact ⟨_, run⟩

theorem isRunFrom_getLast {mode : Scanner.Mode} {text : List Char}
    (run : isRunFrom mode text = true) : text.getLast? ≠ some ';' := by
  induction text generalizing mode with
  | nil => simp
  | cons c rest ih =>
      cases rest with
      | cons d rest =>
          obtain ⟨next, tail⟩ := isRunFrom_tail run
          rw [List.getLast?_cons_cons]
          exact ih tail
      | nil =>
          rw [List.getLast?_singleton, Ne, Option.some.injEq]
          rintro rfl
          cases mode with
          | plain => exact absurd run (by decide)
          | quoted => exact absurd run (by decide)
          | escaped => exact absurd run (by decide)

theorem Piece.getLast?_chars {piece : Piece} (valid : piece.isValid = true) :
    ∃ c, piece.chars.getLast? = some c ∧ c ≠ ';' := by
  cases piece with
  | run text =>
      simp only [Piece.isValid, isRun, Bool.and_eq_true, Bool.not_eq_true'] at valid
      cases last : text.toList.getLast? with
      | none => simp [List.getLast?_eq_none_iff.mp last] at valid
      | some c =>
          have notSemicolon := isRunFrom_getLast valid.2
          rw [last, Ne, Option.some.injEq] at notSemicolon
          exact ⟨c, last, notSemicolon⟩
  | mark c =>
      refine ⟨c, rfl, ?_⟩
      rintro rfl
      exact absurd valid (by decide)

/-- A line of pieces never ends with its own `;`. -/
theorem terminated_spell {pieces : List Piece} (valid : pieces.all Piece.isValid = true) :
    terminated (spell pieces) = spell pieces ++ [';'] := by
  rw [terminated, if_neg]
  rcases List.eq_nil_or_concat pieces with rfl | ⟨before, last, rfl⟩
  · simp [spell]
  · rw [List.concat_eq_append] at valid ⊢
    rw [List.all_append, Bool.and_eq_true] at valid
    have lastValid : last.isValid = true := by simpa using valid.2
    obtain ⟨c, found, notSemicolon⟩ := Piece.getLast?_chars lastValid
    rw [spell, List.flatMap_append, List.flatMap_singleton, List.getLast?_append, found,
      Option.some_or, Option.some.injEq]
    exact notSemicolon

theorem not_isComment {pieces : List Piece} (line : isLine pieces = true) :
    isComment (spell pieces) = false := by
  simp only [isLine, Bool.and_eq_true] at line
  cases chars : spell pieces with
  | nil => simp [chars] at line
  | cons c rest =>
      have first := line.2
      rw [chars, List.head?_cons, Option.any_some] at first
      simp only [Bool.and_eq_true, decide_eq_true_eq] at first
      obtain ⟨⟨notBlank, notTab⟩, notSlash⟩ := first
      simp [isComment, notBlank, notTab, List.isPrefixOf, Ne.symm notSlash]

namespace Scanner

@[simp] theorem flush_mode (s : Scanner) : s.flush.mode = s.mode := by
  simp only [flush]
  split <;> rfl

@[simp] theorem flush_file (s : Scanner) : s.flush.file = s.file := by
  simp only [flush]
  split <;> rfl

@[simp] theorem flush_line (s : Scanner) : s.flush.line = s.line := by
  simp only [flush]
  split <;> rfl

@[simp] theorem flush_stmt (s : Scanner) : s.flush.stmt = s.stmt := by
  simp only [flush]
  split <;> rfl

@[simp] theorem flush_pending (s : Scanner) : s.flush.pending = [] := by
  simp only [flush]
  split
  · assumption
  · rfl

theorem flush_of_empty {s : Scanner} (empty : s.pending = []) : s.flush = s := by
  simp only [flush, empty]

theorem flush_of_pending {s : Scanner} {text : List Char} (nonempty : text ≠ [])
    (pending : s.pending = text.reverse) :
    s.flush = { s with pending := [] }.push text (kindOf text) := by
  simp only [flush, pending]
  split
  · rename_i empty
    exact absurd (List.reverse_eq_nil_iff.mp empty) nonempty
  · rw [List.reverse_reverse]

/-- Everything in a run joins the pending atom. -/
theorem foldl_run {mode : Mode} {text : List Char} (run : isRunFrom mode text = true) (s : Scanner)
    (same : s.mode = mode) :
    text.foldl step s = { s with mode := .plain, pending := text.reverse ++ s.pending } := by
  induction text generalizing mode s with
  | nil =>
      cases mode with
      | plain =>
          rw [List.foldl_nil, List.reverse_nil, List.nil_append, ← same]
      | quoted => cases run
      | escaped => cases run
  | cons c rest ih =>
      have joined (next : Mode) (tail : isRunFrom next rest = true)
          (stepped : s.step c = { s with mode := next, pending := c :: s.pending }) :
          (c :: rest).foldl step s =
            { s with mode := .plain, pending := (c :: rest).reverse ++ s.pending } := by
        rw [List.foldl_cons, stepped, ih tail _ rfl, List.reverse_cons, List.append_assoc,
          List.singleton_append]
      cases mode with
      | plain =>
          simp only [isRunFrom] at run
          split at run
          · rename_i quote
            refine joined .quoted run ?_
            simp only [step, same, stepPlain, quote, if_true]
          · rename_i notQuote
            simp only [Bool.and_eq_true, Bool.not_eq_true'] at run
            refine joined .plain run.2 ?_
            simp only [step, same, stepPlain, if_neg notQuote, run.1.1, run.1.2,
              Bool.false_eq_true, if_false]
      | quoted =>
          refine joined _ run ?_
          simp only [step, same]
      | escaped =>
          refine joined _ run ?_
          simp only [step, same]

def read (s : Scanner) (pieces : List Piece) : Scanner :=
  { s with
    stmt := stmtAfter s.stmt pieces
    done := (pieceAtoms s.file s.line s.stmt pieces).reverse ++ s.done }

/-- A mark ends the pending atom. -/
theorem step_mark {c : Char} (valid : (Piece.mark c).isValid = true) {s : Scanner}
    (plain : s.mode = .plain) : s.step c = s.flush.read [.mark c] := by
  have notQuote : c ≠ '"' := by
    rintro rfl
    exact absurd valid (by decide)
  simp only [Piece.isValid, Bool.or_eq_true, Bool.and_eq_true, decide_eq_true_eq] at valid
  simp only [step, plain, stepPlain, if_neg notQuote, read, stmtAfter, pieceAtoms, bump]
  by_cases punctuation : isPunctuation c = true
  · have notSeparator : isSeparator c = false := by
      simp only [isPunctuation, Bool.or_eq_true, decide_eq_true_eq] at punctuation
      rcases punctuation with (((rfl | rfl) | rfl) | rfl) | rfl <;> decide
    have notOpen : c ≠ '\x7b' := by
      rintro rfl
      exact absurd punctuation (by decide)
    by_cases close : c = '\x7d'
    · simp [close, endStatement, push, isSeparator, isPunctuation]
    · simp [notSeparator, punctuation, notOpen, close, push]
  · obtain ⟨separator, notSemicolon⟩ := valid.resolve_left punctuation
    have notClose : c ≠ '\x7d' := by
      rintro rfl
      exact absurd separator (by decide)
    by_cases opens : c = '\x7b'
    · simp [opens, endStatement, isSeparator, isPunctuation]
    · have stays : ¬ (decide (c = '\x7b') || decide (c = '\x7d')) = true := by simp [opens, notClose]
      have drops : ¬ (decide (c = ';') || decide (c = '\x7b')) = true := by simp [opens, notSemicolon]
      simp only [separator, if_true, if_neg drops, if_neg stays, if_neg punctuation, List.append_nil,
        List.reverse_nil, List.nil_append]

@[simp] theorem read_nil (s : Scanner) : s.read [] = s := rfl

theorem read_cons (s : Scanner) (piece : Piece) (rest : List Piece) :
    s.read (piece :: rest) = (s.read [piece]).read rest := by
  cases piece with
  | run text => simp [read, stmtAfter, pieceAtoms]
  | mark c => simp [read, stmtAfter, pieceAtoms]

@[simp] theorem read_mode (s : Scanner) (pieces : List Piece) : (s.read pieces).mode = s.mode := rfl

@[simp] theorem read_pending (s : Scanner) (pieces : List Piece) :
    (s.read pieces).pending = s.pending := rfl

/-- Scanning pieces gives their atoms. A run that is still pending is one of them. -/
theorem foldl_spell {pieces : List Piece} (valid : pieces.all Piece.isValid = true)
    (apart : separated pieces = true) {s : Scanner} (plain : s.mode = .plain)
    (ready : s.pending = [] ∨ pieces.head?.all Piece.isMark = true) :
    ((spell pieces).foldl step s).flush = s.flush.read pieces := by
  induction pieces generalizing s with
  | nil => rfl
  | cons piece rest ih =>
      rw [List.all_cons, Bool.and_eq_true] at valid
      rw [spell, List.flatMap_cons, List.foldl_append, read_cons]
      cases piece with
      | mark c =>
          have flushed : (s.flush.read [.mark c]).flush = s.flush.read [.mark c] :=
            flush_of_empty (by simp)
          rw [Piece.chars, List.foldl_cons, List.foldl_nil, step_mark valid.1 plain, ← spell,
            ih valid.2 apart (by simpa using plain) (Or.inl (by simp)), flushed]
      | run text =>
          have empty : s.pending = [] := by
            rcases ready with empty | mark
            · exact empty
            · cases mark
          simp only [separated, Bool.and_eq_true] at apart
          have run := valid.1
          simp only [Piece.isValid, isRun, Bool.and_eq_true, Bool.not_eq_true',
            List.isEmpty_eq_false_iff] at run
          have joined := foldl_run run.2 s plain
          rw [Piece.chars, joined, ← spell, ih valid.2 apart.2 rfl (Or.inr apart.1),
            flush_of_pending run.1 (by rw [empty, List.append_nil]),
            flush_of_empty empty]
          simp [push, read, pieceAtoms, stmtAfter, empty, ← plain]

/-- A line of pieces is read as their atoms, and ends a statement twice. -/
theorem scanLine_spell {pieces : List Piece} (line : isLine pieces = true) {s : Scanner}
    (plain : s.mode = .plain) (empty : s.pending = []) :
    s.scanLine (spell pieces) =
      { s with
        line := s.line + 1
        stmt := stmtAfter s.stmt pieces + 2
        done := (pieceAtoms s.file (s.line + 1) s.stmt pieces).reverse ++ s.done } := by
  have comment := not_isComment line
  simp only [isLine, Bool.and_eq_true] at line
  have scanned := foldl_spell line.1.1 line.1.2 (s := { s with line := s.line + 1 }) plain
    (Or.inl empty)
  have mode := congrArg Scanner.mode scanned
  rw [flush_mode, read_mode, flush_mode] at mode
  have stop (r : Scanner) (inPlain : r.mode = .plain) : r.step ';' = r.flush.endStatement := by
    simp [step, inPlain, stepPlain, isSeparator]
  rw [scanLine, if_neg (by rw [comment]; exact Bool.false_ne_true), terminated_spell line.1.1,
    List.foldl_append, List.foldl_cons, List.foldl_nil, stop _ (mode.trans plain), scanned,
    flush_of_empty (s := { s with line := s.line + 1 }) empty,
    flush_of_empty (by simpa [endStatement, read] using empty)]
  simp [endStatement, read, plain, Int.add_assoc]

end Scanner

/-- Lines of pieces are read as the atoms of their pieces. -/
theorem lexText_spell (file : String) {lines : List (List Piece)}
    (valid : ∀ pieces ∈ lines, isLine pieces = true) :
    lexText file (lines.map spell) = lineAtoms file 1 0 lines := by
  have scanned (s : Scanner) (plain : s.mode = .plain) (empty : s.pending = []) :
      ((lines.map spell).foldl Scanner.scanLine s).done.reverse =
        s.done.reverse ++ lineAtoms s.file (s.line + 1) s.stmt lines := by
    induction lines generalizing s with
    | nil => simp [lineAtoms]
    | cons pieces rest ih =>
        have here := valid pieces List.mem_cons_self
        have later : ∀ pieces ∈ rest, isLine pieces = true :=
          fun pieces member => valid pieces (List.mem_cons_of_mem _ member)
        rw [List.map_cons, List.foldl_cons, Scanner.scanLine_spell here plain empty]
        refine (ih later _ ?_ ?_).trans ?_
        · exact plain
        · exact empty
        · simp [lineAtoms, List.append_assoc]
  rw [lexText, scanned { file } rfl rfl]
  simp

end DawnC
