import DawnC.Proofs.Brackets

set_option autoImplicit false

namespace DawnC

mutual

/-- The characters of a text, each with whether it stands in a literal. A literal runs from a quote to
the next quote that no backslash escapes, or to the end of the text. -/
def marked : List Char → List (Char × Bool)
  | [] => []
  | c :: rest => if c = '"' then (c, true) :: markedIn rest else (c, false) :: marked rest

def markedIn : List Char → List (Char × Bool)
  | [] => []
  | '\\' :: c :: rest => ('\\', true) :: (c, true) :: markedIn rest
  | c :: rest => (c, true) :: if c = '"' then marked rest else markedIn rest

end

/-- The character is part of a longer atom: it stands in a literal, or ends no atom. -/
def joins (p : Char × Bool) : Bool := p.2 || !isSeparator p.1 && !isPunctuation p.1

inductive Spells : List (Char × Bool) → List Atom → Prop where
  | nil : Spells [] []
  | separator {c : Char} {rest : List (Char × Bool)} {atoms : List Atom} :
    isSeparator c = true → Spells rest atoms → Spells ((c, false) :: rest) atoms
  | punctuation {c : Char} {rest : List (Char × Bool)} {a : Atom} {atoms : List Atom} :
    isPunctuation c = true → a.text = String.ofList [c] → a.kind = .punct → Spells rest atoms →
    Spells ((c, false) :: rest) (a :: atoms)
  | lexeme {run rest : List (Char × Bool)} {a : Atom} {atoms : List Atom} :
    run ≠ [] → (∀ p ∈ run, joins p = true) → (∀ p ∈ rest.head?, joins p = false) →
    marked a.text.toList = run → a.kind = Scanner.kindOf a.text.toList → Spells rest atoms →
    Spells (run ++ rest) (a :: atoms)

/-- The character ends a statement: it is a `;` or a brace, outside literals. -/
def endsStatement (p : Char × Bool) : Bool :=
  !p.2 && (p.1 = ';' || p.1 = '\x7b' || p.1 = '\x7d')

def statementEnds (chars : List (Char × Bool)) : Nat := chars.countP endsStatement

/-- The characters spell these atoms, and number the statements of the atoms from `stmt` on. -/
inductive SpellsFrom : Int → List (Char × Bool) → List Atom → Prop where
  | nil {stmt : Int} : SpellsFrom stmt [] []
  | separator {stmt : Int} {c : Char} {rest : List (Char × Bool)} {atoms : List Atom} :
    isSeparator c = true → SpellsFrom (stmt + statementEnds [(c, false)]) rest atoms →
    SpellsFrom stmt ((c, false) :: rest) atoms
  | punctuation {stmt : Int} {c : Char} {rest : List (Char × Bool)} {a : Atom} {atoms : List Atom} :
    isPunctuation c = true → a.text = String.ofList [c] → a.kind = .punct → a.stmt = stmt →
    SpellsFrom (stmt + statementEnds [(c, false)]) rest atoms →
    SpellsFrom stmt ((c, false) :: rest) (a :: atoms)
  | lexeme {stmt : Int} {run rest : List (Char × Bool)} {a : Atom} {atoms : List Atom} :
    run ≠ [] → (∀ p ∈ run, joins p = true) → (∀ p ∈ rest.head?, joins p = false) →
    marked a.text.toList = run → a.kind = Scanner.kindOf a.text.toList → a.stmt = stmt →
    SpellsFrom stmt rest atoms → SpellsFrom stmt (run ++ rest) (a :: atoms)

theorem SpellsFrom.spells {stmt : Int} {chars : List (Char × Bool)} {atoms : List Atom}
    (spelt : SpellsFrom stmt chars atoms) : Spells chars atoms := by
  induction spelt with
  | nil => exact .nil
  | separator separator _ ih => exact .separator separator ih
  | punctuation punctuation text kind _ _ ih => exact .punctuation punctuation text kind ih
  | lexeme nonempty all stop text kind _ _ ih => exact .lexeme nonempty all stop text kind ih

/-- Another place moves all ordinals alike. -/
theorem SpellsFrom.moved {stmt : Int} {chars : List (Char × Bool)} {atoms : List Atom}
    (spelt : SpellsFrom stmt chars atoms) (file : String) (line more : Int) :
    SpellsFrom (stmt + more) chars (atoms.map (Atom.moved file line more)) := by
  induction spelt with
  | nil => exact .nil
  | separator separator _ ih =>
      rw [Int.add_right_comm] at ih
      exact .separator separator ih
  | punctuation punctuation text kind number _ ih =>
      rw [Int.add_right_comm] at ih
      exact .punctuation punctuation text kind (congrArg (· + more) number) ih
  | lexeme nonempty all stop text kind number _ ih =>
      exact .lexeme nonempty all stop text kind (congrArg (· + more) number) ih

def markedFrom : Scanner.Mode → List Char → List (Char × Bool)
  | .plain, text => marked text
  | .quoted, text => markedIn text
  | .escaped, [] => []
  | .escaped, c :: rest => (c, true) :: markedIn rest

@[simp] theorem markedFrom_nil (mode : Scanner.Mode) : markedFrom mode [] = [] := by
  cases mode <;> rfl

/-- The mark of a character depends on the mode before it and on itself. -/
theorem markedFrom_cons (mode : Scanner.Mode) (c : Char) (rest : List Char) :
    markedFrom mode (c :: rest) =
      (c, decide (mode ≠ .plain) || decide (c = '"')) :: markedFrom (mode.next c) rest := by
  cases mode with
  | plain =>
      by_cases quote : c = '"'
      · simp [markedFrom, marked, Scanner.Mode.next, quote]
      · simp [markedFrom, marked, Scanner.Mode.next, quote]
  | quoted =>
      -- a backslash takes the next character with it, if there is one
      by_cases backslash : c = '\\'
      · subst backslash
        cases rest with
        | nil => rfl
        | cons d rest => rfl
      · have here : markedIn (c :: rest) =
            (c, true) :: if c = '"' then marked rest else markedIn rest := by
          rw [markedIn]
          simp [backslash]
        by_cases quote : c = '"'
        · rw [markedFrom, here, if_pos quote, Scanner.Mode.next, if_neg backslash, if_pos quote]
          rfl
        · rw [markedFrom, here, if_neg quote, Scanner.Mode.next, if_neg backslash, if_neg quote]
          rfl
  | escaped => rfl

theorem map_fst_markedFrom (mode : Scanner.Mode) (text : List Char) :
    (markedFrom mode text).map Prod.fst = text := by
  induction text generalizing mode with
  | nil => simp
  | cons c rest ih => rw [markedFrom_cons, List.map_cons, ih]

@[simp] theorem map_fst_marked (text : List Char) : (marked text).map Prod.fst = text :=
  map_fst_markedFrom .plain text

theorem marked_inj {first second : List Char} (same : marked first = marked second) :
    first = second := by
  rw [← map_fst_marked first, same, map_fst_marked]

theorem marked_ne_nil {text : List Char} (filled : text ≠ []) : marked text ≠ [] := by
  intro none
  rw [← map_fst_marked text, none] at filled
  exact filled rfl

theorem marked_cons {c : Char} (notQuote : c ≠ '"') (rest : List Char) :
    marked (c :: rest) = (c, false) :: marked rest := by
  rw [marked, if_neg notQuote]

theorem marked_singleton {c : Char} (punctuation : isPunctuation c = true) :
    marked [c] = [(c, false)] := marked_cons (ne_quote_of_isPunctuation punctuation) []

theorem markedFrom_append (mode : Scanner.Mode) (first second : List Char) :
    markedFrom mode (first ++ second) =
      markedFrom mode first ++ markedFrom (first.foldl Scanner.Mode.next mode) second := by
  induction first generalizing mode with
  | nil => simp
  | cons c rest ih =>
      rw [List.cons_append, markedFrom_cons, ih, markedFrom_cons, List.foldl_cons, List.cons_append]

/-- What follows a text with all its literals terminated is marked as if it stood alone. -/
theorem marked_append {first : List Char} (ends : isTerminated first = true) (second : List Char) :
    marked (first ++ second) = marked first ++ marked second := by
  have parts := markedFrom_append .plain first second
  rw [of_decide_eq_true ends] at parts
  exact parts

namespace Scanner

theorem modeAfter_cons (mode : Mode) (c : Char) (rest : List Char) :
    modeAfter mode (c :: rest) =
      if joins (c, decide (mode ≠ .plain) || decide (c = '"')) then modeAfter (mode.next c) rest
      else none := by
  cases mode with
  | plain =>
      by_cases quote : c = '"'
      · simp [modeAfter, joins, Mode.next, quote]
      · simp [modeAfter, joins, Mode.next, isPlainChar, quote]
  | quoted => rfl
  | escaped => rfl

/-- A text is one atom if all of its characters join. -/
theorem isSome_modeAfter (mode : Mode) (text : List Char) :
    (modeAfter mode text).isSome = true ↔ ∀ p ∈ markedFrom mode text, joins p = true := by
  induction text generalizing mode with
  | nil => cases mode <;> simp [modeAfter]
  | cons c rest ih =>
      rw [modeAfter_cons, markedFrom_cons, List.forall_mem_cons]
      split
      · rename_i here
        rw [ih]
        exact (and_iff_right here).symm
      · rename_i here
        exact iff_of_false Bool.false_ne_true fun all => here all.1

theorem isAtomText_iff (text : List Char) :
    IsAtomText text ↔ ∀ p ∈ marked text, joins p = true :=
  isSome_modeAfter .plain text

end Scanner

@[simp] theorem statementEnds_nil : statementEnds [] = 0 := rfl

theorem statementEnds_singleton (p : Char × Bool) :
    statementEnds [p] = if endsStatement p then 1 else 0 := List.countP_singleton

theorem statementEnds_append (first second : List (Char × Bool)) :
    statementEnds (first ++ second) = statementEnds first + statementEnds second := List.countP_append

theorem not_isPunctuation {c : Char} (separator : isSeparator c = true) : isPunctuation c = false := by
  simp only [isSeparator, Bool.or_eq_true, decide_eq_true_eq] at separator
  rcases separator with ((((rfl | rfl) | rfl) | rfl) | rfl) | rfl <;> rfl

namespace Scanner

variable {s : Scanner}

theorem step_of_joins {c : Char}
    (stays : joins (c, decide (s.mode ≠ .plain) || decide (c = '"')) = true) :
    s.step c = { s with pending := c :: s.pending, mode := s.mode.next c } := by
  cases mode : s.mode with
  | plain =>
      by_cases quote : c = '"'
      · simp [step, mode, stepPlain, Mode.next, quote]
      · simp only [joins, mode, ne_eq, not_true_eq_false, decide_false, Bool.false_or, quote,
          Bool.and_eq_true, Bool.not_eq_true'] at stays
        simp [step, mode, stepPlain, Mode.next, quote, stays]
  | quoted => simp [step, mode, Mode.next]
  | escaped => simp [step, mode, Mode.next]

/-- What the end of the pending atom adds, before characters that are read next. -/
theorem Tidy.flush_spells (tidy : s.Tidy) {rest : List (Char × Bool)} {atoms : List Atom}
    (stop : ∀ p ∈ rest.head?, joins p = false) (spelt : SpellsFrom s.stmt rest atoms) :
    ∃ new, s.flush.done = new.reverse ++ s.done ∧ (∀ a ∈ new, a.line = s.line) ∧
      SpellsFrom s.stmt (marked s.pending.reverse ++ rest) (new ++ atoms) := by
  by_cases empty : s.pending = []
  · refine ⟨[], ?_, by simp, ?_⟩
    · rw [flush_of_empty empty]
      rfl
    · rw [empty]
      exact spelt
  · have nonempty : s.pending.reverse ≠ [] := by simpa using empty
    have joined : IsAtomText s.pending.reverse := by
      rw [IsAtomText, tidy.pending]
      rfl
    refine ⟨[⟨String.ofList s.pending.reverse, kindOf s.pending.reverse, s.file, s.line, s.stmt⟩],
      ?_, by simp, ?_⟩
    · rw [flush_of_pending nonempty (List.reverse_reverse _).symm]
      rfl
    · refine .lexeme (marked_ne_nil nonempty) ((isAtomText_iff _).mp joined) stop ?_ ?_ rfl spelt
      · rw [String.toList_ofList]
      · rw [String.toList_ofList]

/-- A character that does not join ends the pending atom, and is an atom itself if it is punctuation. -/
theorem step_of_not_joins {c : Char}
    (ends : joins (c, decide (s.mode ≠ .plain) || decide (c = '"')) = false) :
    s.mode = .plain ∧ c ≠ '"' ∧ (s.step c).pending = [] ∧ (s.step c).line = s.line ∧
      (s.step c).stmt = s.stmt + statementEnds [(c, false)] ∧
      (isSeparator c = true ∧ (s.step c).done = s.flush.done ∨
        isPunctuation c = true ∧ (s.step c).done =
          ⟨String.ofList [c], .punct, s.file, s.line, s.stmt⟩ :: s.flush.done) := by
  simp only [joins, Bool.or_eq_false_iff, decide_eq_false_iff_not, Classical.not_not,
    Bool.and_eq_false_iff, Bool.not_eq_false'] at ends
  obtain ⟨⟨plain, notQuote⟩, separator | punctuation⟩ := ends
  · have notClose : c ≠ '\x7d' := by
      rintro rfl
      exact absurd separator (by decide)
    refine ⟨plain, notQuote, ?_⟩
    simp only [step, plain, stepPlain, if_neg notQuote, separator, if_true]
    split
    · rename_i stops
      refine ⟨flush_pending s, flush_line s, ?_, Or.inl ⟨trivial, rfl⟩⟩
      rw [statementEnds_singleton, if_pos (by simp [endsStatement, stops])]
      exact congrArg (· + 1) (flush_stmt s)
    · rename_i goesOn
      refine ⟨flush_pending s, flush_line s, ?_, Or.inl ⟨trivial, rfl⟩⟩
      rw [statementEnds_singleton, if_neg (by simp [endsStatement, goesOn, notClose])]
      exact (flush_stmt s).trans (Int.add_zero _).symm
  · have notSeparator : ¬ isSeparator c = true := by
      intro separator
      rw [not_isPunctuation separator] at punctuation
      cases punctuation
    have goesOn : ¬ (decide (c = ';') || decide (c = '\x7b')) = true := by
      intro stops
      refine notSeparator ?_
      rcases (by simpa using stops : c = ';' ∨ c = '\x7b') with rfl | rfl <;> decide
    have pushed : (s.flush.push [c] .punct).done =
        ⟨String.ofList [c], .punct, s.file, s.line, s.stmt⟩ :: s.flush.done := by
      rw [push, flush_file, flush_line, flush_stmt]
    refine ⟨plain, notQuote, ?_⟩
    simp only [step, plain, stepPlain, if_neg notQuote, if_neg notSeparator, punctuation, if_true]
    split
    · rename_i close
      refine ⟨flush_pending s, flush_line s, ?_, Or.inr ⟨trivial, pushed⟩⟩
      rw [statementEnds_singleton, if_pos (by simp [endsStatement, close])]
      exact congrArg (· + 1) (flush_stmt s)
    · rename_i other
      refine ⟨flush_pending s, flush_line s, ?_, Or.inr ⟨trivial, pushed⟩⟩
      rw [statementEnds_singleton, if_neg (by simp [endsStatement, goesOn, other])]
      exact (flush_stmt s).trans (Int.add_zero _).symm

/-- The scanner reads what the pending atom and the characters spell together. -/
theorem Tidy.foldl_spells (tidy : s.Tidy) (chars : List Char) :
    ∃ new, (chars.foldl Scanner.step s).flush.done = new.reverse ++ s.done ∧
      (∀ a ∈ new, a.line = s.line) ∧
      SpellsFrom s.stmt (marked s.pending.reverse ++ markedFrom s.mode chars) new := by
  induction chars generalizing s with
  | nil =>
      obtain ⟨new, done, lines, spelt⟩ := tidy.flush_spells (by simp) SpellsFrom.nil
      refine ⟨new, done, lines, ?_⟩
      rw [markedFrom_nil]
      rw [List.append_nil new] at spelt
      exact spelt
  | cons c rest ih =>
      obtain ⟨new, done, lines, spelt⟩ := ih (tidy.step c)
      rw [List.foldl_cons, markedFrom_cons]
      cases stays : joins (c, decide (s.mode ≠ .plain) || decide (c = '"')) with
      | true =>
          -- the character moves from what is to be read to what is pending
          rw [step_of_joins stays] at done lines spelt ⊢
          refine ⟨new, done, lines, ?_⟩
          have mode := (bracketsFrom_of_modeAfter tidy.pending).1
          have pending := markedFrom_append .plain s.pending.reverse [c]
          rw [mode, markedFrom_cons, markedFrom_nil] at pending
          rw [List.reverse_cons] at spelt
          change marked _ = _ at pending
          rw [pending, List.append_assoc] at spelt
          exact spelt
      | false =>
          obtain ⟨plain, notQuote, idle, line, stmt, read⟩ := step_of_not_joins stays
          have next : (s.step c).mode = .plain := by
            rw [step_mode, plain, Mode.next, if_neg notQuote]
          have mark : (decide (s.mode ≠ .plain) || decide (c = '"')) = false := by
            simp [plain, notQuote]
          rw [idle, next, stmt] at spelt
          rw [mark] at stays
          rw [mark, ← step_mode, next]
          have stop : ∀ p ∈ ((c, false) :: marked rest).head?, joins p = false := by
            rintro p ⟨⟩
            exact stays
          -- the pending atom ends here, and the character is dropped or read on its own
          obtain ⟨own, kept, here, whole⟩ : ∃ own, (s.step c).done = own.reverse ++ s.flush.done ∧
              (∀ a ∈ own, a.line = s.line) ∧
              SpellsFrom s.stmt ((c, false) :: marked rest) (own ++ new) := by
            rcases read with ⟨separator, kept⟩ | ⟨punctuation, kept⟩
            · exact ⟨[], kept, by simp, .separator separator spelt⟩
            · exact ⟨[_], kept, by simp, .punctuation punctuation rfl rfl rfl spelt⟩
          obtain ⟨ended, flushed, before, all⟩ := tidy.flush_spells stop whole
          refine ⟨ended ++ (own ++ new), ?_, ?_, all⟩
          · rw [done, kept, flushed]
            simp only [List.reverse_append, List.append_assoc]
          · rw [line] at lines
            simp only [List.mem_append]
            rintro a (old | punct | later)
            · exact before a old
            · exact here a punct
            · exact lines a later

end Scanner

theorem atomsOf_of_isComment {line : Bytes} (comment : isComment (Utf8.decode line) = true) :
    atomsOf line = [] := by
  rw [atomsOf, scanned, Scanner.scanLine, if_pos comment]
  rfl

/-- The atoms of a line that is no comment are those that it spells. -/
theorem atomsOf_spells {line : Bytes} (code : isComment (Utf8.decode line) = false) :
    SpellsFrom 0 (marked (terminated (Utf8.decode line))) (atomsOf line) ∧
      ∀ a ∈ atomsOf line, a.line = 1 := by
  have tidy : Scanner.Tidy { file := "", line := 1 } :=
    ⟨rfl, fun _ member => absurd member List.not_mem_nil⟩
  obtain ⟨new, done, lines, spelt⟩ := tidy.foldl_spells (terminated (Utf8.decode line))
  have atoms : atomsOf line = new := by
    rw [atomsOf, scanned, Scanner.scanLine, if_neg (by rw [code]; exact Bool.false_ne_true)]
    change (Scanner.flush _).done.reverse = new
    rw [← List.reverse_reverse new]
    refine congrArg List.reverse (done.trans ?_)
    exact List.append_nil _
  rw [atoms]
  exact ⟨spelt, lines⟩

theorem line_of_mem_atomsOf {line : Bytes} {a : Atom} (member : a ∈ atomsOf line) : a.line = 1 := by
  cases kind : isComment (Utf8.decode line) with
  | true =>
      rw [atomsOf_of_isComment kind] at member
      cases member
  | false => exact (atomsOf_spells kind).2 a member

namespace Scanner

theorem step_line (s : Scanner) (c : Char) : (s.step c).line = s.line := by
  cases stays : joins (c, decide (s.mode ≠ .plain) || decide (c = '"')) with
  | true => rw [step_of_joins stays]
  | false =>
      obtain ⟨-, -, -, line, -⟩ := step_of_not_joins stays
      exact line

theorem foldl_line (s : Scanner) (chars : List Char) : (chars.foldl step s).line = s.line := by
  induction chars generalizing s with
  | nil => rfl
  | cons c rest ih => rw [List.foldl_cons, ih, step_line]

end Scanner

@[simp] theorem scanned_line (line : Bytes) : (scanned line).line = 1 := by
  simp only [scanned, Scanner.scanLine]
  split
  · rfl
  · rw [Scanner.endStatement, Scanner.flush_line, Scanner.foldl_line]
    rfl

def atLine (number : Int) (atoms : List Atom) : List Atom := atoms.filter fun a => a.line = number

theorem atLine_append (number : Int) (first second : List Atom) :
    atLine number (first ++ second) = atLine number first ++ atLine number second :=
  List.filter_append ..

theorem line_of_mem_atomsFrom {file : String} {line stmt : Int} {lines : List Bytes} {a : Atom}
    (member : a ∈ atomsFrom file line stmt lines) : line < a.line ∧ a.line ≤ line + lines.length := by
  induction lines generalizing line stmt with
  | nil => cases member
  | cons first rest ih =>
      rw [List.length_cons]
      rcases List.mem_append.mp member with here | later
      · obtain ⟨b, inside, rfl⟩ := List.mem_map.mp here
        have one := line_of_mem_atomsOf inside
        have moved : (b.moved file line stmt).line = b.line + line := rfl
        omega
      · have bounds := ih later
        rw [scanned_line] at bounds
        omega

theorem atLine_moved (file : String) (line stmt : Int) (bytes : Bytes) (number : Int) :
    atLine number ((atomsOf bytes).map (Atom.moved file line stmt)) =
      if number = line + 1 then (atomsOf bytes).map (Atom.moved file line stmt) else [] := by
  have numbers : ∀ a ∈ (atomsOf bytes).map (Atom.moved file line stmt), a.line = line + 1 := by
    intro a member
    obtain ⟨b, inside, rfl⟩ := List.mem_map.mp member
    have one := line_of_mem_atomsOf inside
    have moved : (b.moved file line stmt).line = b.line + line := rfl
    omega
  split
  · rename_i same
    refine List.filter_eq_self.mpr fun a member => ?_
    rw [numbers a member, same, decide_eq_true_eq]
  · rename_i other
    refine List.filter_eq_nil_iff.mpr fun a member => ?_
    rw [numbers a member, decide_eq_true_eq]
    exact fun same => other same.symm

section

variable (file : String) (line stmt : Int) (first : Bytes) (rest : List Bytes)

theorem atLine_first : atLine (line + 1) (atomsFrom file line stmt (first :: rest)) =
    (atomsOf first).map (Atom.moved file line stmt) := by
  have none : atLine (line + 1) (atomsFrom file (line + 1) (stmt + (scanned first).stmt) rest) = [] := by
    refine List.filter_eq_nil_iff.mpr fun a member => ?_
    have later := (line_of_mem_atomsFrom member).1
    rw [decide_eq_true_eq]
    omega
  rw [atomsFrom, atLine_append, atLine_moved, scanned_line, if_pos rfl, none, List.append_nil]

theorem atLine_later (k : Nat) :
    atLine (line + (k + 1 : Nat) + 1) (atomsFrom file line stmt (first :: rest)) =
      atLine (line + 1 + k + 1) (atomsFrom file (line + 1) (stmt + (scanned first).stmt) rest) := by
  have number : line + (k + 1 : Nat) = line + 1 + k := by omega
  rw [atomsFrom, atLine_append, atLine_moved, scanned_line, number, if_neg (by omega), List.nil_append]

end

/-- The atoms with the number of a line are the atoms of that line. -/
theorem atLine_atomsFrom (file : String) (line stmt : Int) {lines : List Bytes} {k : Nat}
    {bytes : Bytes} (there : lines[k]? = some bytes) :
    ∃ before : Int, atLine (line + k + 1) (atomsFrom file line stmt lines) =
      (atomsOf bytes).map (Atom.moved file (line + k) before) := by
  induction lines generalizing line stmt k with
  | nil => cases there
  | cons first rest ih =>
      cases k with
      | zero =>
          obtain rfl := Option.some.inj there
          refine ⟨stmt, ?_⟩
          rw [Int.natCast_zero, Int.add_zero, atLine_first]
      | succ k =>
          obtain ⟨before, found⟩ := ih (line + 1) (stmt + (scanned first).stmt) there
          refine ⟨before, ?_⟩
          have number : line + (k + 1 : Nat) = line + 1 + k := by omega
          rw [atLine_later, found, number]

theorem atomsFrom_eq_flatMap (file : String) (line stmt : Int) (lines : List Bytes) :
    atomsFrom file line stmt lines = (List.range lines.length).flatMap fun (k : Nat) =>
      atLine (line + k + 1) (atomsFrom file line stmt lines) := by
  induction lines generalizing line stmt with
  | nil => rfl
  | cons first rest ih =>
      rw [List.length_cons, List.range_succ_eq_map, List.flatMap_cons, List.flatMap_map,
        Int.natCast_zero, Int.add_zero, atLine_first]
      simp only [Nat.succ_eq_add_one, atLine_later]
      rw [← ih, atomsFrom, scanned_line]

theorem joins_iff (p : Char × Bool) : joins p = true ↔
    p.2 = true ∨ isSeparator p.1 = false ∧ isPunctuation p.1 = false := by
  simp [joins]

theorem not_isSeparator {c : Char} (punctuation : isPunctuation c = true) : isSeparator c = false := by
  refine Bool.eq_false_iff.mpr fun separator => ?_
  rw [not_isPunctuation separator] at punctuation
  cases punctuation

namespace Spells

variable {chars : List (Char × Bool)} {atoms : List Atom}

/-- Only separators outside literals are lost. -/
theorem texts (spelt : Spells chars atoms) : atoms.flatMap (fun a => a.text.toList) =
    (chars.filter fun p => p.2 || !isSeparator p.1).map Prod.fst := by
  induction spelt with
  | nil => rfl
  | separator separator _ ih => rw [ih, List.filter_cons_of_neg (by simp [separator])]
  | punctuation punctuation text _ _ ih =>
      rw [List.flatMap_cons, ih, List.filter_cons_of_pos (by simp [not_isSeparator punctuation]), text,
        String.toList_ofList]
      rfl
  | @lexeme run rest a atoms _ all _ text _ _ ih =>
      have kept : run.filter (fun p => p.2 || !isSeparator p.1) = run := by
        refine List.filter_eq_self.mpr fun p member => ?_
        rcases (joins_iff p).mp (all p member) with literal | ⟨notSeparator, -⟩
        · rw [literal, Bool.true_or]
        · rw [notSeparator, Bool.not_false, Bool.or_true]
      rw [List.flatMap_cons, ih, List.filter_append, List.map_append, kept, ← text, map_fst_marked]

theorem punctuations (spelt : Spells chars atoms) :
    (atoms.filter fun a => a.kind = .punct).map (fun a => a.text.toList) =
      (chars.filter fun p => !p.2 && isPunctuation p.1).map fun p => [p.1] := by
  induction spelt with
  | nil => rfl
  | separator separator _ ih =>
      rw [ih, List.filter_cons_of_neg (by simp [not_isPunctuation separator])]
  | punctuation punctuation text kind _ ih =>
      rw [List.filter_cons_of_pos (by simpa using kind), List.map_cons, ih,
        List.filter_cons_of_pos (by simpa using punctuation), List.map_cons, text, String.toList_ofList]
  | @lexeme run rest a atoms _ all _ _ kind _ ih =>
      have lost : run.filter (fun p => !p.2 && isPunctuation p.1) = [] := by
        refine List.filter_eq_nil_iff.mpr fun p member => ?_
        rcases (joins_iff p).mp (all p member) with literal | ⟨-, notPunctuation⟩
        · simp [literal]
        · simp [notPunctuation]
      have other : a.kind ≠ .punct := kind ▸ Scanner.kindOf_ne_punct _
      rw [List.filter_cons_of_neg (by simpa using other), ih, List.filter_append, lost, List.nil_append]

/-- Every atom is a character of punctuation, or a text of its own that can be one atom. -/
theorem atom_cases (spelt : Spells chars atoms) {a : Atom} (member : a ∈ atoms) :
    (a.kind = .punct ∧ ∃ c, isPunctuation c = true ∧ a.text = String.ofList [c]) ∨
      (a.kind = Scanner.kindOf a.text.toList ∧ a.text ≠ "" ∧
        ∀ p ∈ marked a.text.toList, joins p = true) := by
  induction spelt with
  | nil => cases member
  | separator _ _ ih => exact ih member
  | punctuation punctuation text kind _ ih =>
      rcases List.mem_cons.mp member with rfl | later
      · exact Or.inl ⟨kind, _, punctuation, text⟩
      · exact ih later
  | lexeme nonempty all _ text kind _ ih =>
      rcases List.mem_cons.mp member with rfl | later
      · refine Or.inr ⟨kind, ?_, text ▸ all⟩
        rintro empty
        rw [empty] at text
        exact nonempty text.symm
      · exact ih later

theorem single (spelt : Spells chars atoms) {a : Atom} (member : a ∈ atoms) :
    Spells (marked a.text.toList) [a] := by
  rcases spelt.atom_cases member with ⟨kind, c, punctuation, text⟩ | ⟨kind, filled, all⟩
  · rw [text, String.toList_ofList, marked_singleton punctuation]
    exact .punctuation punctuation text kind .nil
  · rw [← List.append_nil (marked _)]
    refine .lexeme (marked_ne_nil ?_) all (by simp) rfl kind .nil
    rwa [Ne, String.toList_eq_nil_iff]

theorem of_nil (spelt : Spells [] atoms) : atoms = [] := by
  generalize none : ([] : List (Char × Bool)) = chars at spelt
  cases spelt with
  | nil => rfl
  | separator _ _ => cases none
  | punctuation _ _ _ _ => cases none
  | lexeme nonempty _ _ _ _ _ => exact absurd (List.append_eq_nil_iff.mp none.symm).1 nonempty

theorem ne_of_not_joins {p : Char × Bool} {run rest chars : List (Char × Bool)}
    (ends : joins p = false) (nonempty : run ≠ []) (all : ∀ q ∈ run, joins q = true) :
    p :: chars ≠ run ++ rest := by
  cases run with
  | nil => exact absurd rfl nonempty
  | cons q run =>
      intro same
      obtain rfl := (List.cons.inj same).1
      rw [all p List.mem_cons_self] at ends
      cases ends

theorem of_separator {c : Char} (separator : isSeparator c = true)
    (spelt : Spells ((c, false) :: chars) atoms) : Spells chars atoms := by
  generalize first : (c, false) :: chars = all at spelt
  cases spelt with
  | nil => cases first
  | separator _ rest =>
      cases first
      exact rest
  | punctuation punctuation _ _ _ =>
      cases first
      rw [not_isPunctuation separator] at punctuation
      cases punctuation
  | lexeme nonempty all _ _ _ _ =>
      have ends : joins (c, false) = false := by simp [joins, separator]
      exact absurd first (ne_of_not_joins ends nonempty all)

theorem of_punctuation {c : Char} (punctuation : isPunctuation c = true)
    (spelt : Spells ((c, false) :: chars) atoms) :
    ∃ a rest, atoms = a :: rest ∧ a.text = String.ofList [c] ∧ a.kind = .punct ∧ Spells chars rest := by
  generalize first : (c, false) :: chars = all at spelt
  cases spelt with
  | nil => cases first
  | separator separator _ =>
      cases first
      rw [not_isPunctuation separator] at punctuation
      cases punctuation
  | punctuation _ text kind rest =>
      cases first
      exact ⟨_, _, rfl, text, kind, rest⟩
  | lexeme nonempty all _ _ _ _ =>
      have ends : joins (c, false) = false := by simp [joins, punctuation]
      exact absurd first (ne_of_not_joins ends nonempty all)

/-- A run up to a character that does not join is found again. -/
theorem run_unique {run run' rest rest' : List (Char × Bool)} (same : run ++ rest = run' ++ rest')
    (all : ∀ p ∈ run, joins p = true) (all' : ∀ p ∈ run', joins p = true)
    (stop : ∀ p ∈ rest.head?, joins p = false) (stop' : ∀ p ∈ rest'.head?, joins p = false) :
    run = run' ∧ rest = rest' := by
  induction run generalizing run' with
  | nil =>
      cases run' with
      | nil => exact ⟨rfl, same⟩
      | cons q run' =>
          have ends := stop q (by rw [show rest = q :: (run' ++ rest') from same]; rfl)
          rw [all' q List.mem_cons_self] at ends
          cases ends
  | cons p run ih =>
      cases run' with
      | nil =>
          have ends := stop' p (by rw [show rest' = p :: (run ++ rest) from same.symm]; rfl)
          rw [all p List.mem_cons_self] at ends
          cases ends
      | cons q run' =>
          obtain ⟨rfl, later⟩ := List.cons.inj same
          obtain ⟨rfl, rfl⟩ := ih later (fun q member => all q (List.mem_cons_of_mem _ member))
            fun q member => all' q (List.mem_cons_of_mem _ member)
          exact ⟨rfl, rfl⟩

theorem of_lexeme {run rest : List (Char × Bool)} (nonempty : run ≠ [])
    (all : ∀ p ∈ run, joins p = true) (stop : ∀ p ∈ rest.head?, joins p = false)
    (spelt : Spells (run ++ rest) atoms) :
    ∃ a more, atoms = a :: more ∧ marked a.text.toList = run ∧
      a.kind = Scanner.kindOf a.text.toList ∧ Spells rest more := by
  generalize whole : run ++ rest = chars at spelt
  cases spelt with
  | nil => exact absurd (List.append_eq_nil_iff.mp whole).1 nonempty
  | separator separator _ =>
      exact absurd whole.symm (ne_of_not_joins (by simp [joins, separator]) nonempty all)
  | punctuation punctuation _ _ _ =>
      exact absurd whole.symm (ne_of_not_joins (by simp [joins, punctuation]) nonempty all)
  | lexeme _ all' stop' text kind more =>
      obtain ⟨rfl, rfl⟩ := run_unique whole all all' stop stop'
      exact ⟨_, _, rfl, text, kind, more⟩

/-- What characters spell is one list of texts and kinds. -/
theorem unique {atoms' : List Atom} (spelt : Spells chars atoms) (spelt' : Spells chars atoms') :
    atoms.map (fun a => (a.text, a.kind)) = atoms'.map fun a => (a.text, a.kind) := by
  induction spelt generalizing atoms' with
  | nil => rw [spelt'.of_nil]
  | separator separator _ ih => exact ih (spelt'.of_separator separator)
  | punctuation punctuation text kind _ ih =>
      obtain ⟨a, rest, rfl, text', kind', more⟩ := spelt'.of_punctuation punctuation
      rw [List.map_cons, List.map_cons, ih more, text, text', kind, kind']
  | lexeme nonempty all stop text kind _ ih =>
      obtain ⟨a, rest, rfl, text', kind', more⟩ := spelt'.of_lexeme nonempty all stop
      have same := String.toList_inj.mp (marked_inj (text.trans text'.symm))
      rw [List.map_cons, List.map_cons, ih more, kind, kind', same]

theorem map {f : Atom → Atom} (spelt : Spells chars atoms)
    (keeps : ∀ a, (f a).text = a.text ∧ (f a).kind = a.kind) : Spells chars (atoms.map f) := by
  induction spelt with
  | nil => exact .nil
  | separator separator _ ih => exact .separator separator ih
  | punctuation punctuation text kind _ ih =>
      exact .punctuation punctuation ((keeps _).1.trans text) ((keeps _).2.trans kind) ih
  | lexeme nonempty all stop text kind _ ih =>
      refine .lexeme nonempty all stop ?_ ?_ ih
      · rw [(keeps _).1, text]
      · rw [(keeps _).1, (keeps _).2, kind]

end Spells

theorem lex_single_spells (file : String) {line : Bytes} (code : isComment (Utf8.decode line) = false) :
    Spells (marked (terminated (Utf8.decode line))) (lex file [line]) := by
  rw [lex_eq, atomsFrom, atomsFrom, List.append_nil]
  exact (atomsOf_spells code).1.spells.map fun a => ⟨rfl, rfl⟩

theorem lex_single_of_isComment (file : String) {line : Bytes}
    (comment : isComment (Utf8.decode line) = true) : lex file [line] = [] := by
  rw [lex_eq, atomsFrom, atomsFrom, List.append_nil, atomsOf_of_isComment comment]
  rfl

/-- The atoms of a line that is no comment are numbered by what it spells. -/
theorem atLine_lex_spellsFrom (file : String) {lines : List Bytes} {k : Nat} {line : Bytes}
    (there : lines[k]? = some line) (code : isComment (Utf8.decode line) = false) :
    ∃ stmt, SpellsFrom stmt (marked (terminated (Utf8.decode line))) (atLine (k + 1) (lex file lines)) := by
  obtain ⟨before, found⟩ := atLine_atomsFrom file 0 0 there
  rw [lex_eq, ← Int.zero_add (k : Int), found]
  exact ⟨_, (atomsOf_spells code).1.moved file (0 + k) before⟩

/-- The atoms that carry the number of a line that is no comment are those it spells. -/
theorem atLine_lex_spells (file : String) {lines : List Bytes} {k : Nat} {line : Bytes}
    (there : lines[k]? = some line) (code : isComment (Utf8.decode line) = false) :
    Spells (marked (terminated (Utf8.decode line))) (atLine (k + 1) (lex file lines)) := by
  obtain ⟨stmt, spelt⟩ := atLine_lex_spellsFrom file there code
  exact spelt.spells

theorem atLine_lex_of_isComment (file : String) {lines : List Bytes} {k : Nat} {line : Bytes}
    (there : lines[k]? = some line) (comment : isComment (Utf8.decode line) = true) :
    atLine (k + 1) (lex file lines) = [] := by
  obtain ⟨before, found⟩ := atLine_atomsFrom file 0 0 there
  rw [lex_eq, ← Int.zero_add (k : Int), found, atomsOf_of_isComment comment]
  rfl

theorem lex_eq_flatMap (file : String) (lines : List Bytes) :
    lex file lines = (List.range lines.length).flatMap fun (k : Nat) =>
      atLine (k + 1) (lex file lines) := by
  have parts := atomsFrom_eq_flatMap file 0 0 lines
  simp only [Int.zero_add] at parts
  rw [lex_eq]
  exact parts

theorem exists_spells_of_mem_lex {file : String} {lines : List Bytes} {a : Atom}
    (member : a ∈ lex file lines) :
    ∃ line ∈ lines, ∃ atoms, Spells (marked (terminated (Utf8.decode line))) atoms ∧ a ∈ atoms := by
  rw [lex_eq_flatMap] at member
  obtain ⟨k, inside, here⟩ := List.mem_flatMap.mp member
  have there := List.getElem?_eq_getElem (List.mem_range.mp inside)
  refine ⟨_, List.getElem_mem (List.mem_range.mp inside), _, ?_, here⟩
  cases comment : isComment (Utf8.decode _) with
  | true =>
      rw [atLine_lex_of_isComment file there comment] at here
      cases here
  | false => exact atLine_lex_spells file there comment

/-- Every atom of the lexer is a character of punctuation, or a text that can be one atom. -/
theorem atom_cases_of_mem_lex {file : String} {lines : List Bytes} {a : Atom}
    (member : a ∈ lex file lines) :
    (a.kind = .punct ∧ ∃ c, isPunctuation c = true ∧ a.text = String.ofList [c]) ∨
      (a.kind = Scanner.kindOf a.text.toList ∧ a.text ≠ "" ∧
        ∀ p ∈ marked a.text.toList, joins p = true) := by
  obtain ⟨line, -, atoms, spelt, here⟩ := exists_spells_of_mem_lex member
  exact spelt.atom_cases here

/-- The atoms are all that the characters of a line come to. -/
structure IsReading (line : List Char) (atoms : List Atom) : Prop where
  /-- Nothing is lost, added or moved but for the separators outside literals. -/
  texts : atoms.flatMap (fun a => a.text.toList) =
    ((marked line).filter fun p => p.2 || !isSeparator p.1).map Prod.fst
  nonempty : ∀ a ∈ atoms, a.text ≠ ""
  punctuation : (atoms.filter fun a => a.kind = .punct).map (fun a => a.text.toList) =
    ((marked line).filter fun p => !p.2 && isPunctuation p.1).map fun p => [p.1]
  /-- What else ends an atom stands in literals only. -/
  inside : ∀ a ∈ atoms, a.kind ≠ .punct → ∀ p ∈ marked a.text.toList, p.2 = false →
    isSeparator p.1 = false ∧ isPunctuation p.1 = false
  literal : ∀ a ∈ atoms, a.kind = .string ↔ a.text.toList.head? = some '"' ∧ a.kind ≠ .punct
  /-- No atom could be longer. -/
  spelt : Spells (marked line) atoms

theorem Spells.isReading {line : List Char} {atoms : List Atom} (spelt : Spells (marked line) atoms) :
    IsReading line atoms where
  texts := spelt.texts
  nonempty := by
    intro a member
    rcases spelt.atom_cases member with ⟨-, c, -, text⟩ | ⟨-, nonempty, -⟩
    · rw [text]
      simp
    · exact nonempty
  punctuation := spelt.punctuations
  inside := by
    intro a member other p marks outside
    rcases spelt.atom_cases member with ⟨punct, -⟩ | ⟨-, -, all⟩
    · exact absurd punct other
    · rcases (joins_iff p).mp (all p marks) with literal | free
      · rw [outside] at literal
        cases literal
      · exact free
  literal := by
    intro a member
    rcases spelt.atom_cases member with ⟨punct, -⟩ | ⟨kind, -, -⟩
    · rw [punct]
      simp
    · rw [kind, Scanner.kindOf]
      split
      · rename_i quote
        simp [quote]
      · rename_i other
        simp [other]
  spelt := spelt

/-- The lexer loses, adds and reorders nothing. The atoms of a file are those of its lines, one line after
the other. A comment has none; those of any other line are all that its characters come to, with a `;` at
the end and with what cannot be decoded replaced. -/
theorem lines_read_whole (file : String) (lines : List Bytes) :
    (lex file lines = (List.range lines.length).flatMap fun (k : Nat) =>
      atLine (k + 1) (lex file lines)) ∧
    ∀ (k : Nat) (line : Bytes), lines[k]? = some line →
      (isComment (Utf8.decode line) = true → atLine (k + 1) (lex file lines) = []) ∧
      (isComment (Utf8.decode line) = false →
        IsReading (terminated (Utf8.decode line)) (atLine (k + 1) (lex file lines))) := by
  refine ⟨lex_eq_flatMap file lines, fun k line there => ⟨?_, ?_⟩⟩
  · exact atLine_lex_of_isComment file there
  · exact fun code => (atLine_lex_spells file there code).isReading

/-- A comment; a line with an escaped quote and a `;` inside a literal, and a word that runs into a
literal which the line leaves open; a byte that is no text. -/
theorem lines_read_whole_quoted :
    let lines : List Bytes :=
      [Utf8.encode "\t// say(\"x\")", Utf8.encode "say(\"a\\\"; b\", c\"d", [0xFF, 0x20, 0x5D]]
    let atoms := lex "a.dawn" lines
    atoms.map (fun a => (a.text, a.kind, a.line)) =
      [("say", .word, 2), ("\"a\\\"; b\"", .string, 2), (",", .punct, 2), ("c\"d;", .word, 2),
        ("\uFFFD", .word, 3), ("]", .punct, 3)] ∧
    atLine 1 atoms = [] ∧ IsReading "say(\"a\\\"; b\", c\"d;".toList (atLine 2 atoms) ∧
    IsReading "\uFFFD ];".toList (atLine 3 atoms) := by
  intro lines atoms
  have read := (lines_read_whole "a.dawn" lines).2
  exact ⟨by decide, (read 0 _ rfl).1 (by decide), (read 1 _ rfl).2 (by decide), (read 2 _ rfl).2 (by decide)⟩

end DawnC
