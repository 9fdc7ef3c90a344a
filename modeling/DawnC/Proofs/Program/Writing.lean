import DawnC.Proofs.Program.Tree

set_option autoImplicit false

namespace DawnC

def isWordChar (c : Char) : Bool := c.isAlpha || c.isDigit || c = '_' || c = '-'

def isWordText (text : String) : Bool := !text.toList.isEmpty && text.toList.all isWordChar

theorem isWordChar_plain {c : Char} (plain : isWordChar c = true) :
    c ∉ [';', ' ', '\t', '\r', '(', '\x7b', ',', ')', '\x7d', '[', ']', '"', '/'] := by
  intro member
  simp only [List.mem_cons, List.not_mem_nil, or_false] at member
  rcases member with rfl | rfl | rfl | rfl | rfl | rfl | rfl | rfl | rfl | rfl | rfl | rfl | rfl <;>
    exact absurd plain (by decide)

theorem isWordText_of_isIdentifier {text : String} (identifier : isIdentifier text = true) :
    isWordText text = true := by
  have start {c : Char} (isStart : isIdentifier.isStart c = true) : isWordChar c = true := by
    simp only [isIdentifier.isStart, Bool.or_eq_true, decide_eq_true_eq] at isStart
    rcases isStart with rfl | alpha
    · decide
    · simp [isWordChar, alpha]
  simp only [isIdentifier] at identifier
  split at identifier
  · cases identifier
  · rename_i c rest chars
    simp only [Bool.and_eq_true, List.all_eq_true, Bool.or_eq_true] at identifier
    simp only [isWordText, chars, List.isEmpty_cons, Bool.not_false, Bool.true_and, List.all_cons,
      start identifier.1, List.all_eq_true]
    intro d member
    rcases identifier.2 d member with isStart | digit
    · exact start isStart
    · simp [isWordChar, digit]

theorem isWordText_of_isInteger {text : String} (integer : isInteger text = true) :
    isWordText text = true := by
  have digits {chars : List Char} (all : chars.all Char.isDigit = true) :
      chars.all isWordChar = true := by
    rw [List.all_eq_true] at all ⊢
    intro c member
    simp [isWordChar, all c member]
  simp only [isInteger] at integer
  split at integer
  · cases integer
  · rename_i c rest chars
    have dash : isWordChar '-' = true := by decide
    simp only [isWordText, chars, List.isEmpty_cons, Bool.not_false, Bool.true_and, List.all_cons,
      dash]
    exact digits integer
  · rename_i nonempty _
    have filled : text.toList.isEmpty = false := by
      rw [List.isEmpty_eq_false_iff]
      exact nonempty
    rw [isWordText, filled, Bool.not_false, Bool.true_and]
    exact digits integer

theorem isRunFrom_of_all {text : List Char} (plain : text.all isWordChar = true) :
    isRunFrom .plain text = true := by
  induction text with
  | nil => rfl
  | cons c rest ih =>
      rw [List.all_cons, Bool.and_eq_true] at plain
      have other := isWordChar_plain plain.1
      simp only [List.mem_cons, List.not_mem_nil, or_false, not_or] at other
      simp [isRunFrom, isSeparator, isPunctuation, other, ih plain.2]

theorem isRun_of_isWordText {text : String} (word : isWordText text = true) : isRun text = true := by
  rw [isWordText, Bool.and_eq_true] at word
  rw [isRun, word.1, isRunFrom_of_all word.2, Bool.and_self]

/-- A name or a number is a word, and no comment starts with it. -/
theorem head?_of_isWordText {text : String} (word : isWordText text = true) :
    ∃ c rest, text.toList = c :: rest ∧ isWordChar c = true := by
  rw [isWordText, Bool.and_eq_true] at word
  cases chars : text.toList with
  | nil => simp [chars] at word
  | cons c rest =>
      rw [chars, List.all_cons, Bool.and_eq_true] at word
      exact ⟨c, rest, rfl, word.2.1⟩

theorem kindOf_of_isWordText {text : String} (word : isWordText text = true) :
    Scanner.kindOf text.toList = .word := by
  obtain ⟨c, rest, chars, plain⟩ := head?_of_isWordText word
  have other := isWordChar_plain plain
  have notQuote : c ≠ '"' := by
    rintro rfl
    exact other (by decide)
  simp [Scanner.kindOf, chars, notQuote]

theorem Name.isWordText (name : Name) : isWordText name.text = true :=
  isWordText_of_isIdentifier name.isIdentifier

theorem Bound.isWordText (bound : Bound) : isWordText bound.text = true := by
  cases bound with
  | literal text isInteger => exact isWordText_of_isInteger isInteger
  | name name => exact name.isWordText

def isLaidOut (pieces : List Piece) : Bool := pieces.all Piece.isValid && separated pieces

@[simp] theorem isLaidOut_nil : isLaidOut [] = true := rfl

@[simp] theorem isLaidOut_mark (c : Char) (rest : List Piece) :
    isLaidOut (.mark c :: rest) = ((Piece.mark c).isValid && isLaidOut rest) := by
  simp [isLaidOut, separated, Bool.and_assoc]

@[simp] theorem isLaidOut_run (text : String) : isLaidOut [.run text] = isRun text := by
  simp [isLaidOut, separated, Piece.isValid]

@[simp] theorem isLaidOut_run_mark (text : String) (c : Char) (rest : List Piece) :
    isLaidOut (.run text :: .mark c :: rest) =
      (isRun text && ((Piece.mark c).isValid && isLaidOut rest)) := by
  simp [isLaidOut, separated, Piece.isValid, Piece.isMark, Bool.and_assoc]

@[simp] theorem isLaidOut_append_mark (first : List Piece) (c : Char) (rest : List Piece) :
    isLaidOut (first ++ .mark c :: rest) =
      (isLaidOut first && ((Piece.mark c).isValid && isLaidOut rest)) := by
  induction first with
  | nil => simp
  | cons piece first ih =>
      cases piece with
      | mark d => rw [List.cons_append, isLaidOut_mark, isLaidOut_mark, ih, Bool.and_assoc]
      | run text =>
          cases first with
          | nil => simp
          | cons next first =>
              cases next with
              | mark d =>
                  simp only [List.cons_append, isLaidOut_mark] at ih
                  simp only [List.cons_append, isLaidOut_run_mark, ih, Bool.and_assoc]
              | run other => simp [isLaidOut, separated, Piece.isMark]

theorem isLaidOut_tokens {stops : List Char} {tokens : List Piece}
    (valid : tokens.all (isToken stops) = true) :
    isLaidOut (tokens.intersperse (.mark ' ')) = true := by
  have single {token : Piece} (here : isToken stops token = true) : isLaidOut [token] = true := by
    cases token with
    | run text =>
        rw [isToken, Bool.and_eq_true] at here
        rw [isLaidOut_run, here.1]
    | mark c =>
        rw [isToken, Bool.and_eq_true] at here
        simp [Piece.isValid, here.1]
  have blank : (Piece.mark ' ').isValid = true := by decide
  induction tokens with
  | nil => rfl
  | cons token rest ih =>
      rw [List.all_cons, Bool.and_eq_true] at valid
      cases rest with
      | nil => exact single valid.1
      | cons next rest =>
          rw [List.intersperse_cons_cons]
          refine (isLaidOut_append_mark [token] ' ' _).trans ?_
          rw [single valid.1, blank, ih valid.2, Bool.and_self, Bool.and_self]

@[simp] theorem Phrase.isLaidOut_pieces {stops : List Char} (phrase : Phrase stops) :
    isLaidOut phrase.pieces = true := isLaidOut_tokens phrase.valid

@[simp] theorem Name.isRun (name : Name) : isRun name.text = true :=
  isRun_of_isWordText name.isWordText

@[simp] theorem Bound.isRun (bound : Bound) : isRun bound.text = true :=
  isRun_of_isWordText bound.isWordText

@[simp] theorem Parameter.isLaidOut_pieces (parameter : Parameter) :
    isLaidOut parameter.pieces = true := by
  have type : DawnC.isRun parameter.cls.name = true := by
    unfold Parameter.cls
    split <;> decide
  have blank : (Piece.mark ' ').isValid = true := by decide
  simp [Parameter.pieces, type, blank]

theorem isLaidOut_commaSeparated {parts : List (List Piece)}
    (laidOut : ∀ part ∈ parts, isLaidOut part = true) :
    isLaidOut (commaSeparated parts) = true := by
  have marks : (Piece.mark ',').isValid = true ∧ (Piece.mark ' ').isValid = true := by decide
  unfold commaSeparated
  induction parts with
  | nil => rfl
  | cons part rest ih =>
      have here := laidOut part List.mem_cons_self
      cases rest with
      | nil => simpa using here
      | cons next rest =>
          have later := ih fun part member => laidOut part (List.mem_cons_of_mem _ member)
          rw [List.intercalate_cons_cons, List.append_assoc, List.cons_append,
            isLaidOut_append_mark, List.singleton_append, isLaidOut_mark, here, marks.1, marks.2,
            later]
          rfl

/-- A line that starts with something other than a blank or a slash is no comment. -/
theorem isLine_of_run {text : String} {rest : List Piece}
    (laidOut : isLaidOut (.run text :: rest) = true)
    (first : (text.toList.head?.any fun c => c ≠ ' ' && c ≠ '\t' && c ≠ '/') = true) :
    isLine (.run text :: rest) = true := by
  rw [isLaidOut] at laidOut
  rw [isLine, laidOut, Bool.true_and, spell, List.flatMap_cons, Piece.chars, List.head?_append]
  cases head : text.toList.head? with
  | none => simp [head] at first
  | some c =>
      rw [head] at first
      exact first

theorem isLine_of_word {text : String} {rest : List Piece}
    (laidOut : isLaidOut (.run text :: rest) = true) (word : isWordText text = true) :
    isLine (.run text :: rest) = true := by
  obtain ⟨c, tail, chars, plain⟩ := head?_of_isWordText word
  have other := isWordChar_plain plain
  simp only [List.mem_cons, List.not_mem_nil, or_false, not_or] at other
  refine isLine_of_run laidOut ?_
  simp [chars, other]

theorem Simple.isLine_source (statement : Simple) : isLine statement.source = true := by
  cases statement with
  | print printer argument =>
      cases printer <;>
      · refine isLine_of_word ?_ (by decide)
        simp only [isLaidOut_run_mark, isLaidOut_append_mark, Phrase.isLaidOut_pieces, isLaidOut_nil]
        decide
  | printElement list position =>
      refine isLine_of_word ?_ (by decide)
      simp only [isLaidOut_run_mark, isLaidOut_mark, isLaidOut_append_mark, Phrase.isLaidOut_pieces,
        Name.isRun, isLaidOut_nil]
      decide
  | declare type name value =>
      cases type <;>
      · refine isLine_of_word ?_ (by decide)
        simp only [isLaidOut_run_mark, Phrase.isLaidOut_pieces, Name.isRun]
        decide
  | declareList name elements =>
      refine isLine_of_run ?_ (by decide)
      have parts : isLaidOut (commaSeparated (elements.map Phrase.pieces)) = true := by
        refine isLaidOut_commaSeparated fun part member => ?_
        obtain ⟨element, -, rfl⟩ := List.mem_map.mp member
        exact element.isLaidOut_pieces
      simp only [isLaidOut_run_mark, isLaidOut_mark, isLaidOut_append_mark, Name.isRun, parts,
        isLaidOut_nil]
      decide
  | assign name value =>
      refine isLine_of_word ?_ name.isWordText
      simp only [isLaidOut_run_mark, Phrase.isLaidOut_pieces, Name.isRun]
      decide
  | call function arguments =>
      refine isLine_of_word ?_ function.isWordText
      have parts : isLaidOut (commaSeparated (arguments.map Phrase.pieces)) = true := by
        refine isLaidOut_commaSeparated fun part member => ?_
        obtain ⟨argument, -, rfl⟩ := List.mem_map.mp member
        exact argument.isLaidOut_pieces
      simp only [isLaidOut_run_mark, isLaidOut_append_mark, Name.isRun, parts, isLaidOut_nil]
      decide

theorem isLine_loopHead (index : Name) (low high : Bound) (braced : Bool) :
    isLine (loopHead index low high braced) = true := by
  cases braced with
  | false =>
      simp only [loopHead, Bool.false_eq_true, if_false, List.append_nil]
      refine isLine_of_word ?_ (by decide)
      simp only [isLaidOut_run_mark, isLaidOut_run, Name.isRun, Bound.isRun]
      decide
  | true =>
      simp only [loopHead, if_true, List.nil_append, List.cons_append]
      refine isLine_of_word ?_ (by decide)
      simp only [isLaidOut_run_mark, isLaidOut_mark, Name.isRun, Bound.isRun, isLaidOut_nil]
      decide

theorem isLaidOut_ifHead (condition : Expression) : isLaidOut (ifHead condition) = true := by
  simp only [ifHead, isLaidOut_run_mark, isLaidOut_append_mark, isLaidOut_mark,
    Phrase.isLaidOut_pieces, isLaidOut_nil]
  decide

theorem isLine_elseIf (condition : Expression) :
    isLine (.run "else" :: .mark ' ' :: ifHead condition) = true := by
  refine isLine_of_word ?_ (by decide)
  simp only [isLaidOut_run_mark, isLaidOut_ifHead]
  decide

theorem isLine_functionHead {name : String} (word : isWordText name = true)
    (parameters : List Parameter) : isLine (functionHead name parameters) = true := by
  refine isLine_of_word ?_ (by decide)
  have parts : isLaidOut (commaSeparated (parameters.map Parameter.pieces)) = true := by
    refine isLaidOut_commaSeparated fun part member => ?_
    obtain ⟨parameter, -, rfl⟩ := List.mem_map.mp member
    exact parameter.isLaidOut_pieces
  simp only [isLaidOut_run_mark, isLaidOut_append_mark, isLaidOut_mark, parts,
    isRun_of_isWordText word, isLaidOut_nil]
  decide

inductive StatementLine : List Piece → Prop where
  | simple (statement : Simple) : StatementLine statement.source
  | loopHead (index : Name) (low high : Bound) (braced : Bool) :
      StatementLine (loopHead index low high braced)
  | loopEnd (braced : Bool) : StatementLine (loopEnd braced)
  | ifHead (condition : Expression) : StatementLine (ifHead condition)
  | elseIf (condition : Expression) : StatementLine (.run "else" :: .mark ' ' :: ifHead condition)
  | otherwise : StatementLine [.run "else", .mark ' ', .mark '\x7b']
  | closing : StatementLine [.mark '\x7d']

theorem StatementLine.isLine {pieces : List Piece} (line : StatementLine pieces) :
    isLine pieces = true := by
  cases line with
  | simple statement => exact statement.isLine_source
  | loopHead index low high braced => exact isLine_loopHead index low high braced
  | loopEnd braced => cases braced <;> decide
  | ifHead condition => exact isLine_of_word (isLaidOut_ifHead condition) (by decide)
  | elseIf condition => exact isLine_elseIf condition
  | otherwise => decide
  | closing => decide

mutual

theorem Statement.line_of_mem (statement : Statement) :
    ∀ pieces ∈ statement.source, StatementLine pieces := by
  cases statement with
  | simple statement =>
      simp only [Statement.source, List.forall_mem_singleton]
      exact .simple statement
  | loop index low high braced body =>
      simp only [Statement.source, List.forall_mem_cons, List.forall_mem_append]
      exact ⟨.loopHead index low high braced, body.line_of_mem, .loopEnd braced,
        List.forall_mem_nil _⟩
  | conditional condition body rest =>
      simp only [Statement.source, List.forall_mem_cons, List.forall_mem_append]
      exact ⟨.ifHead condition, body.line_of_mem, .closing, rest.line_of_mem⟩

theorem Body.line_of_mem (body : Body) : ∀ pieces ∈ body.source, StatementLine pieces := by
  cases body with
  | done => exact fun pieces member => absurd member List.not_mem_nil
  | next first rest =>
      simp only [Body.source, List.forall_mem_append]
      exact ⟨first.line_of_mem, rest.line_of_mem⟩

theorem Alternative.line_of_mem (alternative : Alternative) :
    ∀ pieces ∈ alternative.source, StatementLine pieces := by
  cases alternative with
  | none => exact fun pieces member => absurd member List.not_mem_nil
  | elseIf condition body rest =>
      simp only [Alternative.source, List.forall_mem_cons, List.forall_mem_append]
      exact ⟨.elseIf condition, body.line_of_mem, .closing, rest.line_of_mem⟩
  | otherwise body =>
      simp only [Alternative.source, List.forall_mem_cons, List.forall_mem_append]
      exact ⟨.otherwise, body.line_of_mem, .closing, List.forall_mem_nil _⟩

end

theorem Body.line_of_mem_block (body : Body) :
    ∀ pieces ∈ body.source ++ [[.mark '\x7d']], StatementLine pieces := by
  simp only [List.forall_mem_append, List.forall_mem_singleton]
  exact ⟨body.line_of_mem, .closing⟩

/-- What a program is written as is read as it is meant. -/
theorem Tree.isLine_source (program : Tree) : ∀ pieces ∈ program.source, isLine pieces = true := by
  intro pieces member
  obtain ⟨item, -, inside⟩ := List.mem_flatMap.mp member
  cases item with
  | statement statement => exact (statement.line_of_mem pieces inside).isLine
  | main body =>
      rcases List.mem_cons.mp inside with rfl | inside
      · exact isLine_functionHead (by decide) []
      · exact (body.line_of_mem_block pieces inside).isLine
  | function name notMain parameters body =>
      rcases List.mem_cons.mp inside with rfl | inside
      · exact isLine_functionHead name.isWordText parameters
      · exact (body.line_of_mem_block pieces inside).isLine

end DawnC
