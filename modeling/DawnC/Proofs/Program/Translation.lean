import DawnC.Proofs.Program.Constructs
import DawnC.Proofs.Run

set_option autoImplicit false

namespace DawnC

open Cursor

/-- The translator is about to read `lines`, and knows these names. -/
structure Stands (file : String) (atoms : List Atom) (c : Cursor) (lines : List (List Piece))
    (known : Declarations) : Prop where
  here : ∃ line stmt, atoms.drop c.index = lineAtoms file line stmt lines
  knows : c.state.symbols.Knows known

/-- From one cursor to another the translator emits these lines and prototypes, and leaves these
blocks open. -/
structure Yields (atoms : List Atom) (c d : Cursor) (emitted prototypes : List String)
    (blocks : List Block) : Prop where
  runs : Runs atoms c d
  lines : d.state.lines = c.state.lines ++ emitted
  prototypes : d.state.prototypes = c.state.prototypes ++ prototypes
  blocks : d.state.blocks = blocks

variable {file : String} {atoms : List Atom} {c d e : Cursor} {later : List (List Piece)}
  {known : Declarations} {classes : String → SymbolClass}

theorem Yields.refl (c : Cursor) : Yields atoms c c [] [] c.state.blocks :=
  ⟨.refl, by rw [List.append_nil], by rw [List.append_nil], rfl⟩

theorem Yields.trans {emitted emitted' prototypes prototypes' : List String}
    {blocks blocks' : List Block} (first : Yields atoms c d emitted prototypes blocks)
    (second : Yields atoms d e emitted' prototypes' blocks') :
    Yields atoms c e (emitted ++ emitted') (prototypes ++ prototypes') blocks' := by
  refine ⟨first.runs.trans second.runs, ?_, ?_, second.blocks⟩
  · rw [second.lines, first.lines, List.append_assoc]
  · rw [second.prototypes, first.prototypes, List.append_assoc]

/-- The atoms of a line, and after them atoms of later statements. -/
theorem Stands.line {pieces : List Piece} (stands : Stands file atoms c (pieces :: later) known) :
    ∃ line stmt rest, atoms.drop c.index = pieceAtoms file line stmt pieces ++ rest ∧
      (∀ b ∈ rest, stmt < b.stmt) ∧ ∃ line' stmt', rest = lineAtoms file line' stmt' later := by
  obtain ⟨line, stmt, here⟩ := stands.here
  refine ⟨line, stmt, _, here, fun b member => ?_, line + 1, stmtAfter stmt pieces + 2, rfl⟩
  have grows := le_stmtAfter stmt pieces
  have bound := le_stmt_of_mem_lineAtoms member
  omega

theorem step {a : Atom} (front : List Atom) {rest : List Atom} {t : Translator}
    (here : atoms.drop c.index = a :: (front ++ rest))
    (effect : Translator.Effect c.state (before atoms c.index) c.index a (front ++ rest)
      (front.length + 1) t) :
    Runs atoms c ⟨c.index + (front.length + 1), t⟩ ∧
      atoms.drop (c.index + (front.length + 1)) = rest := by
  refine ⟨.single ⟨a, _, _, here, rfl, effect⟩, ?_⟩
  rw [← List.drop_drop, here, List.drop_succ_cons, List.drop_left]

theorem Simple.yields (statement : Simple)
    (stands : Stands file atoms c (statement.source :: later) known)
    (agrees : Agrees classes (known ++ statement.declared))
    (isScoped : statement.isScoped known = true) :
    ∃ d, Yields atoms c d [statement.emitted] [] c.state.blocks ∧
      Stands file atoms d later (known ++ statement.declared) := by
  obtain ⟨line, stmt, rest, here, apart, line', stmt', left⟩ := stands.line
  obtain ⟨symbols, knows, effect⟩ := statement.effect stands.knows agrees isScoped apart
  rw [statement.pieceAtoms_source] at here
  obtain ⟨runs, past⟩ := step _ here effect
  exact ⟨_, ⟨runs, rfl, (List.append_nil _).symm, rfl⟩, ⟨line', stmt', past.trans left⟩, knows⟩

theorem loopHead_yields (index : Name) {low high : Bound} {braced : Bool}
    (stands : Stands file atoms c (loopHead index low high braced :: later) known)
    (agrees : Agrees classes (known ++ [(index.text, .int)]))
    (lowKnown : low.isKnown known = true) (highKnown : high.isKnown known = true) :
    ∃ d, Yields atoms c d [Translator.loopLine index.text low.text high.text] []
        ({ kind := .loop, opener := c.index } :: c.state.blocks) ∧
      Stands file atoms d later (known ++ [(index.text, .int)]) := by
  obtain ⟨line, stmt, rest, here, apart, line', stmt', left⟩ := stands.line
  obtain ⟨symbols, declared, knows⟩ := stands.knows.declare agrees
  have shape : pieceAtoms file line stmt (loopHead index low high braced) =
      wordAtom file line stmt "for" :: [index.text, "from", low.text, "to", high.text].map
        (wordAtom file line stmt) := by
    have keywords : Scanner.kindOf "for".toList = .word ∧ Scanner.kindOf "from".toList = .word ∧
      Scanner.kindOf "to".toList = .word := by decide
    cases braced <;>
    · simp only [loopHead, if_true, Bool.false_eq_true, if_false, List.append_nil,
        List.cons_append, List.nil_append, pieceAtoms_run keywords.1,
        pieceAtoms_run keywords.2.1, pieceAtoms_run keywords.2.2, pieceAtoms_run index.kindOf,
        pieceAtoms_run low.kindOf, pieceAtoms_run high.kindOf, pieceAtoms_blank]
      rfl
  rw [shape] at here
  obtain ⟨runs, past⟩ := step _ here (.forLoop (wordAtom_isWord "for") rfl index.isName
    (wordAtom_is "from") (low.isBound stands.knows lowKnown) (wordAtom_is "to")
    (high.isBound stands.knows highKnown) declared)
  exact ⟨_, ⟨runs, rfl, (List.append_nil _).symm, rfl⟩, ⟨line', stmt', past.trans left⟩, knows⟩

theorem ifHead_atoms (condition : Expression) (line stmt : Int) :
    pieceAtoms file line stmt (ifHead condition) =
      wordAtom file line stmt "if" :: condition.atoms file line stmt := by
  have keyword : Scanner.kindOf "if".toList = .word := by decide
  simp only [ifHead, pieceAtoms_run keyword, pieceAtoms_blank, pieceAtoms_append,
    Phrase.pieceAtoms_pieces, Phrase.stmtAfter_pieces]
  rw [show pieceAtoms file line stmt [.mark '\x7b'] = [] from rfl, List.append_nil]

theorem conditional_effect (condition : Expression) {line stmt : Int} {t : Translator}
    {previous : Option Atom} {i : Nat} {rest : List Atom} (apart : ∀ b ∈ rest, stmt < b.stmt) :
    Translator.Effect t previous i (wordAtom file line stmt "if")
      (condition.atoms file line stmt ++ rest) ((condition.atoms file line stmt).length + 1)
      (t.openBlock .conditional i ("if(" ++ condition.text ++ ")\x7b")) := by
  have noBrace : ∀ word ∈ ["if"], word ≠ "\x7d" := by decide
  have whole : statement (wordAtom file line stmt "if" :: (condition.atoms file line stmt ++ rest)) =
      wordAtom file line stmt "if" :: condition.atoms file line stmt :=
    statement_words file line "if" condition noBrace apart
  have effect : Translator.Effect t previous i (wordAtom file line stmt "if")
      (condition.atoms file line stmt ++ rest) _ _ :=
    .conditional (wordAtom_isWord "if") (by rw [whole]; exact condition.atoms_ne_nil)
  rw [whole, List.drop_succ_cons, List.drop_zero, Phrase.spaced_atoms, List.length_cons] at effect
  exact effect

theorem ifHead_yields (condition : Expression)
    (stands : Stands file atoms c (ifHead condition :: later) known) :
    ∃ d, Yields atoms c d ["if(" ++ condition.text ++ ")\x7b"] []
        ({ kind := .conditional, opener := c.index } :: c.state.blocks) ∧
      Stands file atoms d later known := by
  obtain ⟨line, stmt, rest, here, apart, line', stmt', left⟩ := stands.line
  rw [ifHead_atoms] at here
  obtain ⟨runs, past⟩ := step _ here (conditional_effect condition apart)
  exact ⟨_, ⟨runs, rfl, (List.append_nil _).symm, rfl⟩, ⟨line', stmt', past.trans left⟩,
    stands.knows⟩

/-- An `else` may stand here: a brace was read and it closed an `if` or an `else if`. -/
structure AfterIf (atoms : List Atom) (c : Cursor) : Prop where
  brace : (before atoms c.index).any (·.is "\x7d") = true
  closed : c.state.closed = some .conditional

theorem elseIf_yields (condition : Expression) (afterIf : AfterIf atoms c)
    (stands : Stands file atoms c ((.run "else" :: .mark ' ' :: ifHead condition) :: later) known) :
    ∃ d, Yields atoms c d ["else", "if(" ++ condition.text ++ ")\x7b"] []
        ({ kind := .conditional, opener := c.index + 1 } :: c.state.blocks) ∧
      Stands file atoms d later known := by
  obtain ⟨line, stmt, rest, here, apart, line', stmt', left⟩ := stands.line
  have keyword : Scanner.kindOf "else".toList = .word := by decide
  rw [pieceAtoms_run keyword, pieceAtoms_blank, ifHead_atoms] at here
  obtain ⟨runs, past⟩ := step (c := c) [] here (.elseIf (wordAtom_isWord "else")
    afterIf.brace afterIf.closed rfl (wordAtom_is "if") rfl)
  obtain ⟨runs', past'⟩ := step (c := ⟨c.index + 1, _⟩) _ past (conditional_effect condition apart)
  refine ⟨_, ⟨runs.trans runs', ?_, (List.append_nil _).symm, rfl⟩, ⟨line', stmt', past'.trans left⟩,
    stands.knows⟩
  exact List.append_assoc _ _ _

theorem else_yields (afterIf : AfterIf atoms c)
    (stands : Stands file atoms c ([.run "else", .mark ' ', .mark '\x7b'] :: later) known) :
    ∃ d, Yields atoms c d ["else\x7b"] []
        ({ kind := .alternative, opener := c.index } :: c.state.blocks) ∧
      Stands file atoms d later known := by
  obtain ⟨line, stmt, rest, here, apart, line', stmt', left⟩ := stands.line
  have keyword : Scanner.kindOf "else".toList = .word := by decide
  rw [pieceAtoms_run keyword] at here
  obtain ⟨runs, past⟩ := step (c := c) [] here (.otherwise (wordAtom_isWord "else")
    afterIf.brace afterIf.closed (by
      rintro next tail rfl -
      exact Int.ne_of_lt (apart next List.mem_cons_self)))
  exact ⟨_, ⟨runs, rfl, (List.append_nil _).symm, rfl⟩, ⟨line', stmt', past.trans left⟩,
    stands.knows⟩

theorem closing_yields {b : Block} {outer : List Block} (blocks : c.state.blocks = b :: outer)
    (notLoop : b.kind ≠ .loop)
    (stands : Stands file atoms c ([.mark '\x7d'] :: later) known) :
    ∃ d, Yields atoms c d ["\x7d"] [] outer ∧ Stands file atoms d later known ∧
      (before atoms d.index).any (·.is "\x7d") = true ∧ d.state.closed = some b.kind := by
  obtain ⟨line, stmt, rest, here, apart, line', stmt', left⟩ := stands.line
  have settled : c.state.settle = c.state :=
    Translator.settle_of_open blocks (by simp [Block.isClosedLoop, notLoop])
  have brace : (markAtom file line stmt '\x7d').is "\x7d" = true := rfl
  have effect : Translator.Effect c.state (before atoms c.index) c.index
      (markAtom file line stmt '\x7d') ([] ++ rest) 1 (c.state.settle.closeBlock b outer) :=
    .closeBlock AtomKind.noConfusion brace (by rw [settled, blocks]) notLoop
  rw [settled] at effect
  obtain ⟨runs, past⟩ := step (c := c) [] here effect
  refine ⟨_, ⟨runs, rfl, (List.append_nil _).symm, rfl⟩,
    ⟨⟨line', stmt', past.trans left⟩, stands.knows⟩, ?_, rfl⟩
  have last : before atoms (c.index + 1) = some (markAtom file line stmt '\x7d') := before_succ here
  change (before atoms (c.index + 1)).any _ = true
  rw [last]
  exact brace

theorem loopEnd_yields {braced : Bool} {b : Block} {outer : List Block}
    (blocks : c.state.blocks = b :: outer) (isLoop : b.kind = .loop)
    (unclosed : b.isClosedLoop ≠ true)
    (stands : Stands file atoms c (loopEnd braced :: later) known) :
    ∃ d, Yields atoms c d ["\x7d"] [] outer ∧ Stands file atoms d later known := by
  obtain ⟨line, stmt, rest, here, -, line', stmt', left⟩ := stands.line
  cases braced with
  | false =>
      obtain ⟨runs, past⟩ := step (c := c) [wordAtom file line stmt "end"] here
        (.thenEnd (wordAtom_isWord "then") rfl (wordAtom_is "end") blocks isLoop)
      exact ⟨_, ⟨runs, rfl, (List.append_nil _).symm, rfl⟩, ⟨line', stmt', past.trans left⟩,
        stands.knows⟩
  | true =>
      have settled := Translator.settle_of_open blocks unclosed
      have brace : (markAtom file line stmt '\x7d').is "\x7d" = true := rfl
      have effect : Translator.Effect c.state (before atoms c.index) c.index
          (markAtom file line stmt '\x7d')
          ([] ++ wordAtom file line (stmt + 1) "then" :: wordAtom file line (stmt + 1) "end" :: rest)
          1 (c.state.settle.closeBrace b outer) :=
        .closeBrace AtomKind.noConfusion brace (by rw [settled, blocks]) isLoop
      rw [settled] at effect
      obtain ⟨runs, past⟩ := step (c := c) [] here effect
      obtain ⟨runs', past'⟩ := step (c := ⟨c.index + 1, _⟩) [wordAtom file line (stmt + 1) "end"] past
        (.thenEnd (t := c.state.closeBrace b outer) (wordAtom_isWord "then") rfl (wordAtom_is "end")
          rfl isLoop)
      exact ⟨_, ⟨runs.trans runs', rfl, (List.append_nil _).symm, rfl⟩,
        ⟨line', stmt', past'.trans left⟩, stands.knows⟩

/-- A block that is no loop: its head, its body and its brace. -/
theorem block_yields {head emitted prototypes : List String} {kind : BlockKind} {opener : Nat}
    {after : Declarations} (notLoop : kind ≠ .loop)
    (opened : Yields atoms c d head prototypes ({ kind, opener } :: c.state.blocks))
    (body : ∃ e, Yields atoms d e emitted [] d.state.blocks ∧
      Stands file atoms e ([.mark '\x7d'] :: later) after) :
    ∃ f, Yields atoms c f (head ++ (emitted ++ ["\x7d"])) prototypes c.state.blocks ∧
      Stands file atoms f later after ∧ (before atoms f.index).any (·.is "\x7d") = true ∧
      f.state.closed = some kind := by
  obtain ⟨e, inside, stands⟩ := body
  obtain ⟨f, closed, stands', last⟩ :=
    closing_yields (inside.blocks.trans opened.blocks) notLoop stands
  refine ⟨f, ?_, stands', last⟩
  have whole := opened.trans (inside.trans closed)
  rwa [List.append_nil, List.append_nil] at whole

mutual

theorem Statement.yields (statement : Statement) {c : Cursor} {later : List (List Piece)}
    {known : Declarations} (stands : Stands file atoms c (statement.source ++ later) known)
    (agrees : Agrees classes (known ++ statement.declared))
    (isScoped : statement.isScoped known = true) :
    ∃ d, Yields atoms c d statement.emitted [] c.state.blocks ∧
      Stands file atoms d later (known ++ statement.declared) := by
  cases statement with
  | simple statement =>
      simp only [Statement.source, Statement.declared, Statement.emitted, Statement.isScoped,
        List.singleton_append] at *
      exact statement.yields stands agrees isScoped
  | loop index low high braced body =>
      simp only [Statement.source, Statement.declared, Statement.emitted, Statement.isScoped,
        List.cons_append, List.append_assoc, List.nil_append, Bool.and_eq_true] at *
      rw [List.append_cons known] at agrees ⊢
      obtain ⟨d, opened, inner⟩ := loopHead_yields index stands agrees.left isScoped.1.1 isScoped.1.2
      obtain ⟨e, inside, stands'⟩ := body.yields inner agrees isScoped.2
      obtain ⟨f, closed, stands''⟩ :=
        loopEnd_yields (inside.blocks.trans opened.blocks) rfl Bool.false_ne_true stands'
      exact ⟨f, opened.trans (inside.trans closed), stands''⟩
  | conditional condition body rest =>
      simp only [Statement.source, Statement.declared, Statement.emitted, Statement.isScoped,
        List.cons_append, List.append_assoc, Bool.and_eq_true] at *
      rw [← List.append_assoc] at agrees ⊢
      obtain ⟨d, opened, inner⟩ := ifHead_yields condition stands
      obtain ⟨e, block, stands', brace, closed⟩ := block_yields (by decide) opened
        (body.yields inner agrees.left isScoped.1)
      obtain ⟨f, others, stands''⟩ := rest.yields ⟨brace, closed⟩ stands' agrees isScoped.2
      rw [block.blocks] at others
      have whole := block.trans others
      exact ⟨f, by simpa using whole, stands''⟩

theorem Body.yields (body : Body) {c : Cursor} {later : List (List Piece)}
    {known : Declarations} (stands : Stands file atoms c (body.source ++ later) known)
    (agrees : Agrees classes (known ++ body.declared)) (isScoped : body.isScoped known = true) :
    ∃ d, Yields atoms c d body.emitted [] c.state.blocks ∧
      Stands file atoms d later (known ++ body.declared) := by
  cases body with
  | done =>
      rw [Body.declared, List.append_nil]
      exact ⟨c, .refl c, stands⟩
  | next first rest =>
      simp only [Body.source, Body.declared, Body.emitted, Body.isScoped, List.append_assoc,
        Bool.and_eq_true] at *
      rw [← List.append_assoc] at agrees ⊢
      obtain ⟨d, here, stands'⟩ := first.yields stands agrees.left isScoped.1
      obtain ⟨e, others, stands''⟩ := rest.yields stands' agrees isScoped.2
      rw [here.blocks] at others
      exact ⟨e, here.trans others, stands''⟩

theorem Alternative.yields (alternative : Alternative) {c : Cursor} {later : List (List Piece)}
    {known : Declarations} (afterIf : AfterIf atoms c)
    (stands : Stands file atoms c (alternative.source ++ later) known)
    (agrees : Agrees classes (known ++ alternative.declared))
    (isScoped : alternative.isScoped known = true) :
    ∃ d, Yields atoms c d alternative.emitted [] c.state.blocks ∧
      Stands file atoms d later (known ++ alternative.declared) := by
  cases alternative with
  | none =>
      rw [Alternative.declared, List.append_nil]
      exact ⟨c, .refl c, stands⟩
  | elseIf condition body rest =>
      simp only [Alternative.source, Alternative.declared, Alternative.emitted,
        Alternative.isScoped, List.cons_append, List.append_assoc, Bool.and_eq_true] at *
      rw [← List.append_assoc] at agrees ⊢
      obtain ⟨d, opened, inner⟩ := elseIf_yields condition afterIf stands
      obtain ⟨e, block, stands', brace, closed⟩ := block_yields (by decide) opened
        (body.yields inner agrees.left isScoped.1)
      obtain ⟨f, others, stands''⟩ := rest.yields ⟨brace, closed⟩ stands' agrees isScoped.2
      rw [block.blocks] at others
      have whole := block.trans others
      exact ⟨f, by simpa using whole, stands''⟩
  | otherwise body =>
      simp only [Alternative.source, Alternative.declared, Alternative.emitted,
        Alternative.isScoped, List.cons_append, List.append_assoc, List.nil_append] at *
      obtain ⟨d, opened, inner⟩ := else_yields afterIf stands
      obtain ⟨e, block, stands', -⟩ := block_yields (by decide) opened
        (body.yields inner agrees isScoped)
      exact ⟨e, block, stands'⟩

end

theorem functionHead_atoms {name : String} (word : Scanner.kindOf name.toList = .word)
    (parameters : List Parameter) (line stmt : Int) :
    pieceAtoms file line stmt (functionHead name parameters) =
      wordAtom file line stmt "function" :: wordAtom file line stmt name ::
        ([markAtom file line stmt ','].intercalate
            (parameters.map (Parameter.atoms file line stmt)) ++ [markAtom file line stmt ')']) := by
  have keyword : Scanner.kindOf "function".toList = .word := by decide
  obtain ⟨read, stays⟩ :
      pieceAtoms file line stmt (commaSeparated (parameters.map Parameter.pieces)) = _ ∧
        stmtAfter stmt (commaSeparated (parameters.map Parameter.pieces)) = stmt :=
    commaSeparated_atoms parameters (fun p => p.pieceAtoms_pieces) (fun _ => rfl)
  simp only [functionHead, pieceAtoms_run keyword, pieceAtoms_blank, pieceAtoms_run word,
    pieceAtoms_paren, pieceAtoms_append, read, stays]
  rfl

theorem mainHead_yields (atTop : c.state.blocks = [])
    (stands : Stands file atoms c (functionHead entryFunction [] :: later) known) :
    ∃ d, Yields atoms c d ["int main()\x7b"] []
        ({ kind := .function, opener := c.index } :: c.state.blocks) ∧
      Stands file atoms d later known := by
  obtain ⟨line, stmt, rest, here, -, line', stmt', left⟩ := stands.line
  rw [functionHead_atoms (by decide)] at here
  have read : parameters c.state.symbols (c.index + 2) (markAtom file line stmt ')' :: rest) =
      .ok ⟨[], 1, c.state.symbols⟩ := rfl
  obtain ⟨runs, past⟩ := step [wordAtom file line stmt entryFunction, markAtom file line stmt ')']
    here (.mainFunction (wordAtom_isWord "function") atTop rfl (wordAtom_isWord entryFunction) read
      rfl)
  exact ⟨_, ⟨runs, rfl, (List.append_nil _).symm, rfl⟩, ⟨line', stmt', past.trans left⟩,
    stands.knows⟩

theorem functionHead_yields {name : Name} (notMain : name.text ≠ entryFunction)
    (parameters : List Parameter) (atTop : c.state.blocks = [])
    (agrees : Agrees classes (known ++ parameters.map Parameter.declared))
    (stands : Stands file atoms c (functionHead name.text parameters :: later) known) :
    ∃ d, Yields atoms c d [functionSignature name parameters ++ "\x7b"]
        [functionSignature name parameters ++ ";"]
        ({ kind := .function, opener := c.index } :: c.state.blocks) ∧
      Stands file atoms d later (known ++ parameters.map Parameter.declared) := by
  obtain ⟨line, stmt, rest, here, -, line', stmt', left⟩ := stands.line
  have isComma : (markAtom file line stmt ',').is "," = true := rfl
  have isClose : (markAtom file line stmt ')').is ")" = true := rfl
  rw [functionHead_atoms name.kindOf] at here
  obtain ⟨params, read, texts, taken, knows⟩ :=
    parameters_intercalate file line stmt isComma isClose rest parameters stands.knows agrees
      (c.index + 2)
  generalize [markAtom file line stmt ','].intercalate
    (parameters.map (Parameter.atoms file line stmt)) = list at here read taken
  have front : list ++ markAtom file line stmt ')' :: rest =
    list ++ [markAtom file line stmt ')'] ++ rest := by simp
  have count : 2 + params.taken =
      (wordAtom file line stmt name.text :: (list ++ [markAtom file line stmt ')'])).length + 1 := by
    simp only [taken, List.length_cons, List.length_append, List.length_nil]
    omega
  have effect : Translator.Effect c.state (before atoms c.index) c.index
      (wordAtom file line stmt "function")
      (wordAtom file line stmt name.text :: (list ++ markAtom file line stmt ')' :: rest)) _ _ :=
    .namedFunction (wordAtom_isWord "function") atTop rfl name.isName notMain read
  rw [front, texts, count] at effect
  obtain ⟨runs, past⟩ := step _ here effect
  exact ⟨_, ⟨runs, rfl, rfl, rfl⟩, ⟨line', stmt', past.trans left⟩, knows⟩

/-- An item of a program, translated where no block is open. -/
theorem Item.yields (item : Item) (atTop : c.state.blocks = [])
    (stands : Stands file atoms c (item.source ++ later) known)
    (agrees : Agrees classes (known ++ item.declared)) (isScoped : item.isScoped known = true) :
    ∃ d, Yields atoms c d item.emitted item.prototypes c.state.blocks ∧
      Stands file atoms d later (known ++ item.declared) := by
  cases item with
  | statement statement => exact statement.yields stands agrees isScoped
  | main body =>
      simp only [Item.source, List.cons_append, List.append_assoc, List.nil_append] at stands
      obtain ⟨d, opened, inner⟩ := mainHead_yields atTop stands
      obtain ⟨e, block, stands', -⟩ := block_yields (by decide) opened
        (body.yields inner agrees isScoped)
      exact ⟨e, block, stands'⟩
  | function name notMain parameters body =>
      simp only [Item.source, List.cons_append, List.append_assoc, List.nil_append] at stands
      simp only [Item.declared] at agrees ⊢
      rw [← List.append_assoc] at agrees ⊢
      obtain ⟨d, opened, inner⟩ := functionHead_yields notMain parameters atTop agrees.left stands
      obtain ⟨e, block, stands', -⟩ := block_yields (by decide) opened
        (body.yields inner agrees isScoped)
      exact ⟨e, block, stands'⟩

/-- The items of a program, one after the other. -/
theorem items_yield (items : List Item) (atTop : c.state.blocks = [])
    (stands : Stands file atoms c (items.flatMap Item.source) known)
    (agrees : Agrees classes (known ++ items.flatMap Item.declared))
    (isScoped : itemsScoped known items = true) :
    ∃ d, Yields atoms c d (items.flatMap Item.emitted) (items.flatMap Item.prototypes) [] ∧
      Stands file atoms d [] (known ++ items.flatMap Item.declared) := by
  induction items generalizing c known with
  | nil =>
      simp only [List.flatMap_nil, List.append_nil]
      exact ⟨c, atTop ▸ .refl c, stands⟩
  | cons item items ih =>
      simp only [itemsScoped, Bool.and_eq_true] at isScoped
      simp only [List.flatMap_cons] at stands agrees ⊢
      rw [← List.append_assoc] at agrees ⊢
      obtain ⟨d, here, stands'⟩ := item.yields atTop stands agrees.left isScoped.1
      obtain ⟨e, others, stands''⟩ := ih (here.blocks.trans atTop) stands' agrees isScoped.2
      exact ⟨e, here.trans others, stands''⟩

end DawnC
