import DawnC.Proofs.LoopExtent

set_option autoImplicit false

namespace DawnC

/-- The misstep shows at one of the atoms, which start at `i`, or right after the last. -/
def Misstep.Within (m : Misstep) (i : Nat) (atoms : List Atom) : Prop :=
  i ≤ m.index ∧ m.index ≤ i + atoms.length

section Pieces

variable {m : Misstep} {i index taken : Nat} {a : Atom} {atoms rest : List Atom}

theorem Misstep.Within.of_index {k : Nat} (place : m.index = i + k) (short : k ≤ atoms.length) :
    m.Within i atoms := by
  unfold Misstep.Within
  omega

theorem Misstep.Within.cons (later : m.Within (i + 1) rest) : m.Within i (a :: rest) := by
  unfold Misstep.Within at later ⊢
  rw [List.length_cons]
  omega

theorem expect_index {text : String} (failed : expect text index atoms = .error m) :
    m.index = index := by
  cases atoms with
  | nil =>
      cases failed
      rfl
  | cons a rest =>
      rw [expect] at failed
      split at failed
      · cases failed
      · cases failed
        rfl

theorem expectName_index (failed : expectName index atoms = .error m) : m.index = index := by
  cases atoms with
  | nil =>
      cases failed
      rfl
  | cons a rest =>
      rw [expectName] at failed
      split at failed
      · cases failed
      · cases failed
        rfl

theorem expectBound_index {symbols : SymbolTable}
    (failed : expectBound symbols index atoms = .error m) : m.index = index := by
  cases atoms with
  | nil =>
      cases failed
      rfl
  | cons a rest =>
      rw [expectBound] at failed
      split at failed
      · cases failed
      · cases failed
        rfl

theorem expression_index (failed : expression index atoms = .error m) : m.index = index := by
  cases atoms with
  | nil =>
      cases failed
      rfl
  | cons a rest => cases failed

theorem declareAt_index {symbols : SymbolTable} {name : String} {cls : SymbolClass}
    (failed : declareAt symbols index name cls = .error m) : m.index = index := by
  rw [declareAt] at failed
  split at failed
  · cases failed
  · cases failed
    rfl

/-- A list of arguments fails at the atom it has come to. -/
theorem argumentsFrom_within {args current : List String}
    (failed : argumentsFrom args current taken index atoms = .error m) : m.Within index atoms := by
  induction atoms generalizing args current taken index with
  | nil =>
      cases failed
      exact .of_index rfl (Nat.le_refl 0)
  | cons a rest ih =>
      have here {violation : Violation} : Misstep.Within ⟨index, violation⟩ index (a :: rest) :=
        .of_index rfl (Nat.zero_le _)
      rw [argumentsFrom] at failed
      split at failed
      · split at failed
        · cases failed
        · split at failed
          · cases failed
            exact here
          · cases failed
      · split at failed
        · split at failed
          · cases failed
            exact here
          · exact (ih failed).cons
        · split at failed
          · cases failed
            exact here
          · exact (ih failed).cons

theorem elementsFrom_within {texts : List String}
    (failed : elementsFrom texts taken index atoms = .error m) : m.Within index atoms := by
  induction atoms generalizing texts taken index with
  | nil =>
      cases failed
      exact .of_index rfl (Nat.le_refl 0)
  | cons a rest ih =>
      rw [elementsFrom] at failed
      split at failed
      · cases failed
      · split at failed
        · cases failed
          exact .of_index rfl (Nat.zero_le _)
        · exact (ih failed).cons

theorem parametersFrom_within {symbols symbols' : SymbolTable} {texts : List String}
    {state : ParameterState}
    (failed : parametersFrom symbols texts taken index state atoms = .error (m, symbols')) :
    m.Within index atoms := by
  induction atoms generalizing symbols texts taken index state with
  | nil =>
      cases failed
      exact .of_index rfl (Nat.le_refl 0)
  | cons a rest ih =>
      have here {violation : Violation} : Misstep.Within ⟨index, violation⟩ index (a :: rest) :=
        .of_index rfl (Nat.zero_le _)
      cases state with
      | name cls =>
          rw [parametersFrom] at failed
          split at failed
          · split at failed
            · exact (ih failed).cons
            · cases failed
              exact here
          · cases failed
            exact here
      | separator =>
          rw [parametersFrom] at failed
          split at failed
          · cases failed
          · split at failed
            · exact (ih failed).cons
            · cases failed
              exact here
      | start =>
          rw [parametersFrom] at failed
          split at failed
          · cases failed
          · split at failed
            · exact (ih failed).cons
            · cases failed
              exact here
      | type =>
          rw [parametersFrom] at failed
          split at failed
          · exact (ih failed).cons
          · cases failed
            exact here

/-- After its arguments a construct fails at its first atom or at the next. -/
theorem arguments_bind_within {β : Type} {next : List String × Nat → Except Misstep β}
    (failed : (arguments (i + 1) rest >>= next) = .error m)
    (later : ∀ read, next read = .error m → m.index = i ∨ m.index = i + 1) :
    m.Within i (a :: rest) := by
  rcases bind_eq_error.mp failed with failed | ⟨read, -, failed⟩
  · exact (argumentsFrom_within failed).cons
  · have close := later read failed
    unfold Misstep.Within
    rw [List.length_cons]
    omega

end Pieces

namespace Translator

variable {t t' : Translator} {previous : Option Atom} {i n : Nat} {a : Atom} {rest : List Atom}
  {m : Misstep}

theorem print_within (failed : t.print i (a :: rest) = .error m) : m.Within i (a :: rest) := by
  refine arguments_bind_within failed fun read failed => ?_
  dsimp only at failed
  split at failed
  · cases failed
  · cases failed
    exact Or.inl rfl

theorem printFormatted_within {keyword verb : String}
    (failed : t.printFormatted i (a :: rest) keyword verb = .error m) : m.Within i (a :: rest) := by
  refine arguments_bind_within failed fun read failed => ?_
  dsimp only at failed
  split at failed
  · cases failed
  · cases failed
    exact Or.inl rfl

theorem printListElement_within (failed : t.printListElement i (a :: rest) = .error m) :
    m.Within i (a :: rest) := by
  refine arguments_bind_within failed fun read failed => ?_
  dsimp only at failed
  split at failed
  · split at failed
    · cases failed
    · cases failed
      exact Or.inr rfl
  · cases failed
    exact Or.inl rfl

theorem call_within {name : String} (failed : t.call i (a :: rest) name = .error m) :
    m.Within i (a :: rest) := by
  refine arguments_bind_within failed fun read failed => ?_
  dsimp only at failed
  split at failed
  · cases failed
    exact Or.inl rfl
  · cases failed

theorem declaration_within {cls : SymbolClass} (failed : t.declaration i (a :: rest) cls = .error m) :
    m.Within i (a :: rest) := by
  simp only [declaration, List.drop_succ_cons, List.drop_zero] at failed
  rcases bind_eq_error.mp failed with failed | ⟨_, found, failed⟩
  · exact .of_index (expectName_index failed) (by simp)
  obtain ⟨name, tail, rfl, -, rfl⟩ := expectName_eq_ok.mp found
  rcases bind_eq_error.mp failed with failed | ⟨_, found, failed⟩
  · exact .of_index (expect_index failed) (by simp)
  obtain ⟨equals, tail, shape, -⟩ := expect_eq_ok.mp found
  cases shape
  rcases bind_eq_error.mp failed with failed | ⟨_, -, failed⟩
  · exact .of_index (expression_index failed) (by simp)
  rcases bind_eq_error.mp failed with failed | ⟨_, -, failed⟩
  · exact .of_index (declareAt_index failed) (by simp)
  · cases failed

theorem intList_within (failed : t.intList i (a :: rest) = .error m) : m.Within i (a :: rest) := by
  simp only [intList, List.drop_succ_cons, List.drop_zero] at failed
  rcases bind_eq_error.mp failed with failed | ⟨_, found, failed⟩
  · exact .of_index (expectName_index failed) (by simp)
  obtain ⟨name, tail, rfl, -, rfl⟩ := expectName_eq_ok.mp found
  rcases bind_eq_error.mp failed with failed | ⟨_, found, failed⟩
  · exact .of_index (expect_index failed) (by simp)
  obtain ⟨equals, tail, shape, -⟩ := expect_eq_ok.mp found
  cases shape
  rcases bind_eq_error.mp failed with failed | ⟨_, found, failed⟩
  · exact .of_index (expect_index failed) (by simp)
  obtain ⟨bracket, tail, shape, -⟩ := expect_eq_ok.mp found
  cases shape
  rcases bind_eq_error.mp failed with failed | ⟨_, -, failed⟩
  · exact (elementsFrom_within failed).cons.cons.cons.cons
  rcases bind_eq_error.mp failed with failed | ⟨_, -, failed⟩
  · exact .of_index (declareAt_index failed) (by simp)
  · cases failed

theorem forLoop_within (failed : t.forLoop i (a :: rest) = .error m) : m.Within i (a :: rest) := by
  simp only [forLoop, List.drop_succ_cons, List.drop_zero] at failed
  rcases bind_eq_error.mp failed with failed | ⟨_, found, failed⟩
  · exact .of_index (expectName_index failed) (by simp)
  obtain ⟨name, tail, rfl, -, rfl⟩ := expectName_eq_ok.mp found
  rcases bind_eq_error.mp failed with failed | ⟨_, found, failed⟩
  · exact .of_index (expect_index failed) (by simp)
  obtain ⟨start, tail, shape, -⟩ := expect_eq_ok.mp found
  cases shape
  rcases bind_eq_error.mp failed with failed | ⟨_, found, failed⟩
  · exact .of_index (expectBound_index failed) (by simp)
  obtain ⟨low, tail, shape, -, rfl⟩ := expectBound_eq_ok.mp found
  cases shape
  rcases bind_eq_error.mp failed with failed | ⟨_, found, failed⟩
  · exact .of_index (expect_index failed) (by simp)
  obtain ⟨stop, tail, shape, -⟩ := expect_eq_ok.mp found
  cases shape
  rcases bind_eq_error.mp failed with failed | ⟨_, -, failed⟩
  · exact .of_index (expectBound_index failed) (by simp)
  rcases bind_eq_error.mp failed with failed | ⟨_, -, failed⟩
  · exact .of_index (declareAt_index failed) (by simp)
  · cases failed

theorem assignment_within {equals : Atom} {tail : List Atom}
    (failed : (if equals.is "=" && a.stmt = equals.stmt then
        t.assignment i (a :: equals :: tail) a.text
      else throw ⟨i, .expectedAssignment a.text⟩) = .error m) :
    m.Within i (a :: equals :: tail) := by
  split at failed
  · rcases bind_eq_error.mp failed with failed | ⟨_, -, failed⟩
    · exact .of_index (expression_index failed) (by simp)
    · cases failed
  · cases failed
    exact .of_index rfl (Nat.zero_le _)

theorem identifier_within (failed : t.identifier i (a :: rest) a = .error m) :
    m.Within i (a :: rest) := by
  have here {violation : Violation} : Misstep.Within ⟨i, violation⟩ i (a :: rest) :=
    .of_index rfl (Nat.zero_le _)
  simp only [identifier, List.drop_succ_cons, List.drop_zero] at failed
  split at failed
  · split at failed
    · exact assignment_within failed
    · cases failed
      exact here
  · split at failed
    · exact assignment_within failed
    · cases failed
      exact here
  · exact call_within failed
  · cases failed
    exact here
  · cases failed
    exact here

theorem thenEnd_within (failed : t.thenEnd i (a :: rest) = .error m) : m.Within i (a :: rest) := by
  have here {violation : Violation} : Misstep.Within ⟨i, violation⟩ i (a :: rest) :=
    .of_index rfl (Nat.zero_le _)
  simp only [thenEnd, List.drop_succ_cons, List.drop_zero] at failed
  rcases bind_eq_error.mp failed with failed | ⟨_, -, failed⟩
  · exact .of_index (expect_index failed) (by simp)
  · split at failed
    · split at failed
      · cases failed
      · cases failed
        exact here
    · cases failed
      exact here

theorem conditional_within (failed : t.conditional i (a :: rest) = .error m) :
    m.Within i (a :: rest) := by
  rcases bind_eq_error.mp failed with failed | ⟨_, -, failed⟩
  · exact .of_index (expression_index failed) (by simp)
  · cases failed

theorem alternative_within (failed : t.alternative i (a :: rest) previous a = .error m) :
    m.Within i (a :: rest) := by
  simp only [alternative, List.drop_succ_cons, List.drop_zero] at failed
  split at failed
  · split at failed
    · split at failed
      · cases failed
      · cases failed
    · cases failed
  · cases failed
    exact .of_index rfl (Nat.zero_le _)

theorem function_within (failed : t.function i (a :: rest) = .error (m, t')) :
    m.Within i (a :: rest) := by
  simp only [function, List.drop_succ_cons, List.drop_zero] at failed
  split at failed
  · cases failed
    exact .of_index rfl (Nat.zero_le _)
  rcases bind_eq_error.mp failed with failed | ⟨_, found, failed⟩
  · obtain ⟨m', unnamed, same⟩ := mapError_eq_error.mp failed
    cases same
    exact .of_index (expectName_index unnamed) (by simp)
  obtain ⟨name, tail, rfl, -, rfl⟩ := expectName_eq_ok.mp (mapError_eq_ok.mp found)
  rcases bind_eq_error.mp failed with failed | ⟨params, -, failed⟩
  · obtain ⟨⟨m', symbols⟩, unread, same⟩ := mapError_eq_error.mp failed
    cases same
    exact (parametersFrom_within unread).cons.cons
  · split at failed
    · split at failed
      · cases failed
        exact .of_index rfl (by simp)
      · cases failed
    · cases failed

theorem blockClose_within (failed : t.blockClose i = .error (m, t')) : m.Within i (a :: rest) := by
  rw [applyClose_settle] at failed
  cases blocks : t.settle.blocks with
  | nil =>
      rw [blocks] at failed
      cases failed
      exact .of_index rfl (Nat.zero_le _)
  | cons b outer =>
      rw [blocks, blockClose.applyClose] at failed
      split at failed
      · cases failed
      · cases failed

theorem keeping_eq_error {result : Except Misstep (Nat × Translator)}
    (failed : t.keeping result = .error (m, t')) : result = .error m := by
  obtain ⟨m', result_eq, same⟩ := mapError_eq_error.mp failed
  cases same
  exact result_eq

/-- A construct fails at one of the atoms from its first on, or right after the last. -/
theorem construct_within (failed : t.construct previous i a (a :: rest) = .error (m, t')) :
    m.Within i (a :: rest) := by
  simp only [construct] at failed
  split at failed
  · split at failed
    · exact blockClose_within failed
    · cases failed
      exact .of_index rfl (Nat.zero_le _)
  · split at failed
    · exact print_within (keeping_eq_error failed)
    · exact printFormatted_within (keeping_eq_error failed)
    · exact printFormatted_within (keeping_eq_error failed)
    · exact printListElement_within (keeping_eq_error failed)
    · exact declaration_within (keeping_eq_error failed)
    · exact declaration_within (keeping_eq_error failed)
    · exact declaration_within (keeping_eq_error failed)
    · exact intList_within (keeping_eq_error failed)
    · exact forLoop_within (keeping_eq_error failed)
    · exact thenEnd_within (keeping_eq_error failed)
    · exact function_within failed
    · exact conditional_within (keeping_eq_error failed)
    · exact alternative_within (keeping_eq_error failed)
    · cases failed
    · cases failed
    · exact identifier_within (keeping_eq_error failed)

/-- What is left open and has to be closed is the innermost block that is no loop with a closed brace. -/
theorem closeRemaining_error {blocks : List Block}
    (failed : t.closeRemaining blocks = .error (m, t')) :
    ∃ inner b outer, blocks = inner ++ b :: outer ∧ (∀ x ∈ inner, x.isClosedLoop = true) ∧
      b.isClosedLoop = false ∧ m = ⟨b.opener, .neverClosed b.kind⟩ := by
  induction blocks generalizing t with
  | nil => cases failed
  | cons b outer ih =>
      rw [closeRemaining] at failed
      split at failed
      · rename_i closed
        obtain ⟨inner, b', outer', rfl, loops, unclosed, same⟩ := ih failed
        exact ⟨b :: inner, b', outer', rfl, List.forall_mem_cons.mpr ⟨closed, loops⟩, unclosed, same⟩
      · rename_i unclosed
        cases failed
        exact ⟨[], b, outer, rfl, by simp, by simpa using unclosed, rfl⟩

end Translator

def BlockKind.keyword : BlockKind → String
  | function => "function"
  | loop => "for"
  | conditional => "if"
  | alternative => "else"

/-- What a construct can do to the open blocks: close inner ones, open one at its first atom, or mark the
brace of the innermost that it leaves. -/
theorem Translator.Effect.stack {t t' : Translator} {previous : Option Atom} {i n : Nat} {a : Atom}
    {rest : List Atom} (effect : Effect t previous i a rest n t') :
    t'.blocks <:+ t.blocks ∨
    (∃ kind, a.IsWord (BlockKind.keyword kind) ∧ t'.blocks = { kind, opener := i } :: t.blocks) ∨
    ∃ b outer, b :: outer <:+ t.blocks ∧ t'.blocks = { b with braceClosed := true } :: outer := by
  cases effect with
  | forLoop word => exact Or.inr (Or.inl ⟨.loop, word, rfl⟩)
  | conditional word => exact Or.inr (Or.inl ⟨.conditional, word, rfl⟩)
  | otherwise word => exact Or.inr (Or.inl ⟨.alternative, word, rfl⟩)
  | mainFunction word => exact Or.inr (Or.inl ⟨.function, word, rfl⟩)
  | namedFunction word => exact Or.inr (Or.inl ⟨.function, word, rfl⟩)
  | thenEnd word shape isEnd blocks isLoop =>
      rw [blocks]
      exact Or.inl (List.suffix_cons _ _)
  | closeBrace notWord brace blocks isLoop =>
      have settled := t.settle_blocks
      rw [blocks] at settled
      exact Or.inr (Or.inr ⟨_, _, settled, rfl⟩)
  | closeBlock notWord brace blocks notLoop =>
      have settled := t.settle_blocks
      rw [blocks] at settled
      exact Or.inl ((List.suffix_cons _ _).trans settled)
  | _ => exact Or.inl (List.suffix_refl _)

namespace Cursor

variable {atoms : List Atom} {start c d : Cursor}

/-- The construct at the block's first atom, the keyword of its kind, opened the block inside `outer`. -/
def OpenedAt (atoms : List Atom) (start c : Cursor) (b : Block) (outer : List Block) : Prop :=
  ∃ head body a rest, Runs atoms start head ∧ Next atoms head body ∧ Runs atoms body c ∧
    atoms.drop b.opener = a :: rest ∧ a.IsWord b.kind.keyword ∧ head.index = b.opener ∧
    head.state.blocks = outer ∧ body.state.blocks = { kind := b.kind, opener := b.opener } :: outer

theorem OpenedAt.next {b : Block} {outer : List Block} (opened : OpenedAt atoms start c b outer)
    (step : Next atoms c d) : OpenedAt atoms start d b outer := by
  obtain ⟨head, body, a, rest, reached, opens, inside, here⟩ := opened
  exact ⟨head, body, a, rest, reached, opens, inside.tail step, here⟩

/-- Every open block was opened at its first atom, inside the blocks that are open around it. -/
theorem Runs.openedAt (runs : Runs atoms start c) (fresh : start.state.blocks = []) {b : Block}
    {outer : List Block} (stacked : b :: outer <:+ c.state.blocks) :
    OpenedAt atoms start c b outer := by
  induction runs generalizing b outer with
  | refl =>
      rw [fresh] at stacked
      cases List.suffix_nil.mp stacked
  | @tail c d runs step ih =>
      have opens := step
      obtain ⟨a, rest, n, here, index, effect⟩ := step
      rcases effect.stack with closes | ⟨kind, word, pushed⟩ | ⟨inner, around, open', marked⟩
      · exact (ih (stacked.trans closes)).next opens
      · rw [pushed] at stacked
        rcases List.suffix_cons_iff.mp stacked with same | old
        · cases same
          exact ⟨c, d, a, rest, runs, opens, .refl, here, word, rfl, rfl, pushed⟩
        · exact (ih old).next opens
      · rw [marked] at stacked
        rcases List.suffix_cons_iff.mp stacked with same | old
        · cases same
          have before : OpenedAt atoms start c inner outer := ih open'
          exact before.next opens
        · exact (ih (old.trans ((List.suffix_cons _ _).trans open'))).next opens

/-- Why a run from `start` stops at the cursor with the misstep. -/
inductive Stops (atoms : List Atom) (start c : Cursor) (m : Misstep) : Prop where
  /-- the construct at the cursor fails, and not before its first atom -/
  | inConstruct {a : Atom} {rest : List Atom} {t : Translator} (here : atoms.drop c.index = a :: rest)
      (fails : c.state.construct (before atoms c.index) c.index a (a :: rest) = .error (m, t))
      (notBefore : c.index ≤ m.index)
  /-- the atoms are used up, and the innermost block that is no loop with a closed brace is reported at
  the atom that opened it -/
  | leftOpen {inner outer : List Block} {b : Block} (used : atoms.drop c.index = [])
      (blocks : c.state.blocks = inner ++ b :: outer) (loops : ∀ x ∈ inner, x.isClosedLoop = true)
      (unclosed : b.isClosedLoop = false) (place : m = ⟨b.opener, .neverClosed b.kind⟩)
      (opened : OpenedAt atoms start c b outer)

/-- A run that ends with a misstep stops at a construct or at a block that is left open, and the misstep
shows at an atom or at the end. -/
theorem Runs.stops {m : Misstep} {t : Translator} (runs : Runs atoms start c)
    (fresh : start.state.blocks = []) (ends : c.Ends atoms (.error (m, t))) :
    Stops atoms start c m ∧ m.index ≤ atoms.length := by
  simp only [Ends] at ends
  split at ends
  · rename_i used
    obtain ⟨inner, b, outer, blocks, loops, unclosed, rfl⟩ := Translator.closeRemaining_error ends
    have opened : OpenedAt atoms start c b outer := by
      apply runs.openedAt fresh
      rw [blocks]
      exact List.suffix_append _ _
    refine ⟨.leftOpen used blocks loops unclosed rfl opened, ?_⟩
    obtain ⟨-, -, a, rest, -, -, -, here, -⟩ := opened
    have length := congrArg List.length here
    rw [List.length_drop, List.length_cons] at length
    change b.opener ≤ atoms.length
    omega
  · rename_i a rest here
    obtain ⟨fault, same, fails⟩ := ends
    cases same
    have within := Translator.construct_within fails
    have length := congrArg List.length here
    rw [List.length_drop, List.length_cons] at length
    unfold Misstep.Within at within
    rw [List.length_cons] at within
    refine ⟨.inConstruct here fails within.1, ?_⟩
    omega

end Cursor

namespace CompilationUnit

/-- The place at an index: that of the atom there, or the end of the unit's file. -/
def IsPlace (u : CompilationUnit) (index : Nat) (file : String) (line : Int) (text : String) : Prop :=
  (∃ a, u.atoms[index]? = some a ∧ file = a.file ∧ line = a.line ∧ text = a.text) ∨
    index = u.atoms.length ∧ file = u.file ∧ line = 0 ∧ text = "<end of input>"

/-- A misstep is reported at its place. -/
theorem failMisstep_isPlace (u : CompilationUnit) {m : Misstep} (inside : m.index ≤ u.atoms.length) :
    ∃ file line text, u.failMisstep m =
      .phase u.phase file line m.index text (some (.violation m.violation)) ∧
        u.IsPlace m.index file line text := by
  have low : ¬ (m.index : Int) < 0 := by omega
  simp only [failMisstep, failAt, atom?, if_neg low, Int.toNat_natCast]
  cases found : u.atoms[m.index]? with
  | some a => exact ⟨a.file, a.line, a.text, rfl, Or.inl ⟨a, found, rfl, rfl, rfl⟩⟩
  | none =>
      have past := List.getElem?_eq_none_iff.mp found
      exact ⟨u.file, 0, "<end of input>", rfl, Or.inr ⟨by omega, rfl, rfl, rfl⟩⟩

/-- A translation fails exactly if a run ends with a misstep, which is what it reports. -/
theorem translate_eq_error {u v : CompilationUnit} {fault : Fault} :
    u.translate = .error (fault, v) ↔
      ∃ c m t, Cursor.Runs u.atoms ⟨0, u.translator⟩ c ∧ c.Ends u.atoms (.error (m, t)) ∧
        fault = (u.enter .convert).failMisstep m ∧ v = (u.enter .convert).absorb t := by
  have walks : Cursor.walk u.atoms ⟨0, u.translator⟩ =
      (u.enter .convert).translator.walk none 0 0 (u.enter .convert).atoms := by
    rw [Cursor.walk, Cursor.before_zero, List.drop_zero]
    rfl
  rw [translate, ← walks]
  constructor
  · intro failed
    cases walked : Cursor.walk u.atoms ⟨0, u.translator⟩ with
    | ok t =>
        rw [walked] at failed
        cases failed
    | error e =>
        rw [walked] at failed
        cases failed
        obtain ⟨c, runs, ends⟩ := Cursor.walk_eq_iff.mp walked
        exact ⟨c, e.1, e.2, runs, ends, rfl, rfl⟩
  · rintro ⟨c, m, t, runs, ends, rfl, rfl⟩
    rw [Cursor.walk_eq_iff.mpr ⟨c, runs, ends⟩]

end CompilationUnit

open Cursor in
/-- Faults of the translator point where they say. Whatever the unit, a translation that fails reports a
fault of its phase at an index up to the number of atoms, with the file, line and text of the atom there
or of the end of the input. It does not lie before the construct that was being translated; only a block
that is left open at the end is reported where it was opened, and of those the innermost that is no loop
with a closed brace. -/
theorem faults_point_where_they_say (u v : CompilationUnit) (fault : Fault)
    (failed : u.translate = .error (fault, v)) :
    ∃ m file line text c,
      fault = .phase .convert file line m.index text (some (.violation m.violation)) ∧
      m.index ≤ u.atoms.length ∧ u.IsPlace m.index file line text ∧
      Runs u.atoms ⟨0, u.translator⟩ c ∧ Stops u.atoms ⟨0, u.translator⟩ c m := by
  obtain ⟨c, m, t, runs, ends, rfl, -⟩ := CompilationUnit.translate_eq_error.mp failed
  obtain ⟨stops, inside⟩ := Runs.stops runs rfl ends
  obtain ⟨file, line, text, reported, place⟩ :=
    (u.enter .convert).failMisstep_isPlace (m := m) inside
  exact ⟨m, file, line, text, c, reported, inside, place, runs, stops⟩

open Cursor in
/-- A `for` that the input breaks off is reported at the end; a function that is left open around a loop
with a closed brace is reported at its first atom, though the run has passed it. -/
theorem faults_point_where_they_say_open :
    let unit (lines : List String) : CompilationUnit :=
      { file := "a.dawn", atoms := lex "b.dawn" (lines.map Utf8.encode) }
    let broken := unit ["int x = 2", "for i from 1"]
    let unended := unit ["function f() \x7b", "for i from 1 to 2 \x7b", "\x7d"]
    (∃ v c, broken.translate = .error (.phase .convert "a.dawn" 0 8 "<end of input>"
        (some (.violation .endOfInput)), v) ∧
      broken.IsPlace 8 "a.dawn" 0 "<end of input>" ∧ Runs broken.atoms ⟨0, broken.translator⟩ c ∧
      Stops broken.atoms ⟨0, broken.translator⟩ c ⟨8, .endOfInput⟩) ∧
    ∃ v c, unended.translate = .error (.phase .convert "b.dawn" 1 0 "function"
        (some (.violation (.neverClosed .function))), v) ∧
      unended.IsPlace 0 "b.dawn" 1 "function" ∧ Runs unended.atoms ⟨0, unended.translator⟩ c ∧
      Stops unended.atoms ⟨0, unended.translator⟩ c ⟨0, .neverClosed .function⟩ := by
  intro unit broken unended
  have told (u : CompilationUnit) (index : Nat) {v : CompilationUnit} {file text : String} {line : Int}
      {violation : Violation}
      (failed : u.translate = .error (.phase .convert file line index text
        (some (.violation violation)), v)) :
      ∃ c, u.IsPlace index file line text ∧ Runs u.atoms ⟨0, u.translator⟩ c ∧
        Stops u.atoms ⟨0, u.translator⟩ c ⟨index, violation⟩ := by
    obtain ⟨⟨_, _⟩, _, _, _, c, same, -, place, runs, stops⟩ :=
      faults_point_where_they_say u v _ failed
    simp only [Fault.phase.injEq, Int.natCast_inj, Option.some.injEq, Fault.violation.injEq] at same
    obtain ⟨-, rfl, rfl, rfl, rfl, rfl⟩ := same
    exact ⟨c, place, runs, stops⟩
  constructor
  · obtain ⟨c, holds⟩ := told broken 8 rfl
    exact ⟨_, c, rfl, holds⟩
  · obtain ⟨c, holds⟩ := told unended 0 rfl
    exact ⟨_, c, rfl, holds⟩

end DawnC
