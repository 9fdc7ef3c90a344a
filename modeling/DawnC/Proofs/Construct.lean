import DawnC.Translator

set_option autoImplicit false

namespace DawnC

theorem bind_eq_ok {ε α β : Type} {first : Except ε α} {next : α → Except ε β} {value : β} :
    (first >>= next) = .ok value ↔ ∃ a, first = .ok a ∧ next a = .ok value := by
  cases first with
  | error e => simp [bind, Except.bind]
  | ok a => simp [bind, Except.bind]

theorem bind_eq_error {ε α β : Type} {first : Except ε α} {next : α → Except ε β} {e : ε} :
    (first >>= next) = .error e ↔ first = .error e ∨ ∃ a, first = .ok a ∧ next a = .error e := by
  cases first with
  | error e' => simp [bind, Except.bind]
  | ok a => simp [bind, Except.bind]

theorem pure_eq_ok {ε α : Type} (value : α) : (pure value : Except ε α) = .ok value := rfl

theorem mapError_eq_ok {ε ε' α : Type} {f : ε → ε'} {result : Except ε α} {value : α} :
    result.mapError f = .ok value ↔ result = .ok value := by
  constructor
  · intro success
    cases result with
    | error e => cases success
    | ok a =>
        cases success
        rfl
  · rintro rfl
    rfl

theorem mapError_eq_error {ε ε' α : Type} {f : ε → ε'} {result : Except ε α} {e : ε'} :
    result.mapError f = .error e ↔ ∃ e', result = .error e' ∧ f e' = e := by
  constructor
  · intro failed
    cases result with
    | error e' =>
        cases failed
        exact ⟨e', rfl, rfl⟩
    | ok a => cases failed
  · rintro ⟨e', rfl, rfl⟩
    rfl

theorem toOption_map_eq_some {ε α β : Type} {result : Except ε α} {f : α → β} {value : β} :
    result.toOption.map f = some value ↔ ∃ a, result = .ok a ∧ f a = value := by
  cases result with
  | error e => simp [Except.toOption]
  | ok a => simp [Except.toOption]

namespace Atom

def IsWord (a : Atom) (text : String) : Prop := a.kind = .word ∧ a.text = text

def IsName (a : Atom) : Prop := a.kind = .word ∧ isIdentifier a.text = true

def IsBound (a : Atom) (symbols : SymbolTable) : Prop :=
  a.kind = .word ∧ (isInteger a.text = true ∨ symbols.classOf a.text = .int)

end Atom

/-- The words that begin a construct of their own; any other word is a name. -/
def leadingWords : List String :=
  ["print", "print_str", "print_int", "print_list_element", "int", "bool", "string", "List<int>",
   "for", "then", "function", "if", "else", "include", "#include"]

theorem expect_eq_ok {text : String} {index : Nat} {atoms : List Atom} {u : Unit} :
    expect text index atoms = .ok u ↔ ∃ a rest, atoms = a :: rest ∧ a.is text = true := by
  cases atoms with
  | nil => simp [expect]
  | cons a rest =>
      by_cases found : a.is text = true
      · simp [expect, found]
      · simp [expect, found]

theorem expectName_eq_ok {index : Nat} {atoms : List Atom} {name : String} :
    expectName index atoms = .ok name ↔
      ∃ a rest, atoms = a :: rest ∧ a.IsName ∧ name = a.text := by
  cases atoms with
  | nil => simp [expectName]
  | cons a rest =>
      simp only [expectName, Bool.and_eq_true, decide_eq_true_eq, Atom.IsName]
      constructor
      · intro success
        split at success
        · rename_i valid
          cases success
          exact ⟨a, rest, rfl, valid, rfl⟩
        · cases success
      · rintro ⟨b, tail, shape, valid, rfl⟩
        cases shape
        simp only [valid, and_self, ↓reduceIte]

theorem expectBound_eq_ok {symbols : SymbolTable} {index : Nat} {atoms : List Atom}
    {bound : String} :
    expectBound symbols index atoms = .ok bound ↔
      ∃ a rest, atoms = a :: rest ∧ a.IsBound symbols ∧ bound = a.text := by
  cases atoms with
  | nil => simp [expectBound]
  | cons a rest =>
      simp only [expectBound, Bool.and_eq_true, Bool.or_eq_true, decide_eq_true_eq, Atom.IsBound]
      constructor
      · intro success
        split at success
        · rename_i valid
          cases success
          exact ⟨a, rest, rfl, valid, rfl⟩
        · cases success
      · rintro ⟨b, tail, shape, valid, rfl⟩
        cases shape
        rw [if_pos valid]

theorem expression_eq_ok {index : Nat} {atoms : List Atom} {text : String} :
    expression index atoms = .ok text ↔
      atoms ≠ [] ∧ text = spaced (atoms.map Atom.text) := by
  cases atoms with
  | nil => simp [expression]
  | cons a rest =>
      simp only [expression, Except.ok.injEq, ne_eq, reduceCtorEq, not_false_eq_true, true_and]
      exact eq_comm

theorem declareAt_eq_ok {symbols symbols' : SymbolTable} {index : Nat} {name : String}
    {cls : SymbolClass} :
    declareAt symbols index name cls = .ok symbols' ↔ symbols.declare name cls = .ok symbols' := by
  simp only [declareAt]
  cases symbols.declare name cls <;> simp

namespace Translator

/-- The state after a brace-closed loop at the top of the stack, if there is one, was closed. -/
def settle (t : Translator) : Translator :=
  match t.blocks with
  | [] => t
  | b :: outer => if b.isClosedLoop then t.closeBlock b outer else t

def loopLine (name low high : String) : String :=
  "for(int " ++ name ++ " = " ++ low ++ "; " ++ name ++ " <= " ++ high ++ "; " ++ name ++ "++)\x7b"

def signature (name : String) (parameters : List String) : String :=
  "void " ++ name ++ "(" ++ String.intercalate ", " parameters ++ ")"

/-- What the construct that starts with `a`, at index `i` and before `rest`, can do: how many atoms
it takes and the state it leaves. -/
inductive Effect (t : Translator) (previous : Option Atom) (i : Nat) (a : Atom) (rest : List Atom) :
    Nat → Translator → Prop where
  | print {arg : String} {taken : Nat} (word : a.IsWord "print")
      (args : arguments (i + 1) rest = .ok ([arg], taken)) :
      Effect t previous i a rest (1 + taken) (t.emit ("printf(" ++ arg ++ ");"))
  | printFormatted {keyword verb arg : String} {taken : Nat} (word : a.IsWord keyword)
      (rule : (keyword, verb) ∈ [("print_str", "%s"), ("print_int", "%d")])
      (args : arguments (i + 1) rest = .ok ([arg], taken)) :
      Effect t previous i a rest (1 + taken)
        (t.emit ("printf(\"" ++ verb ++ "\\n\", " ++ arg ++ ");"))
  | printListElement {list position : String} {taken : Nat} (word : a.IsWord "print_list_element")
      (args : arguments (i + 1) rest = .ok ([list, position], taken))
      (isList : t.symbols.classOf list = .intList) :
      Effect t previous i a rest (1 + taken)
        (t.emit ("printf(\"%d\\n\", " ++ list ++ "[" ++ position ++ "]);"))
  | declaration {cls : SymbolClass} {name equals : Atom} {tail : List Atom} {symbols : SymbolTable}
      (word : a.IsWord cls.name) (scalar : cls ∈ [SymbolClass.int, .bool, .string])
      (shape : rest = name :: equals :: tail) (isName : name.IsName) (isEquals : equals.is "=")
      (value : (statement (a :: rest)).drop 3 ≠ [])
      (declared : t.symbols.declare name.text cls = .ok symbols) :
      Effect t previous i a rest (statement (a :: rest)).length
        ({ t with symbols }.emit (declarator cls name.text ++ " = " ++
          spaced (((statement (a :: rest)).drop 3).map Atom.text) ++ ";"))
  | intList {name equals bracket : Atom} {tail : List Atom} {elements : String} {taken : Nat}
      {symbols : SymbolTable} (word : a.IsWord "List<int>")
      (shape : rest = name :: equals :: bracket :: tail) (isName : name.IsName)
      (isEquals : equals.is "=") (isBracket : bracket.is "[")
      (read : elementsFrom [] 0 (i + 4) tail = .ok (elements, taken))
      (declared : t.symbols.declare name.text .intList = .ok symbols) :
      Effect t previous i a rest (4 + taken)
        ({ t with symbols }.emit ("int " ++ name.text ++ "[] = \x7b" ++ elements ++ "\x7d;"))
  | assignment {equals : Atom} {tail : List Atom} (isWord : a.kind = .word)
      (free : a.text ∉ leadingWords)
      (assignable : t.symbols.classOf a.text = .int ∨ t.symbols.classOf a.text = .bool)
      (shape : rest = equals :: tail) (isEquals : equals.is "=") (together : a.stmt = equals.stmt)
      (value : (statement (a :: rest)).drop 2 ≠ []) :
      Effect t previous i a rest (statement (a :: rest)).length
        (t.emit (a.text ++ " = " ++ spaced (((statement (a :: rest)).drop 2).map Atom.text) ++ ";"))
  | call {args : List String} {taken : Nat} (isWord : a.kind = .word)
      (free : a.text ∉ leadingWords) (isFunction : t.symbols.classOf a.text = .function)
      (read : arguments (i + 1) rest = .ok (args, taken))
      (resolved : unresolvedArgument? t.symbols 1 args = none) :
      Effect t previous i a rest (1 + taken)
        (t.emit (a.text ++ "(" ++ String.intercalate ", " args ++ ");"))
  | forLoop {name start low stop high : Atom} {tail : List Atom} {symbols : SymbolTable}
      (word : a.IsWord "for") (shape : rest = name :: start :: low :: stop :: high :: tail)
      (isName : name.IsName) (isFrom : start.is "from") (lowBound : low.IsBound t.symbols)
      (isTo : stop.is "to") (highBound : high.IsBound t.symbols)
      (declared : t.symbols.declare name.text .int = .ok symbols) :
      Effect t previous i a rest 6
        ({ t with symbols }.openBlock .loop i (loopLine name.text low.text high.text))
  | thenEnd {last : Atom} {tail : List Atom} {b : Block} {outer : List Block}
      (word : a.IsWord "then") (shape : rest = last :: tail) (isEnd : last.is "end")
      (blocks : t.blocks = b :: outer) (isLoop : b.kind = .loop) :
      Effect t previous i a rest 2 (t.closeBlock b outer)
  | conditional (word : a.IsWord "if") (condition : (statement (a :: rest)).drop 1 ≠ []) :
      Effect t previous i a rest (statement (a :: rest)).length
        (t.openBlock .conditional i
          ("if(" ++ spaced (((statement (a :: rest)).drop 1).map Atom.text) ++ ")\x7b"))
  | elseIf {next : Atom} {tail : List Atom} (word : a.IsWord "else")
      (afterBrace : previous.any (·.is "\x7d") = true) (afterIf : t.closed = some .conditional)
      (shape : rest = next :: tail) (isIf : next.is "if") (together : a.stmt = next.stmt) :
      Effect t previous i a rest 1 (t.emit "else")
  | otherwise (word : a.IsWord "else") (afterBrace : previous.any (·.is "\x7d") = true)
      (afterIf : t.closed = some .conditional)
      (alone : ∀ next tail, rest = next :: tail → next.is "if" = true → a.stmt ≠ next.stmt) :
      Effect t previous i a rest 1 (t.openBlock .alternative i "else\x7b")
  | mainFunction {name : Atom} {tail : List Atom} {params : Parameters} (word : a.IsWord "function")
      (atTop : t.blocks = []) (shape : rest = name :: tail) (isMain : name.IsWord entryFunction)
      (read : parameters t.symbols (i + 2) tail = .ok params) (bare : params.texts = []) :
      Effect t previous i a rest (2 + params.taken)
        ({ t with symbols := params.symbols }.openBlock .function i "int main()\x7b")
  | namedFunction {name : Atom} {tail : List Atom} {params : Parameters}
      (word : a.IsWord "function") (atTop : t.blocks = []) (shape : rest = name :: tail)
      (isName : name.IsName) (notMain : name.text ≠ entryFunction)
      (read : parameters t.symbols (i + 2) tail = .ok params) :
      Effect t previous i a rest (2 + params.taken)
        ({ t with
            symbols := params.symbols
            prototypes := t.prototypes ++ [signature name.text params.texts ++ ";"] }.openBlock
          .function i (signature name.text params.texts ++ "\x7b"))
  | closeBrace {b : Block} {outer : List Block} (notWord : a.kind ≠ .word) (brace : a.is "\x7d")
      (blocks : t.settle.blocks = b :: outer) (isLoop : b.kind = .loop) :
      Effect t previous i a rest 1 (t.settle.closeBrace b outer)
  | closeBlock {b : Block} {outer : List Block} (notWord : a.kind ≠ .word) (brace : a.is "\x7d")
      (blocks : t.settle.blocks = b :: outer) (notLoop : b.kind ≠ .loop) :
      Effect t previous i a rest 1 (t.settle.closeBlock b outer)
  | directive (isWord : a.kind = .word) (isInclude : a.text = "include" ∨ a.text = "#include") :
      Effect t previous i a rest 2 t

variable {t t' : Translator} {previous : Option Atom} {i n : Nat} {a : Atom} {rest : List Atom}

theorem print_effect (word : a.IsWord "print") (success : t.print i (a :: rest) = .ok (n, t')) :
    Effect t previous i a rest n t' := by
  simp only [print, List.drop_succ_cons, List.drop_zero, bind_eq_ok] at success
  obtain ⟨⟨args, taken⟩, read, success⟩ := success
  dsimp only at success
  split at success
  · cases success
    exact .print word read
  · cases success

theorem printFormatted_effect {keyword verb : String} (word : a.IsWord keyword)
    (rule : (keyword, verb) ∈ [("print_str", "%s"), ("print_int", "%d")])
    (success : t.printFormatted i (a :: rest) keyword verb = .ok (n, t')) :
    Effect t previous i a rest n t' := by
  simp only [printFormatted, List.drop_succ_cons, List.drop_zero, bind_eq_ok] at success
  obtain ⟨⟨args, taken⟩, read, success⟩ := success
  dsimp only at success
  split at success
  · cases success
    exact .printFormatted word rule read
  · cases success

theorem printListElement_effect (word : a.IsWord "print_list_element")
    (success : t.printListElement i (a :: rest) = .ok (n, t')) :
    Effect t previous i a rest n t' := by
  simp only [printListElement, List.drop_succ_cons, List.drop_zero, bind_eq_ok] at success
  obtain ⟨⟨args, taken⟩, read, success⟩ := success
  dsimp only at success
  split at success
  · split at success
    · rename_i isList
      cases success
      exact .printListElement word read isList
    · cases success
  · cases success

theorem declaration_effect (cls : SymbolClass) (word : a.IsWord cls.name)
    (scalar : cls ∈ [SymbolClass.int, .bool, .string])
    (success : t.declaration i (a :: rest) cls = .ok (n, t')) :
    Effect t previous i a rest n t' := by
  simp only [declaration, List.drop_succ_cons, List.drop_zero, bind_eq_ok, expectName_eq_ok,
    expect_eq_ok, expression_eq_ok, declareAt_eq_ok] at success
  obtain ⟨_, ⟨name, tail, rfl, isName, rfl⟩, _, ⟨equals, tail', shape, isEquals⟩, _,
    ⟨value, rfl⟩, symbols, declared, success⟩ := success
  simp only [List.drop_succ_cons, List.drop_zero] at shape
  subst shape
  cases success
  exact .declaration word scalar rfl isName isEquals value declared

theorem intList_effect (word : a.IsWord "List<int>")
    (success : t.intList i (a :: rest) = .ok (n, t')) :
    Effect t previous i a rest n t' := by
  simp only [intList, List.drop_succ_cons, List.drop_zero, bind_eq_ok, expectName_eq_ok,
    expect_eq_ok, declareAt_eq_ok] at success
  obtain ⟨_, ⟨name, tail, rfl, isName, rfl⟩, _, ⟨equals, tail', shape, isEquals⟩, _,
    ⟨bracket, tail'', shape', isBracket⟩, ⟨elements, taken⟩, read, symbols, declared, success⟩ :=
    success
  simp only [List.drop_succ_cons, List.drop_zero] at shape
  subst shape
  simp only [List.drop_succ_cons, List.drop_zero] at shape'
  subst shape'
  cases success
  exact .intList word rfl isName isEquals isBracket read declared

theorem assignment_effect {equals : Atom} {tail : List Atom} (isWord : a.kind = .word)
    (free : a.text ∉ leadingWords)
    (assignable : t.symbols.classOf a.text = .int ∨ t.symbols.classOf a.text = .bool)
    (success : (if equals.is "=" && a.stmt = equals.stmt then
        t.assignment i (a :: equals :: tail) a.text
      else throw ⟨i, .expectedAssignment a.text⟩) = .ok (n, t')) :
    Effect t previous i a (equals :: tail) n t' := by
  split at success
  · rename_i heads
    simp only [Bool.and_eq_true, decide_eq_true_eq] at heads
    simp only [assignment, bind_eq_ok, expression_eq_ok] at success
    obtain ⟨_, ⟨value, rfl⟩, success⟩ := success
    cases success
    exact .assignment isWord free assignable rfl heads.1 heads.2 value
  · cases success

theorem identifier_effect (isWord : a.kind = .word) (free : a.text ∉ leadingWords)
    (success : t.identifier i (a :: rest) a = .ok (n, t')) :
    Effect t previous i a rest n t' := by
  simp only [identifier, List.drop_succ_cons, List.drop_zero] at success
  split at success
  · rename_i isInt
    split at success
    · exact assignment_effect isWord free (Or.inl isInt) success
    · cases success
  · rename_i isBool
    split at success
    · exact assignment_effect isWord free (Or.inr isBool) success
    · cases success
  · rename_i isFunction
    simp only [call, List.drop_succ_cons, List.drop_zero, bind_eq_ok] at success
    obtain ⟨⟨args, taken⟩, read, success⟩ := success
    dsimp only at success
    split at success
    · cases success
    · rename_i resolved
      cases success
      exact .call isWord free isFunction read resolved
  · cases success
  · cases success

theorem forLoop_effect (word : a.IsWord "for") (success : t.forLoop i (a :: rest) = .ok (n, t')) :
    Effect t previous i a rest n t' := by
  simp only [forLoop, List.drop_succ_cons, List.drop_zero, bind_eq_ok, expectName_eq_ok,
    expect_eq_ok, expectBound_eq_ok, declareAt_eq_ok] at success
  obtain ⟨_, ⟨name, tail₁, rfl, isName, rfl⟩, _, ⟨start, tail₂, shape₂, isFrom⟩, _,
    ⟨low, tail₃, shape₃, lowBound, rfl⟩, _, ⟨stop, tail₄, shape₄, isTo⟩, _,
    ⟨high, tail₅, shape₅, highBound, rfl⟩, symbols, declared, success⟩ := success
  simp only [List.drop_succ_cons, List.drop_zero] at shape₂
  subst shape₂
  simp only [List.drop_succ_cons, List.drop_zero] at shape₃
  subst shape₃
  simp only [List.drop_succ_cons, List.drop_zero] at shape₄
  subst shape₄
  simp only [List.drop_succ_cons, List.drop_zero] at shape₅
  subst shape₅
  cases success
  exact .forLoop word rfl isName isFrom lowBound isTo highBound declared

theorem thenEnd_effect (word : a.IsWord "then") (success : t.thenEnd i (a :: rest) = .ok (n, t')) :
    Effect t previous i a rest n t' := by
  simp only [thenEnd, List.drop_succ_cons, List.drop_zero, bind_eq_ok, expect_eq_ok] at success
  obtain ⟨_, ⟨last, tail, rfl, isEnd⟩, success⟩ := success
  split at success
  · rename_i b outer blocks
    split at success
    · rename_i isLoop
      cases success
      exact .thenEnd word rfl isEnd blocks isLoop
    · cases success
  · cases success

theorem conditional_effect (word : a.IsWord "if")
    (success : t.conditional i (a :: rest) = .ok (n, t')) :
    Effect t previous i a rest n t' := by
  simp only [conditional, bind_eq_ok, expression_eq_ok] at success
  obtain ⟨_, ⟨condition, rfl⟩, success⟩ := success
  cases success
  exact .conditional word condition

theorem alternative_effect (word : a.IsWord "else")
    (success : t.alternative i (a :: rest) previous a = .ok (n, t')) :
    Effect t previous i a rest n t' := by
  simp only [alternative, List.drop_succ_cons, List.drop_zero] at success
  split at success
  · rename_i after
    simp only [Bool.and_eq_true, decide_eq_true_eq] at after
    split at success
    · rename_i next tail
      split at success
      · rename_i heads
        simp only [Bool.and_eq_true, decide_eq_true_eq] at heads
        cases success
        exact .elseIf word after.1 after.2 rfl heads.1 heads.2
      · rename_i apart
        simp only [Bool.and_eq_true, decide_eq_true_eq, not_and] at apart
        cases success
        refine .otherwise word after.1 after.2 ?_
        intro next' tail' shape isIf
        cases shape
        exact apart isIf
    · cases success
      refine .otherwise word after.1 after.2 ?_
      intro next' tail' shape
      cases shape
  · cases success

theorem function_effect (word : a.IsWord "function")
    (success : t.function i (a :: rest) = .ok (n, t')) :
    Effect t previous i a rest n t' := by
  simp only [function, List.drop_succ_cons, List.drop_zero] at success
  split at success
  · cases success
  · rename_i atTop
    have atTop : t.blocks = [] := by simpa using atTop
    simp only [bind_eq_ok, mapError_eq_ok, expectName_eq_ok] at success
    obtain ⟨_, ⟨name, tail, rfl, isName, rfl⟩, params, read, success⟩ := success
    simp only [List.drop_succ_cons, List.drop_zero] at read
    split at success
    · rename_i isMain
      split at success
      · cases success
      · rename_i bare
        cases success
        exact .mainFunction word atTop rfl ⟨isName.1, isMain⟩ read (by simpa using bare)
    · rename_i notMain
      cases success
      exact .namedFunction word atTop rfl isName notMain read

theorem applyClose_settle :
    t.blockClose i = blockClose.applyClose i t.settle t.settle.blocks := by
  cases blocks : t.blocks with
  | nil => simp only [blockClose, settle, blocks, blockClose.applyClose]
  | cons b outer =>
      simp only [blockClose, settle, blocks]
      split
      · rfl
      · rw [blocks]

theorem blockClose_effect (notWord : a.kind ≠ .word) (brace : a.is "\x7d")
    (success : t.blockClose i = .ok (n, t')) : Effect t previous i a rest n t' := by
  rw [applyClose_settle] at success
  cases blocks : t.settle.blocks with
  | nil => simp [blocks, blockClose.applyClose] at success
  | cons b outer =>
      simp only [blocks, blockClose.applyClose] at success
      split at success
      · rename_i isLoop
        cases success
        exact .closeBrace notWord brace blocks isLoop
      · rename_i notLoop
        cases success
        exact .closeBlock notWord brace blocks notLoop

theorem keeping_eq_ok {result : Except Misstep (Nat × Translator)} :
    t.keeping result = .ok (n, t') ↔ result = .ok (n, t') := mapError_eq_ok

theorem construct_effect (success : t.construct previous i a (a :: rest) = .ok (n, t')) :
    Effect t previous i a rest n t' := by
  simp only [construct] at success
  split at success
  · rename_i notWord
    split at success
    · rename_i brace
      exact blockClose_effect notWord brace success
    · cases success
  · rename_i isWord
    have isWord : a.kind = .word := by simpa using isWord
    split at success
    · exact print_effect ⟨isWord, by assumption⟩ (keeping_eq_ok.mp success)
    · exact printFormatted_effect ⟨isWord, by assumption⟩ (by simp) (keeping_eq_ok.mp success)
    · exact printFormatted_effect ⟨isWord, by assumption⟩ (by simp) (keeping_eq_ok.mp success)
    · exact printListElement_effect ⟨isWord, by assumption⟩ (keeping_eq_ok.mp success)
    · exact declaration_effect .int ⟨isWord, by assumption⟩ (by simp) (keeping_eq_ok.mp success)
    · exact declaration_effect .bool ⟨isWord, by assumption⟩ (by simp) (keeping_eq_ok.mp success)
    · exact declaration_effect .string ⟨isWord, by assumption⟩ (by simp) (keeping_eq_ok.mp success)
    · exact intList_effect ⟨isWord, by assumption⟩ (keeping_eq_ok.mp success)
    · exact forLoop_effect ⟨isWord, by assumption⟩ (keeping_eq_ok.mp success)
    · exact thenEnd_effect ⟨isWord, by assumption⟩ (keeping_eq_ok.mp success)
    · exact function_effect ⟨isWord, by assumption⟩ success
    · exact conditional_effect ⟨isWord, by assumption⟩ (keeping_eq_ok.mp success)
    · exact alternative_effect ⟨isWord, by assumption⟩ (keeping_eq_ok.mp success)
    · cases success
      exact .directive isWord (Or.inl (by assumption))
    · cases success
      exact .directive isWord (Or.inr (by assumption))
    · refine identifier_effect isWord ?_ (keeping_eq_ok.mp success)
      simp only [leadingWords, List.mem_cons, List.not_mem_nil, or_false, not_or]
      exact ⟨by assumption, by assumption, by assumption, by assumption, by assumption,
        by assumption, by assumption, by assumption, by assumption, by assumption,
        by assumption, by assumption, by assumption, by assumption, by assumption⟩

/-- A word that leads no construct of its own is a name. -/
theorem construct_of_free (isWord : a.kind = .word) (free : a.text ∉ leadingWords) :
    t.construct previous i a (a :: rest) = t.keeping (t.identifier i (a :: rest) a) := by
  simp only [leadingWords, List.mem_cons, List.not_mem_nil, or_false, not_or] at free
  simp only [construct, isWord, ne_eq, not_true_eq_false, ↓reduceIte]
  split <;> simp_all

theorem Effect.construct (effect : Effect t previous i a rest n t') :
    t.construct previous i a (a :: rest) = .ok (n, t') := by
  cases effect with
  | print word args =>
      simp [Translator.construct, word.1, word.2, keeping_eq_ok, Translator.print, args, bind_eq_ok,
        pure_eq_ok]
  | printFormatted word rule args =>
      simp only [List.mem_cons, Prod.mk.injEq, List.not_mem_nil, or_false] at rule
      obtain ⟨rfl, rfl⟩ | ⟨rfl, rfl⟩ := rule
      · simp [Translator.construct, word.1, word.2, keeping_eq_ok, Translator.printFormatted, args,
          bind_eq_ok, pure_eq_ok]
      · simp [Translator.construct, word.1, word.2, keeping_eq_ok, Translator.printFormatted, args,
          bind_eq_ok, pure_eq_ok]
  | printListElement word args isList =>
      simp [Translator.construct, word.1, word.2, keeping_eq_ok, Translator.printListElement, args,
        isList, bind_eq_ok, pure_eq_ok]
  | @declaration cls name equals tail symbols word scalar shape isName isEquals value declared =>
      have success : t.declaration i (a :: rest) cls = .ok ((statement (a :: rest)).length,
          { t with symbols }.emit (declarator cls name.text ++ " = " ++
            spaced (((statement (a :: rest)).drop 3).map Atom.text) ++ ";")) := by
        simp only [Translator.declaration, bind_eq_ok, expectName_eq_ok, expect_eq_ok,
          expression_eq_ok, declareAt_eq_ok]
        exact ⟨_, ⟨name, equals :: tail, shape, isName, rfl⟩, (), ⟨equals, tail, by simp [shape],
          isEquals⟩, _, ⟨value, rfl⟩, symbols, declared, rfl⟩
      simp only [List.mem_cons, List.not_mem_nil, or_false] at scalar
      rcases scalar with rfl | rfl | rfl
      all_goals
        simp [Translator.construct, word.1, word.2, SymbolClass.name, keeping_eq_ok, success]
  | @intList name equals bracket tail elements taken symbols word shape isName isEquals isBracket
      read declared =>
      simp only [Translator.construct, word.1, word.2, ne_eq, not_true_eq_false, ↓reduceIte,
        keeping_eq_ok, Translator.intList, bind_eq_ok, expectName_eq_ok, expect_eq_ok,
        declareAt_eq_ok]
      subst shape
      exact ⟨_, ⟨name, _, rfl, isName, rfl⟩, (), ⟨equals, _, rfl, isEquals⟩, (),
        ⟨bracket, _, rfl, isBracket⟩, _, read, symbols, declared, rfl⟩
  | @assignment equals tail isWord free assignable shape isEquals together value =>
      have success : t.assignment i (a :: rest) a.text = .ok ((statement (a :: rest)).length,
          t.emit (a.text ++ " = " ++ spaced (((statement (a :: rest)).drop 2).map Atom.text) ++
            ";")) := by
        simp only [Translator.assignment, bind_eq_ok, expression_eq_ok]
        exact ⟨_, ⟨value, rfl⟩, rfl⟩
      rw [construct_of_free isWord free, keeping_eq_ok]
      rcases assignable with isInt | isBool
      · simpa [identifier, isInt, shape, isEquals, together] using success
      · simpa [identifier, isBool, shape, isEquals, together] using success
  | call isWord free isFunction read resolved =>
      rw [construct_of_free isWord free, keeping_eq_ok]
      simp [identifier, isFunction, Translator.call, read, resolved, bind_eq_ok, pure_eq_ok]
  | @forLoop name start low stop high tail symbols word shape isName isFrom lowBound isTo highBound
      declared =>
      simp only [Translator.construct, word.1, word.2, ne_eq, not_true_eq_false, ↓reduceIte,
        keeping_eq_ok, Translator.forLoop, bind_eq_ok, expectName_eq_ok, expect_eq_ok,
        expectBound_eq_ok, declareAt_eq_ok]
      subst shape
      exact ⟨_, ⟨name, _, rfl, isName, rfl⟩, (), ⟨start, _, rfl, isFrom⟩, _,
        ⟨low, _, rfl, lowBound, rfl⟩, (), ⟨stop, _, rfl, isTo⟩, _,
        ⟨high, _, rfl, highBound, rfl⟩, symbols, declared, rfl⟩
  | @thenEnd last tail b outer word shape isEnd blocks isLoop =>
      simp only [Translator.construct, word.1, word.2, ne_eq, not_true_eq_false, ↓reduceIte,
        keeping_eq_ok, Translator.thenEnd, bind_eq_ok, expect_eq_ok]
      exact ⟨(), ⟨last, tail, shape, isEnd⟩, by simp [blocks, isLoop, pure_eq_ok]⟩
  | conditional word condition =>
      simp only [Translator.construct, word.1, word.2, ne_eq, not_true_eq_false, ↓reduceIte,
        keeping_eq_ok, Translator.conditional, bind_eq_ok, expression_eq_ok]
      exact ⟨_, ⟨condition, rfl⟩, rfl⟩
  | elseIf word afterBrace afterIf shape isIf together =>
      simp [Translator.construct, word.1, word.2, keeping_eq_ok, alternative, afterBrace, afterIf,
        shape, isIf, together, pure_eq_ok]
  | otherwise word afterBrace afterIf alone =>
      cases rest with
      | nil =>
          simp [Translator.construct, word.1, word.2, keeping_eq_ok, alternative, afterBrace,
            afterIf, pure_eq_ok]
      | cons next tail =>
          have apart : ¬ (next.is "if" = true ∧ a.stmt = next.stmt) :=
            fun both => alone next tail rfl both.1 both.2
          simp [Translator.construct, word.1, word.2, keeping_eq_ok, alternative, afterBrace,
            afterIf, pure_eq_ok, apart]
  | @mainFunction name tail params word atTop shape isMain read bare =>
      have isName : name.IsName := ⟨isMain.1, by rw [isMain.2]; decide⟩
      simp only [Translator.construct, word.1, word.2, ne_eq, not_true_eq_false, ↓reduceIte,
        Translator.function, atTop, List.isEmpty_nil, Bool.not_true, Bool.false_eq_true,
        bind_eq_ok, mapError_eq_ok, expectName_eq_ok]
      subst shape
      exact ⟨_, ⟨name, _, rfl, isName, rfl⟩, params, read,
        by simp [isMain.2, bare, pure_eq_ok]⟩
  | @namedFunction name tail params word atTop shape isName notMain read =>
      simp only [Translator.construct, word.1, word.2, ne_eq, not_true_eq_false, ↓reduceIte,
        Translator.function, atTop, List.isEmpty_nil, Bool.not_true, Bool.false_eq_true,
        bind_eq_ok, mapError_eq_ok, expectName_eq_ok]
      subst shape
      exact ⟨_, ⟨name, _, rfl, isName, rfl⟩, params, read,
        by simp [notMain, pure_eq_ok, signature]⟩
  | closeBrace notWord brace blocks isLoop =>
      simp [Translator.construct, notWord, brace, applyClose_settle, blocks, blockClose.applyClose,
        isLoop]
  | closeBlock notWord brace blocks notLoop =>
      simp [Translator.construct, notWord, brace, applyClose_settle, blocks, blockClose.applyClose,
        notLoop]
  | directive isWord isInclude =>
      rcases isInclude with text | text
      · simp [Translator.construct, isWord, text]
      · simp [Translator.construct, isWord, text]

/-- A construct succeeds exactly as `Effect` says. -/
theorem construct_eq_ok :
    t.construct previous i a (a :: rest) = .ok (n, t') ↔ Effect t previous i a rest n t' :=
  ⟨construct_effect, Effect.construct⟩

end Translator

end DawnC
