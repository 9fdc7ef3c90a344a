import DawnC.Analysis
import DawnC.Translator.Expression
import DawnC.Translator.State

set_option autoImplicit false

namespace DawnC.Translator

variable (t : Translator) (i : Nat) (atoms : List Atom)

/-- `print(X)`: the argument goes to `printf` as it is. -/
def print : Except Misstep (Nat × Translator) := do
  let (args, taken) ← arguments (i + 1) (atoms.drop 1)
  match args with
  | [arg] => pure (1 + taken, t.emit ("printf(" ++ arg ++ ");"))
  | _ => throw ⟨i, .takesOneArgument "print"⟩

/-- `print_str(X)` and `print_int(X)`. -/
def printFormatted (keyword verb : String) : Except Misstep (Nat × Translator) := do
  let (args, taken) ← arguments (i + 1) (atoms.drop 1)
  match args with
  | [arg] => pure (1 + taken, t.emit ("printf(\"" ++ verb ++ "\\n\", " ++ arg ++ ");"))
  | _ => throw ⟨i, .takesOneArgument keyword⟩

/-- `print_list_element(LIST, INDEX)`. -/
def printListElement : Except Misstep (Nat × Translator) := do
  let (args, taken) ← arguments (i + 1) (atoms.drop 1)
  match args with
  | [list, position] =>
    if t.symbols.classOf list = .intList then
      pure (1 + taken, t.emit ("printf(\"%d\\n\", " ++ list ++ "[" ++ position ++ "]);"))
    else throw ⟨i + 1, .notAList list⟩
  | _ => throw ⟨i, .takesListAndIndex⟩

/-- `TYPE NAME = EXPR` for an int, a bool or a string. -/
def declaration (cls : SymbolClass) : Except Misstep (Nat × Translator) := do
  let name ← expectName (i + 1) (atoms.drop 1)
  expect "=" (i + 2) (atoms.drop 2)
  let value ← expression (i + 3) ((statement atoms).drop 3)
  let symbols ← declareAt t.symbols (i + 1) name cls
  pure ((statement atoms).length,
    { t with symbols }.emit (declarator cls name ++ " = " ++ value ++ ";"))

/-- `List<int> NAME = [ELEMENTS]`. -/
def intList : Except Misstep (Nat × Translator) := do
  let name ← expectName (i + 1) (atoms.drop 1)
  expect "=" (i + 2) (atoms.drop 2)
  expect "[" (i + 3) (atoms.drop 3)
  let (elements, taken) ← elementsFrom [] 0 (i + 4) (atoms.drop 4)
  let symbols ← declareAt t.symbols (i + 1) name .intList
  pure (4 + taken, { t with symbols }.emit ("int " ++ name ++ "[] = \x7b" ++ elements ++ "\x7d;"))

/-- `NAME = EXPR` for a known int or bool. -/
def assignment (name : String) : Except Misstep (Nat × Translator) := do
  let value ← expression (i + 2) ((statement atoms).drop 2)
  pure ((statement atoms).length, t.emit (name ++ " = " ++ value ++ ";"))

/-- The first argument that is a name without being a variable, with its position from one. -/
def unresolvedArgument? (symbols : SymbolTable) : Nat → List String → Option (Nat × String)
  | _, [] => none
  | position, arg :: rest =>
    if isIdentifier arg && !symbols.isVariable arg && arg ≠ "true" && arg ≠ "false" then
      some (position, arg)
    else unresolvedArgument? symbols (position + 1) rest

/-- `NAME(ARGS)` for a known function. -/
def call (name : String) : Except Misstep (Nat × Translator) := do
  let (args, taken) ← arguments (i + 1) (atoms.drop 1)
  match unresolvedArgument? t.symbols 1 args with
  | some (position, arg) => throw ⟨i, .unresolvedArgument position arg⟩
  | none => pure (1 + taken, t.emit (name ++ "(" ++ String.intercalate ", " args ++ ");"))

/-- A statement that starts with a name: an assignment to a variable or the call of a function. -/
def identifier (a : Atom) : Except Misstep (Nat × Translator) :=
  match t.symbols.classOf a.text with
  | .int | .bool =>
    match atoms.drop 1 with
    | next :: _ =>
      if next.is "=" && a.stmt = next.stmt then t.assignment i atoms a.text
      else throw ⟨i, .expectedAssignment a.text⟩
    | [] => throw ⟨i, .expectedAssignment a.text⟩
  | .function => t.call i atoms a.text
  | .unknown => throw ⟨i, .unresolvedIdentifier⟩
  | cls => throw ⟨i, .notAStatement cls a.text⟩

/-- `for V from LO to HI`, both bounds included. -/
def forLoop : Except Misstep (Nat × Translator) := do
  let name ← expectName (i + 1) (atoms.drop 1)
  expect "from" (i + 2) (atoms.drop 2)
  let low ← expectBound t.symbols (i + 3) (atoms.drop 3)
  expect "to" (i + 4) (atoms.drop 4)
  let high ← expectBound t.symbols (i + 5) (atoms.drop 5)
  let symbols ← declareAt t.symbols (i + 1) name .int
  pure (6, { t with symbols }.openBlock .loop i
    ("for(int " ++ name ++ " = " ++ low ++ "; " ++ name ++ " <= " ++ high ++ "; " ++ name ++ "++)\x7b"))

/-- `then end` closes the innermost block, which has to be a loop. -/
def thenEnd : Except Misstep (Nat × Translator) := do
  expect "end" (i + 1) (atoms.drop 1)
  match t.blocks with
  | b :: rest =>
    if b.kind = .loop then pure (2, t.closeBlock b rest) else throw ⟨i, .thenWithoutLoop⟩
  | [] => throw ⟨i, .thenWithoutLoop⟩

/-- `if EXPR`: the condition is the rest of the statement. -/
def conditional : Except Misstep (Nat × Translator) := do
  let condition ← expression (i + 1) ((statement atoms).drop 1)
  pure ((statement atoms).length,
    t.openBlock .conditional i ("if(" ++ condition ++ ")\x7b"))

/-- `else` and `else if`, directly after the brace that closed an `if`. -/
def alternative (previous : Option Atom) (a : Atom) : Except Misstep (Nat × Translator) :=
  if previous.any (·.is "\x7d") && t.closed = some .conditional then
    match atoms.drop 1 with
    | next :: _ =>
      if next.is "if" && a.stmt = next.stmt then pure (1, t.emit "else")
      else pure (1, t.openBlock .alternative i "else\x7b")
    | [] => pure (1, t.openBlock .alternative i "else\x7b")
  else throw ⟨i, .elseWithoutIf⟩

/-- `function main()` and `function NAME(TYPE NAME, ...)`. Parameters read before a fault stay
declared. -/
def function : Step := do
  if !t.blocks.isEmpty then throw (⟨i, .functionNotAtTop⟩, t)
  let name ← (expectName (i + 1) (atoms.drop 1)).mapError (·, t)
  let params ← (parameters t.symbols (i + 2) (atoms.drop 2)).mapError
    fun (m, symbols) => (m, { t with symbols })
  let t := { t with symbols := params.symbols }
  if name = entryFunction then
    if !params.texts.isEmpty then throw (⟨i + 2, .mainTakesNoParameters⟩, t)
    pure (2 + params.taken, t.openBlock .function i "int main()\x7b")
  else
    let signature := "void " ++ name ++ "(" ++ String.intercalate ", " params.texts ++ ")"
    let t := { t with prototypes := t.prototypes ++ [signature ++ ";"] }
    pure (2 + params.taken, t.openBlock .function i (signature ++ "\x7b"))

/-- A closing brace. A loop whose own brace was read is closed first; then the brace applies to the
block around it. -/
def blockClose : Step :=
  match t.blocks with
  | [] => .error (⟨i, .unexpectedClose⟩, t)
  | b :: rest =>
    if b.isClosedLoop then
      applyClose (t.closeBlock b rest) rest
    else applyClose t (b :: rest)
where
  /-- Applies the brace to the first of `blocks`, the open blocks of `t`. -/
  applyClose (t : Translator) : List Block → Step
    | [] => .error (⟨i, .unexpectedClose⟩, t)
    | b :: rest =>
      if b.kind = .loop then .ok (1, t.closeBrace b rest) else .ok (1, t.closeBlock b rest)

end DawnC.Translator
