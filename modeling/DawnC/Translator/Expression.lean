import DawnC.CompilationUnit

set_option autoImplicit false

namespace DawnC

/-- The next atom has to be `text`. -/
def expect (text : String) (index : Nat) : List Atom → Except Misstep Unit
  | [] => .error ⟨index, .endOfInput⟩
  | a :: _ => if a.is text then .ok () else .error ⟨index, .expected text⟩

/-- The next atom has to be an identifier. -/
def expectName (index : Nat) : List Atom → Except Misstep String
  | [] => .error ⟨index, .endOfInput⟩
  | a :: _ =>
    if a.kind = .word && isIdentifier a.text then .ok a.text else .error ⟨index, .expectedName⟩

/-- A loop bound is an integer or an integer variable. -/
def expectBound (symbols : SymbolTable) (index : Nat) : List Atom → Except Misstep String
  | [] => .error ⟨index, .endOfInput⟩
  | a :: _ =>
    if a.kind = .word && (isInteger a.text || symbols.classOf a.text = .int) then .ok a.text
    else .error ⟨index, .badLoopBound⟩

/-- The atoms of the statement that the list starts with. A block close always ends it. -/
def statement : List Atom → List Atom
  | [] => []
  | a :: rest => (a :: rest).takeWhile fun b => b.stmt = a.stmt && !b.is "\x7d"

def spaced (texts : List String) : String := String.intercalate " " texts

/-- Atoms joined into one C expression. -/
def expression (index : Nat) : List Atom → Except Misstep String
  | [] => .error ⟨index, .expectedExpression⟩
  | atoms => .ok (spaced (atoms.map (·.text)))

/-- Declares `name`, whose atom is at `index`. -/
def declareAt (symbols : SymbolTable) (index : Nat) (name : String) (cls : SymbolClass) :
    Except Misstep SymbolTable :=
  match symbols.declare name cls with
  | .ok symbols => .ok symbols
  | .error v => .error ⟨index, v⟩

/-- Reads arguments up to the first `)`. The opening parenthesis is never an atom. `args` and
`current` are in reverse, and `taken` atoms were read before. -/
def argumentsFrom (args current : List String) (taken index : Nat) :
    List Atom → Except Misstep (List String × Nat)
  | [] => .error ⟨index, .expected ")"⟩
  | a :: rest =>
    if a.is ")" then
      if !current.isEmpty then .ok ((spaced current.reverse :: args).reverse, taken + 1)
      else if !args.isEmpty then .error ⟨index, .missingArgument⟩
      else .ok ([], taken + 1)
    else if a.is "," then
      if current.isEmpty then .error ⟨index, .missingArgument⟩
      else argumentsFrom (spaced current.reverse :: args) [] (taken + 1) (index + 1) rest
    else if a.is "\x7d" then .error ⟨index, .expected ")"⟩
    else argumentsFrom args (a.text :: current) (taken + 1) (index + 1) rest

/-- The arguments of a call and the number of atoms they take, the `)` included. -/
def arguments (index : Nat) (atoms : List Atom) : Except Misstep (List String × Nat) :=
  argumentsFrom [] [] 0 index atoms

/-- Reads the elements of a list literal up to its `]`; their texts are joined as they are. -/
def elementsFrom (texts : List String) (taken index : Nat) :
    List Atom → Except Misstep (String × Nat)
  | [] => .error ⟨index, .endOfInput⟩
  | a :: rest =>
    if a.is "]" then .ok (String.join texts.reverse, taken + 1)
    else if a.is "\x7d" then .error ⟨index, .expected "]"⟩
    else elementsFrom (a.text :: texts) (taken + 1) (index + 1) rest

/-- What may come next in a parameter list. -/
inductive ParameterState where
  /-- a type, or `)` -/
  | start
  /-- `,` or `)` -/
  | separator
  /-- a type -/
  | type
  /-- the name of a parameter of this class -/
  | name (cls : SymbolClass)
  deriving DecidableEq, Repr

/-- The class of a parameter type. -/
def parameterClass? (a : Atom) : Option SymbolClass :=
  if a.kind ≠ .word then none
  else if a.text = "int" then some .int
  else if a.text = "string" then some .string
  else none

/-- The C declaration of a variable, up to its initial value. -/
def declarator (cls : SymbolClass) (name : String) : String :=
  match cls with
  | .int => "int " ++ name
  | .bool => "bool " ++ name
  | .string => "char " ++ name ++ "[]"
  | _ => name

/-- The parameters of a function, the number of atoms they take and the table with their names. -/
structure Parameters where
  texts : List String
  taken : Nat
  symbols : SymbolTable

/-- Reads `TYPE NAME, TYPE NAME)`. Each name is declared when it is read, and stays declared when a
later parameter is at fault. `texts` is in reverse. -/
def parametersFrom (symbols : SymbolTable) (texts : List String) (taken index : Nat) :
    ParameterState → List Atom → Except (Misstep × SymbolTable) Parameters
  | _, [] => .error (⟨index, .endOfInput⟩, symbols)
  | .name cls, a :: rest =>
    if a.kind = .word && isIdentifier a.text then
      match symbols.declare a.text cls with
      | .ok symbols =>
        parametersFrom symbols (declarator cls a.text :: texts) (taken + 1) (index + 1) .separator rest
      | .error v => .error (⟨index, v⟩, symbols)
    else .error (⟨index, .expectedName⟩, symbols)
  | .separator, a :: rest =>
    if a.is ")" then .ok ⟨texts.reverse, taken + 1, symbols⟩
    else if a.is "," then parametersFrom symbols texts (taken + 1) (index + 1) .type rest
    else .error (⟨index, .expectedCommaOrClose⟩, symbols)
  | .start, a :: rest =>
    if a.is ")" then .ok ⟨texts.reverse, taken + 1, symbols⟩
    else
      match parameterClass? a with
      | some cls => parametersFrom symbols texts (taken + 1) (index + 1) (.name cls) rest
      | none => .error (⟨index, .expectedParameterType⟩, symbols)
  | .type, a :: rest =>
    match parameterClass? a with
    | some cls => parametersFrom symbols texts (taken + 1) (index + 1) (.name cls) rest
    | none => .error (⟨index, .expectedParameterType⟩, symbols)

def parameters (symbols : SymbolTable) (index : Nat) (atoms : List Atom) :
    Except (Misstep × SymbolTable) Parameters :=
  parametersFrom symbols [] 0 index .start atoms

end DawnC
