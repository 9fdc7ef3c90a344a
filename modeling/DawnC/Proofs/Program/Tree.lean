import DawnC.Proofs.Construct
import DawnC.Proofs.SourceLine

set_option autoImplicit false

namespace DawnC

/-- Names are identifiers that begin no construct of their own. -/
structure Name where
  text : String
  isIdentifier : isIdentifier text = true
  free : text ∉ leadingWords

/-- An atom that may stand in a phrase which ends at `stops`. -/
def isToken (stops : List Char) : Piece → Bool
  | .run text => isRun text && text ≠ "function"
  | .mark c => isPunctuation c && c ∉ '\x7d' :: stops

/-- Atoms one after the other: an expression, or a part of a list that `stops` come between and
after. -/
structure Phrase (stops : List Char) where
  tokens : List Piece
  nonempty : tokens ≠ []
  valid : tokens.all (isToken stops) = true

abbrev Expression := Phrase []

abbrev Argument := Phrase [',', ')']

abbrev Element := Phrase [',', ']']

inductive Bound where
  | literal (text : String) (isInteger : isInteger text = true)
  | name (name : Name)

inductive Printer where
  | print
  | printStr
  | printInt

inductive Scalar where
  | int
  | bool
  | string

/-- A parameter is an int or, if `isString`, a string. -/
structure Parameter where
  isString : Bool
  name : Name

inductive Simple where
  | print (printer : Printer) (argument : Argument)
  | printElement (list : Name) (position : Argument)
  | declare (type : Scalar) (name : Name) (value : Expression)
  | declareList (name : Name) (elements : List Element)
  | assign (name : Name) (value : Expression)
  | call (function : Name) (arguments : List Argument)

mutual

inductive Statement where
  | simple (statement : Simple)
  /-- a loop, with its body in braces if `braced` -/
  | loop (index : Name) (low high : Bound) (braced : Bool) (body : Body)
  | conditional (condition : Expression) (body : Body) (rest : Alternative)

inductive Body where
  | done
  | next (first : Statement) (rest : Body)

/-- What follows the block of an `if`. -/
inductive Alternative where
  | none
  | elseIf (condition : Expression) (body : Body) (rest : Alternative)
  | otherwise (body : Body)

end

/-- What stands at the top of a program. -/
inductive Item where
  | statement (statement : Statement)
  | main (body : Body)
  | function (name : Name) (notMain : name.text ≠ entryFunction) (parameters : List Parameter)
      (body : Body)

abbrev Tree := List Item

namespace Phrase

variable {stops : List Char}

def pieces (phrase : Phrase stops) : List Piece := phrase.tokens.intersperse (.mark ' ')

def texts (phrase : Phrase stops) : List String :=
  phrase.tokens.map fun token => String.ofList token.chars

def text (phrase : Phrase stops) : String := " ".intercalate phrase.texts

end Phrase

def commaSeparated (parts : List (List Piece)) : List Piece :=
  [Piece.mark ',', .mark ' '].intercalate parts

def Bound.text : Bound → String
  | literal digits _ => digits
  | name known => known.text

def Printer.keyword : Printer → String
  | print => "print"
  | printStr => "print_str"
  | printInt => "print_int"

def Scalar.cls : Scalar → SymbolClass
  | int => .int
  | bool => .bool
  | string => .string

def Parameter.cls (parameter : Parameter) : SymbolClass :=
  if parameter.isString then .string else .int

def Parameter.pieces (parameter : Parameter) : List Piece :=
  [.run parameter.cls.name, .mark ' ', .run parameter.name.text]

def Simple.source : Simple → List Piece
  | print printer argument =>
    .run printer.keyword :: .mark '(' :: (argument.pieces ++ [.mark ')'])
  | printElement list position =>
    .run "print_list_element" :: .mark '(' :: .run list.text :: .mark ',' :: .mark ' ' ::
      (position.pieces ++ [.mark ')'])
  | declare type name value =>
    .run type.cls.name :: .mark ' ' :: .run name.text :: .mark ' ' :: .run "=" :: .mark ' ' ::
      value.pieces
  | declareList name elements =>
    .run "List<int>" :: .mark ' ' :: .run name.text :: .mark ' ' :: .run "=" :: .mark ' ' ::
      .mark '[' :: (commaSeparated (elements.map Phrase.pieces) ++ [.mark ']'])
  | assign name value => .run name.text :: .mark ' ' :: .run "=" :: .mark ' ' :: value.pieces
  | call function arguments =>
    .run function.text :: .mark '(' ::
      (commaSeparated (arguments.map Phrase.pieces) ++ [.mark ')'])

def loopHead (index : Name) (low high : Bound) (braced : Bool) : List Piece :=
  [.run "for", .mark ' ', .run index.text, .mark ' ', .run "from", .mark ' ', .run low.text,
    .mark ' ', .run "to", .mark ' ', .run high.text] ++
    if braced then [.mark ' ', .mark '\x7b'] else []

def loopEnd (braced : Bool) : List Piece :=
  (if braced then [.mark '\x7d', .mark ' '] else []) ++ [.run "then", .mark ' ', .run "end"]

def ifHead (condition : Expression) : List Piece :=
  .run "if" :: .mark ' ' :: (condition.pieces ++ [.mark ' ', .mark '\x7b'])

def functionHead (name : String) (parameters : List Parameter) : List Piece :=
  .run "function" :: .mark ' ' :: .run name :: .mark '(' ::
    (commaSeparated (parameters.map Parameter.pieces) ++ [.mark ')', .mark ' ', .mark '\x7b'])

mutual

def Statement.source : Statement → List (List Piece)
  | .simple statement => [statement.source]
  | .loop index low high braced body =>
    loopHead index low high braced :: (body.source ++ [loopEnd braced])
  | .conditional condition body rest =>
    ifHead condition :: (body.source ++ [.mark '\x7d'] :: rest.source)

def Body.source : Body → List (List Piece)
  | .done => []
  | .next first rest => first.source ++ rest.source

def Alternative.source : Alternative → List (List Piece)
  | .none => []
  | .elseIf condition body rest =>
    (.run "else" :: .mark ' ' :: ifHead condition) ::
      (body.source ++ [.mark '\x7d'] :: rest.source)
  | .otherwise body =>
    [.run "else", .mark ' ', .mark '\x7b'] :: (body.source ++ [[.mark '\x7d']])

end

def Item.source : Item → List (List Piece)
  | statement s => s.source
  | main body => functionHead entryFunction [] :: (body.source ++ [[.mark '\x7d']])
  | function name _ parameters body =>
    functionHead name.text parameters :: (body.source ++ [[.mark '\x7d']])

def Tree.source (program : Tree) : List (List Piece) := program.flatMap Item.source

def cDeclaration (cls : SymbolClass) (name : String) : String :=
  match cls with
  | .bool => "bool " ++ name
  | .string => "char " ++ name ++ "[]"
  | _ => "int " ++ name

def Simple.emitted : Simple → String
  | print .print argument => "printf(" ++ argument.text ++ ");"
  | print .printStr argument => "printf(\"%s\\n\", " ++ argument.text ++ ");"
  | print .printInt argument => "printf(\"%d\\n\", " ++ argument.text ++ ");"
  | printElement list position => "printf(\"%d\\n\", " ++ list.text ++ "[" ++ position.text ++ "]);"
  | declare type name value => cDeclaration type.cls name.text ++ " = " ++ value.text ++ ";"
  | declareList name elements =>
    "int " ++ name.text ++ "[] = \x7b" ++
      ",".intercalate (elements.map fun element => String.join element.texts) ++ "\x7d;"
  | assign name value => name.text ++ " = " ++ value.text ++ ";"
  | call function arguments =>
    function.text ++ "(" ++ ", ".intercalate (arguments.map Phrase.text) ++ ");"

mutual

def Statement.emitted : Statement → List String
  | .simple statement => [statement.emitted]
  | .loop index low high _ body =>
    ("for(int " ++ index.text ++ " = " ++ low.text ++ "; " ++ index.text ++ " <= " ++ high.text ++
      "; " ++ index.text ++ "++)\x7b") :: (body.emitted ++ ["\x7d"])
  | .conditional condition body rest =>
    ("if(" ++ condition.text ++ ")\x7b") :: (body.emitted ++ "\x7d" :: rest.emitted)

def Body.emitted : Body → List String
  | .done => []
  | .next first rest => first.emitted ++ rest.emitted

def Alternative.emitted : Alternative → List String
  | .none => []
  | .elseIf condition body rest =>
    "else" :: ("if(" ++ condition.text ++ ")\x7b") :: (body.emitted ++ "\x7d" :: rest.emitted)
  | .otherwise body => "else\x7b" :: (body.emitted ++ ["\x7d"])

end

def functionSignature (name : Name) (parameters : List Parameter) : String :=
  "void " ++ name.text ++ "(" ++
    ", ".intercalate (parameters.map fun p => cDeclaration p.cls p.name.text) ++ ")"

def Item.emitted : Item → List String
  | statement s => s.emitted
  | main body => "int main()\x7b" :: (body.emitted ++ ["\x7d"])
  | function name _ parameters body =>
    (functionSignature name parameters ++ "\x7b") :: (body.emitted ++ ["\x7d"])

def Item.prototypes : Item → List String
  | function name _ parameters _ => [functionSignature name parameters ++ ";"]
  | _ => []

def Tree.emitted (program : Tree) : List String := program.flatMap Item.emitted

def Tree.prototypes (program : Tree) : List String := program.flatMap Item.prototypes

def Tree.writes (program : Tree) (word : String) : Bool :=
  program.source.any fun line => Piece.run word ∈ line

/-- The headers that the words of a program need. -/
def Tree.headers (program : Tree) : List String :=
  (if ["print", "print_int", "print_str", "print_list_element"].any program.writes then
    ["<stdio.h>"] else []) ++
    if program.writes "bool" then ["<stdbool.h>"] else []

/-- Names with their classes, in the order of declaration. -/
abbrev Declarations := List (String × SymbolClass)

def Simple.declared : Simple → Declarations
  | declare type name _ => [(name.text, type.cls)]
  | declareList name _ => [(name.text, .intList)]
  | _ => []

mutual

def Statement.declared : Statement → Declarations
  | .simple statement => statement.declared
  | .loop index _ _ _ body => (index.text, .int) :: body.declared
  | .conditional _ body rest => body.declared ++ rest.declared

def Body.declared : Body → Declarations
  | .done => []
  | .next first rest => first.declared ++ rest.declared

def Alternative.declared : Alternative → Declarations
  | .none => []
  | .elseIf _ body rest => body.declared ++ rest.declared
  | .otherwise body => body.declared

end

def Item.declared : Item → Declarations
  | statement s => s.declared
  | main body => body.declared
  | function _ _ parameters body =>
    parameters.map (fun p => (p.name.text, p.cls)) ++ body.declared

def Tree.functions (program : Tree) : Declarations :=
  program.flatMap fun
    | .function name _ _ _ => [(name.text, .function)]
    | _ => []

def Tree.declared (program : Tree) : Declarations :=
  program.functions ++ program.flatMap Item.declared

/-- A bound is a number or a known int. -/
def Bound.isKnown (known : Declarations) : Bound → Bool
  | literal _ _ => true
  | name n => (n.text, .int) ∈ known

/-- An argument that is nothing but a name is a truth value or a known variable. -/
def Phrase.isKnown {stops : List Char} (known : Declarations) (phrase : Phrase stops) : Bool :=
  !isIdentifier phrase.text || phrase.text = "true" || phrase.text = "false" ||
    known.any fun entry => entry.1 = phrase.text && entry.2.isVariable

def Simple.isScoped (known : Declarations) : Simple → Bool
  | printElement list _ => (list.text, .intList) ∈ known
  | assign name _ => (name.text, .int) ∈ known || (name.text, .bool) ∈ known
  | call function arguments =>
    (function.text, .function) ∈ known && arguments.all (·.isKnown known)
  | _ => true

mutual

def Statement.isScoped (known : Declarations) : Statement → Bool
  | .simple statement => statement.isScoped known
  | .loop index low high _ body =>
    low.isKnown known && high.isKnown known && body.isScoped (known ++ [(index.text, .int)])
  | .conditional _ body rest => body.isScoped known && rest.isScoped (known ++ body.declared)

def Body.isScoped (known : Declarations) : Body → Bool
  | .done => true
  | .next first rest => first.isScoped known && rest.isScoped (known ++ first.declared)

def Alternative.isScoped (known : Declarations) : Alternative → Bool
  | .none => true
  | .elseIf _ body rest => body.isScoped known && rest.isScoped (known ++ body.declared)
  | .otherwise body => body.isScoped known

end

def Item.isScoped (known : Declarations) : Item → Bool
  | statement s => s.isScoped known
  | main body => body.isScoped known
  | function _ _ parameters body =>
    body.isScoped (known ++ parameters.map fun p => (p.name.text, p.cls))

def itemsScoped (known : Declarations) : List Item → Bool
  | [] => true
  | item :: rest => item.isScoped known && itemsScoped (known ++ item.declared) rest

/-- Every name has one class, and names are declared before they are used; a function may be called
from anywhere. -/
structure Tree.WellFormed (program : Tree) : Prop where
  oneClass : ∀ first ∈ program.declared, ∀ second ∈ program.declared,
    first.1 = second.1 → first.2 = second.2
  inOrder : itemsScoped program.functions program = true

end DawnC
