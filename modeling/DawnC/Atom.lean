set_option autoImplicit false

namespace DawnC

inductive AtomKind where
  /-- identifiers, keywords, numbers and runs of operators -/
  | word
  /-- a quoted literal, its quotes included -/
  | string
  /-- one of `,` `)` `}` `[` `]` -/
  | punct
  /-- a code that the lexer never gives -/
  | other (code : Int)
  deriving DecidableEq, Repr

namespace AtomKind

def name : AtomKind → String
  | word => "word"
  | string => "string"
  | punct => "punct"
  | other code => "AtomKind(" ++ toString code ++ ")"

def ofCode (code : Int) : AtomKind :=
  if code = 0 then word else if code = 1 then string else if code = 2 then punct else other code

end AtomKind

structure Atom where
  text : String
  kind : AtomKind
  /-- the source file the atom came from, as diagnostics show it -/
  file : String
  /-- the source line, counted from one -/
  line : Int
  /-- atoms of one statement share it -/
  stmt : Int
  deriving DecidableEq, Repr

namespace Atom

/-- The atom is a word or punctuation with this text. A quoted literal never is, so the literal
`"}"` closes no block. -/
def is (a : Atom) (text : String) : Bool := a.kind ≠ .string && a.text = text

/-- The atom starts an include directive. -/
def isInclude (a : Atom) : Bool := a.is "include" || a.is "#include"

end Atom

/-- An identifier of ASCII letters, digits and underscores that does not start with a digit. -/
def isIdentifier (text : String) : Bool :=
  match text.toList with
  | [] => false
  | c :: cs => isStart c && cs.all fun c => isStart c || c.isDigit
where
  isStart (c : Char) : Bool := c = '_' || c.isAlpha

/-- Digits, after at most one minus sign. -/
def isInteger (text : String) : Bool :=
  match text.toList with
  | [] => false
  | '-' :: c :: cs => (c :: cs).all Char.isDigit
  | cs => cs.all Char.isDigit

end DawnC
