import DawnC.Atom
import DawnC.Text.Utf8

set_option autoImplicit false

namespace DawnC

/-- Characters that end the pending atom and are dropped. -/
def isSeparator (c : Char) : Bool :=
  c = ';' || c = ' ' || c = '\t' || c = '\r' || c = '(' || c = '\x7b'

/-- Characters that are atoms of their own. -/
def isPunctuation (c : Char) : Bool :=
  c = ',' || c = ')' || c = '\x7d' || c = '[' || c = ']'

/-- The whole line is a comment: after blanks it starts with two slashes. -/
def isComment (line : List Char) : Bool :=
  ['/', '/'].isPrefixOf (line.dropWhile fun c => c = ' ' || c = '\t')

/-- The line with a `;` at its end. -/
def terminated (line : List Char) : List Char :=
  if line.getLast? = some ';' then line else line ++ [';']

namespace Scanner

inductive Mode where
  | plain
  /-- inside a literal -/
  | quoted
  /-- inside a literal, after a backslash -/
  | escaped
  deriving DecidableEq, Repr

end Scanner

/-- The lexer between two characters. -/
structure Scanner where
  file : String
  line : Int := 0
  stmt : Int := 0
  mode : Scanner.Mode := .plain
  /-- the characters of the atom being read, last first -/
  pending : List Char := []
  /-- the atoms read, last first -/
  done : List Atom := []

namespace Scanner

def push (s : Scanner) (text : List Char) (kind : AtomKind) : Scanner :=
  { s with done := ⟨String.ofList text, kind, s.file, s.line, s.stmt⟩ :: s.done }

/-- An atom that begins with a quote is a literal, whatever follows. -/
def kindOf (text : List Char) : AtomKind :=
  if text.head? = some '"' then .string else .word

/-- Ends the pending atom, if there is one. -/
def flush (s : Scanner) : Scanner :=
  match s.pending with
  | [] => s
  | pending => { s with pending := [] }.push pending.reverse (kindOf pending.reverse)

def endStatement (s : Scanner) : Scanner := { s with stmt := s.stmt + 1 }

/-- A character outside a literal. -/
def stepPlain (s : Scanner) (c : Char) : Scanner :=
  if c = '"' then { s with pending := c :: s.pending, mode := .quoted }
  else if isSeparator c then
    if c = ';' || c = '\x7b' then s.flush.endStatement else s.flush
  else if isPunctuation c then
    let s := s.flush.push [c] .punct
    if c = '\x7d' then s.endStatement else s
  else { s with pending := c :: s.pending }

def step (s : Scanner) (c : Char) : Scanner :=
  match s.mode with
  | .plain => s.stepPlain c
  | .quoted =>
    { s with
      pending := c :: s.pending
      mode := if c = '\\' then .escaped else if c = '"' then .plain else .quoted }
  | .escaped => { s with pending := c :: s.pending, mode := .quoted }

/-- Scans one line. A literal left open ends with it. -/
def scanLine (s : Scanner) (line : List Char) : Scanner :=
  let s := { s with line := s.line + 1 }
  if isComment line then s
  else { ((terminated line).foldl step s).flush.endStatement with mode := .plain }

end Scanner

/-- The atoms of lines of characters. -/
def lexText (file : String) (lines : List (List Char)) : List Atom :=
  (lines.foldl Scanner.scanLine { file }).done.reverse

/-- The atoms of source lines. Every atom carries `file` for diagnostics. -/
def lex (file : String) (lines : List Bytes) : List Atom :=
  lexText file (lines.map Utf8.decode)

end DawnC
