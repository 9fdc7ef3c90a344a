import DawnC.CompilationUnit

set_option autoImplicit false

namespace DawnC

structure Block where
  kind : BlockKind
  /-- the index of the atom that opened the block -/
  opener : Nat
  /-- a loop whose closing brace was read -/
  braceClosed : Bool := false
  deriving DecidableEq, Repr

namespace Block

def isClosedLoop (b : Block) : Bool := b.kind = .loop && b.braceClosed

end Block

structure Translator where
  symbols : SymbolTable
  prototypes : List String
  lines : List String
  /-- the open blocks, innermost first -/
  blocks : List Block := []
  /-- what the block was that closed last, forgotten when a loop's brace is read -/
  closed : Option BlockKind := none
  deriving DecidableEq, Repr

namespace Translator

def emit (t : Translator) (line : String) : Translator := { t with lines := t.lines ++ [line] }

/-- Emits the line that opens a block. -/
def openBlock (t : Translator) (kind : BlockKind) (opener : Nat) (line : String) : Translator :=
  { t.emit line with blocks := { kind, opener } :: t.blocks }

/-- Closes `b`, the innermost block; `rest` are the blocks around it. -/
def closeBlock (t : Translator) (b : Block) (rest : List Block) : Translator :=
  { t.emit "\x7d" with blocks := rest, closed := some b.kind }

/-- Reads the brace of the loop `b` without closing it. -/
def closeBrace (t : Translator) (b : Block) (rest : List Block) : Translator :=
  { t with blocks := { b with braceClosed := true } :: rest, closed := none }

end Translator

/-- How many atoms a construct takes and the state after it, or where it goes wrong and the state
reached by then. -/
abbrev Step := Except (Misstep × Translator) (Nat × Translator)

end DawnC
