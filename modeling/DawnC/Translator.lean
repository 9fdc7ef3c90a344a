import DawnC.Translator.Constructs

set_option autoImplicit false

namespace DawnC

namespace Translator

/-- A construct that leaves the state as it was when it fails. -/
def keeping (t : Translator) (result : Except Misstep (Nat × Translator)) : Step :=
  result.mapError (·, t)

/-- The construct that starts with `a`; `atoms` starts with it too. -/
def construct (t : Translator) (previous : Option Atom) (i : Nat) (a : Atom) (atoms : List Atom) :
    Step :=
  if a.kind ≠ .word then
    if a.is "\x7d" then t.blockClose i else .error (⟨i, .unexpectedKind a.kind⟩, t)
  else
    match a.text with
    | "print" => t.keeping (t.print i atoms)
    | "print_str" => t.keeping (t.printFormatted i atoms "print_str" "%s")
    | "print_int" => t.keeping (t.printFormatted i atoms "print_int" "%d")
    | "print_list_element" => t.keeping (t.printListElement i atoms)
    | "int" => t.keeping (t.declaration i atoms .int)
    | "bool" => t.keeping (t.declaration i atoms .bool)
    | "string" => t.keeping (t.declaration i atoms .string)
    | "List<int>" => t.keeping (t.intList i atoms)
    | "for" => t.keeping (t.forLoop i atoms)
    | "then" => t.keeping (t.thenEnd i atoms)
    | "function" => t.function i atoms
    | "if" => t.keeping (t.conditional i atoms)
    | "else" => t.keeping (t.alternative i atoms previous a)
    -- includes are resolved when a program is read; a directive that is still here is passed over
    | "include" | "#include" => .ok (2, t)
    | _ => t.keeping (t.identifier i atoms a)

/-- Closes the loops that are open at the end of the program; `blocks` are the open blocks of `t`. -/
def closeRemaining (t : Translator) : List Block → Except (Misstep × Translator) Translator
  | [] => .ok t
  | b :: rest =>
    if b.isClosedLoop then closeRemaining (t.closeBlock b rest) rest
    else .error (⟨b.opener, .neverClosed b.kind⟩, t)

/-- Translates the atoms from index `i` on, after passing over `skip` of them. `previous` is the atom
before them. -/
def walk (t : Translator) (previous : Option Atom) (i : Nat) :
    Nat → List Atom → Except (Misstep × Translator) Translator
  | _, [] => t.closeRemaining t.blocks
  | skip + 1, a :: rest => walk t (some a) (i + 1) skip rest
  | 0, a :: rest =>
    match t.construct previous i a (a :: rest) with
    | .error e => .error e
    | .ok (taken, t) => walk t (some a) (i + 1) (taken - 1) rest

end Translator

namespace CompilationUnit

def translator (u : CompilationUnit) : Translator :=
  { symbols := u.symbols, prototypes := u.prototypes, lines := u.lines }

/-- The unit with what a translator declared and emitted. -/
def absorb (u : CompilationUnit) (t : Translator) : CompilationUnit :=
  { u with symbols := t.symbols, prototypes := t.prototypes, lines := t.lines }

/-- Translates the unit's atoms into lines of C. -/
def translate (u : CompilationUnit) : Progress :=
  let u := u.enter .convert
  match u.translator.walk none 0 0 u.atoms with
  | .ok t => .ok (u.absorb t)
  | .error (m, t) => .error (u.failMisstep m, u.absorb t)

end CompilationUnit

end DawnC
