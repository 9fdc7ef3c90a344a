import DawnC.CompilationUnit

set_option autoImplicit false

namespace DawnC

/-- The function that becomes the entry point of the C program. -/
def entryFunction : String := "main"

/-- Keywords and the headers they need, in the order in which headers are added. -/
def headerRules : List (String × String) :=
  [("print", "<stdio.h>"), ("print_int", "<stdio.h>"), ("print_str", "<stdio.h>"),
   ("print_list_element", "<stdio.h>"), ("bool", "<stdbool.h>")]

/-- Declares the name after every `function` keyword, the entry function apart. -/
def declareFunctions (table : SymbolTable) (index : Nat) :
    List Atom → Except (Misstep × SymbolTable) SymbolTable
  | [] => .ok table
  | a :: rest =>
    if !a.is "function" then declareFunctions table (index + 1) rest
    else
      match rest with
      | [] => .error (⟨index, .functionWithoutName⟩, table)
      | name :: _ =>
        if name.kind ≠ .word then .error (⟨index + 1, .invalidFunctionName⟩, table)
        else if name.text = entryFunction then declareFunctions table (index + 1) rest
        else
          match table.declare name.text .function with
          | .error v => .error (⟨index + 1, v⟩, table)
          | .ok table => declareFunctions table (index + 1) rest

/-- The atoms use `keyword` as a word. -/
def usesWord (atoms : List Atom) (keyword : String) : Bool :=
  atoms.any fun a => a.kind = .word && a.text = keyword

/-- The headers together with those that the atoms need. -/
def requiredHeaders (atoms : List Atom) (headers : List String) : List String :=
  headerRules.foldl
    (fun headers rule => if usesWord atoms rule.1 then addHeader headers rule.2 else headers) headers

namespace CompilationUnit

def scanFunctions (u : CompilationUnit) : Progress :=
  match declareFunctions u.symbols 0 u.atoms with
  | .ok symbols => .ok { u with symbols }
  | .error (m, symbols) => .error (u.failMisstep m, { u with symbols })

def resolveImports (u : CompilationUnit) : CompilationUnit :=
  { u with headers := requiredHeaders u.atoms u.headers }

/-- Function names first, then headers, each in its phase. -/
def analyze (u : CompilationUnit) : Progress :=
  match (u.enter .functionScan).scanFunctions with
  | .error e => .error e
  | .ok u => .ok (u.enter .importScan).resolveImports

end CompilationUnit

end DawnC
