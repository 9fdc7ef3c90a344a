import DawnC.Atom
import DawnC.Symbol.Class
import DawnC.Text.Quoted

set_option autoImplicit false

namespace DawnC

/-- What opened a block of the generated code. -/
inductive BlockKind where
  | function
  | loop
  | conditional
  | alternative
  deriving DecidableEq, Repr

namespace BlockKind

def name : BlockKind → String
  | function => "function"
  | loop => "loop"
  | conditional => "if"
  | alternative => "else"

end BlockKind

inductive Violation where
  | functionWithoutName
  | invalidFunctionName
  | redeclared (name : String) (old new : SymbolClass)
  | unexpectedKind (kind : AtomKind)
  | expectedAssignment (name : String)
  | unresolvedIdentifier
  | notAStatement (cls : SymbolClass) (name : String)
  | endOfInput
  | expected (text : String)
  | expectedName
  | expectedExpression
  | missingArgument
  | takesOneArgument (keyword : String)
  | takesListAndIndex
  | notAList (name : String)
  | expectedCommaOrClose
  | expectedParameterType
  | mainTakesNoParameters
  | functionNotAtTop
  | unresolvedArgument (position : Nat) (name : String)
  | badLoopBound
  | thenWithoutLoop
  | unexpectedClose
  | elseWithoutIf
  | neverClosed (kind : BlockKind)
  | includeWithoutPath
  deriving DecidableEq, Repr

namespace Violation

def message : Violation → String
  | functionWithoutName => "function without a name"
  | invalidFunctionName => "invalid function name"
  | redeclared name old new =>
    Text.quote name ++ " is already declared as " ++ old.name ++ ", cannot redeclare as " ++ new.name
  | unexpectedKind kind => "unexpected " ++ kind.name
  | expectedAssignment name => "expected assignment to " ++ name
  | unresolvedIdentifier => "unresolved identifier"
  | notAStatement cls name =>
    cls.name ++ " variable " ++ name ++ " cannot be used as a statement"
  | endOfInput => "unexpected end of input"
  | expected text => "expected " ++ Text.quote text
  | expectedName => "expected a name"
  | expectedExpression => "expected an expression"
  | missingArgument => "missing argument"
  | takesOneArgument keyword => keyword ++ " takes one argument"
  | takesListAndIndex => "print_list_element takes a list and an index"
  | notAList name => name ++ " is not a List<int>"
  | expectedCommaOrClose => "expected \",\" or \")\""
  | expectedParameterType => "expected parameter type int or string"
  | mainTakesNoParameters => "main takes no parameters"
  | functionNotAtTop => "functions must be declared at the top level"
  | unresolvedArgument position name =>
    "argument " ++ toString position ++ ": unresolved identifier " ++ name
  | badLoopBound => "loop bound must be an integer or an int variable"
  | thenWithoutLoop => "then end without an open loop"
  | unexpectedClose => "unexpected \x7d"
  | elseWithoutIf => "else without a preceding if"
  | neverClosed kind => kind.name ++ " block is never closed"
  | includeWithoutPath => "include without a path"

end Violation

end DawnC
