set_option autoImplicit false

namespace DawnC

inductive Phase where
  | read
  | inclusion
  | parse
  | functionScan
  | importScan
  | convert
  | writeC
  | prepareOutput
  | compile
  | cleanup
  /-- a phase of no known name -/
  | other (name : String)
  deriving DecidableEq, Repr

namespace Phase

def name : Phase → String
  | read => "read"
  | inclusion => "include"
  | parse => "parse"
  | functionScan => "function-scan"
  | importScan => "import-scan"
  | convert => "convert"
  | writeC => "write-c"
  | prepareOutput => "prepare-output"
  | compile => "compile"
  | cleanup => "cleanup"
  | other name => name

def code : Phase → String
  | read => "r100"
  | inclusion => "r200"
  | parse => "p100"
  | functionScan => "fs100"
  | importScan => "is100"
  | convert => "c100"
  | writeC => "wc100"
  | prepareOutput => "cf100"
  | compile => "cf200"
  | cleanup => "cl100"
  | other _ => "a000"

/-- The phases that have a code of their own. -/
def known : List Phase :=
  [read, inclusion, parse, functionScan, importScan, convert, writeC, prepareOutput, compile, cleanup]

/-- The phase of this name. -/
def ofName (name : String) : Phase :=
  (known.find? (·.name = name)).getD (other name)

end Phase

end DawnC
