import DawnC.Text.Split

set_option autoImplicit false

namespace DawnC.Path

def isAbsolute (path : String) : Bool := path.toList.head? = some '/'

/-- What stands between the slashes. -/
def elements (path : String) : List String := Text.splitAt '/' path

/-- The elements that are not empty. -/
def names (path : String) : List String := (elements path).filter (· ≠ "")

/-- The element is a name: it is not empty, leads down, and holds no slash. -/
def IsName (element : String) : Prop :=
  element ≠ "" ∧ element ≠ "." ∧ element ≠ ".." ∧ '/' ∉ element.toList

instance (element : String) : Decidable (IsName element) :=
  inferInstanceAs (Decidable (_ ∧ _ ∧ _ ∧ _))

def hasTrailingSlash (path : String) : Bool := path.toList.getLast? = some '/'

/-- One element of a path under cleaning; `stack` holds the elements before it, last first. -/
def cleanStep (rooted : Bool) (stack : List String) (element : String) : List String :=
  if element = "" || element = "." then stack
  else if element = ".." then
    match stack with
    | [] => if rooted then [] else [".."]
    | last :: rest => if last = ".." then ".." :: last :: rest else rest
  else element :: stack

/-- The elements that are left after cleaning. -/
def cleanElements (path : String) : List String :=
  ((elements path).foldl (cleanStep (isAbsolute path)) []).reverse

def clean (path : String) : String :=
  let body := String.intercalate "/" (cleanElements path)
  if isAbsolute path then "/" ++ body else if body = "" then "." else body

/-- The parts under one another, cleaned. Empty parts in front are left out. -/
def join (parts : List String) : String :=
  match parts.dropWhile (· = "") with
  | [] => ""
  | parts => clean (String.intercalate "/" parts)

/-- The directory that a path lies in. -/
def directory (path : String) : String :=
  match Text.cutLast '/' path.toList with
  | none => clean ""
  | some (before, _) => clean (String.ofList (before ++ ['/']))

/-- From the last point of the last element on; empty if it has none. -/
def extension (path : String) : String :=
  let last := (path.toList.reverse.takeWhile (· ≠ '/')).reverse
  match Text.cutLast '.' last with
  | none => ""
  | some (_, after) => String.ofList ('.' :: after)

/-- The path from the root, for a working directory `cwd`. -/
def absolute (cwd path : String) : String :=
  if isAbsolute path then clean path else join [cwd, path]

/-- Collects the paths that end before the last slash of a run of slashes between two elements;
`before` is what was read, last character first. -/
def lineageFrom (before : List Char) : List Char → List String
  | [] => []
  | c :: rest =>
    if c = '/' && !before.isEmpty && rest.head?.any (· ≠ '/') then
      String.ofList before.reverse :: lineageFrom (c :: before) rest
    else lineageFrom (c :: before) rest

/-- The paths above a path, outermost first. -/
def lineage (path : String) : List String := lineageFrom [] path.toList

end DawnC.Path
