import DawnC.Proofs.Construct
import DawnC.Proofs.Lexeme
import DawnC.Proofs.Path
import DawnC.Proofs.Program.Writing

set_option autoImplicit false

namespace DawnC

def headerLine (function : String) (parameters : List String) : String :=
  "void " ++ function ++ "(" ++ String.intercalate ", " parameters ++ ")\x7b"

/-- The line declares `name` in C, with the type of a variable of the class. -/
inductive Declares (name : String) : SymbolClass → String → Prop where
  | int {line : String} (value : String) (shape : line = "int " ++ name ++ " = " ++ value ++ ";") :
      Declares name .int line
  | bool {line : String} (value : String) (shape : line = "bool " ++ name ++ " = " ++ value ++ ";") :
      Declares name .bool line
  | string {line : String} (value : String)
      (shape : line = "char " ++ name ++ "[] = " ++ value ++ ";") : Declares name .string line
  | intList {line : String} (elements : String)
      (shape : line = "int " ++ name ++ "[] = \x7b" ++ elements ++ "\x7d;") :
      Declares name .intList line
  | loop {line : String} (rest : String) (shape : line = "for(int " ++ name ++ " = " ++ rest) :
      Declares name .int line
  | intParameter {line function : String} {before after : List String}
      (isName : isIdentifier function = true)
      (shape : line = headerLine function (before ++ ("int " ++ name) :: after)) :
      Declares name .int line
  | stringParameter {line function : String} {before after : List String}
      (isName : isIdentifier function = true)
      (shape : line = headerLine function (before ++ ("char " ++ name ++ "[]") :: after)) :
      Declares name .string line

def firstWord (text : List Char) : String × List Char :=
  (String.ofList (text.takeWhile isPlainChar), text.dropWhile isPlainChar)

def parameterIn (piece : List Char) : Option (String × SymbolClass) :=
  match firstWord (piece.dropWhile (· = ' ')) with
  | ("int", ' ' :: rest) => some ((firstWord rest).1, .int)
  | ("char", ' ' :: rest) => some ((firstWord rest).1, .string)
  | _ => none

/-- What a line can declare that starts with `word`, `stop` and then `rest`. -/
def declaredAfter (word : String) (stop : Char) (rest : List Char) : List (String × SymbolClass) :=
  match word, stop with
  | "int", ' ' =>
    match firstWord rest with
    | (name, ' ' :: _) => [(name, .int)]
    | (name, '[' :: _) => [(name, .intList)]
    | _ => []
  | "bool", ' ' => [((firstWord rest).1, .bool)]
  | "char", ' ' => [((firstWord rest).1, .string)]
  | "for", '(' => [((firstWord (firstWord rest).2.tail).1, .int)]
  | "void", ' ' =>
    match firstWord rest with
    | (_, '(' :: parameters) => (Text.cut ',' parameters).filterMap parameterIn
    | _ => []
  | _, _ => []

def declaredIn (line : String) : List (String × SymbolClass) :=
  match firstWord line.toList with
  | (word, stop :: rest) => declaredAfter word stop rest
  | (_, []) => []

theorem firstWord_append {word : String} (plain : word.toList.all isPlainChar = true) {stop : Char}
    (stops : isPlainChar stop = false) (rest : List Char) :
    firstWord (word.toList ++ stop :: rest) = (word, stop :: rest) := by
  rw [List.all_eq_true] at plain
  have halts : ¬ isPlainChar stop = true := by simp [stops]
  rw [firstWord, List.takeWhile_append_of_pos plain, List.dropWhile_append_of_pos plain,
    List.takeWhile_cons_of_neg halts, List.dropWhile_cons_of_neg halts, List.append_nil,
    String.ofList_toList]

theorem firstWord_self {word : String} (plain : word.toList.all isPlainChar = true) :
    firstWord word.toList = (word, []) := by
  rw [List.all_eq_true] at plain
  rw [firstWord, List.takeWhile_eq_self_iff.mpr plain, List.dropWhile_eq_nil_iff.mpr plain,
    String.ofList_toList]

theorem declaredIn_append {line : String} (word : String) (stop : Char) (rest : List Char)
    (shape : line.toList = word.toList ++ stop :: rest) (plain : word.toList.all isPlainChar = true)
    (stops : isPlainChar stop = false) : declaredIn line = declaredAfter word stop rest := by
  rw [declaredIn, shape, firstWord_append plain stops]

theorem all_isPlainChar {name : String} (isName : isIdentifier name = true) :
    name.toList.all isPlainChar = true := by
  have word := isWordText_of_isIdentifier isName
  rw [isWordText, Bool.and_eq_true, List.all_eq_true] at word
  rw [List.all_eq_true]
  intro c member
  have other := isWordChar_plain (word.2 c member)
  simp only [List.mem_cons, List.not_mem_nil, or_false, not_or] at other
  simp [isPlainChar, isSeparator, isPunctuation, other]

theorem firstWord_name {name : String} (isName : isIdentifier name = true) {stop : Char}
    (stops : isPlainChar stop = false) (rest : List Char) :
    firstWord (name.toList ++ stop :: rest) = (name, stop :: rest) :=
  firstWord_append (all_isPlainChar isName) stops rest

section Forms

variable {name : String} (isName : isIdentifier name = true)

include isName

theorem declaredIn_int (value : String) :
    declaredIn ("int " ++ name ++ " = " ++ value ++ ";") = [(name, .int)] := by
  rw [declaredIn_append "int" ' '
    (name.toList ++ ' ' :: ("= " ++ value ++ ";").toList) (by simp) (by decide) (by decide)]
  simp only [declaredAfter, firstWord_name isName (show isPlainChar ' ' = false by decide)]

theorem declaredIn_intList (elements : String) :
    declaredIn ("int " ++ name ++ "[] = \x7b" ++ elements ++ "\x7d;") = [(name, .intList)] := by
  rw [declaredIn_append "int" ' '
    (name.toList ++ '[' :: ("] = \x7b" ++ elements ++ "\x7d;").toList)
    (by simp) (by decide) (by decide)]
  simp only [declaredAfter, firstWord_name isName (show isPlainChar '[' = false by decide)]

theorem declaredIn_bool (value : String) :
    declaredIn ("bool " ++ name ++ " = " ++ value ++ ";") = [(name, .bool)] := by
  rw [declaredIn_append "bool" ' '
    (name.toList ++ ' ' :: ("= " ++ value ++ ";").toList) (by simp) (by decide) (by decide)]
  simp only [declaredAfter, firstWord_name isName (show isPlainChar ' ' = false by decide)]

theorem declaredIn_string (value : String) :
    declaredIn ("char " ++ name ++ "[] = " ++ value ++ ";") = [(name, .string)] := by
  rw [declaredIn_append "char" ' '
    (name.toList ++ '[' :: ("] = " ++ value ++ ";").toList) (by simp) (by decide) (by decide)]
  simp only [declaredAfter, firstWord_name isName (show isPlainChar '[' = false by decide)]

theorem declaredIn_loop (rest : String) :
    declaredIn ("for(int " ++ name ++ " = " ++ rest) = [(name, .int)] := by
  have type : firstWord ("int".toList ++ ' ' :: (name.toList ++ ' ' :: ("= " ++ rest).toList)) =
      ("int", ' ' :: (name.toList ++ ' ' :: ("= " ++ rest).toList)) :=
    firstWord_append (by decide) (by decide) _
  rw [declaredIn_append "for" '('
    ("int".toList ++ ' ' :: (name.toList ++ ' ' :: ("= " ++ rest).toList))
    (by simp) (by decide) (by decide)]
  simp only [declaredAfter, type, List.tail_cons,
    firstWord_name isName (show isPlainChar ' ' = false by decide)]

/-- The parameters of a function are found between its parentheses. -/
theorem declaredIn_headerLine (parameters : List String) :
    declaredIn (headerLine name parameters) =
      (Text.cut ',' ((String.intercalate ", " parameters).toList ++ [')', '\x7b'])).filterMap
        parameterIn := by
  rw [headerLine, declaredIn_append "void" ' '
    (name.toList ++ '(' :: ((String.intercalate ", " parameters).toList ++ [')', '\x7b']))
    (by simp) (by decide) (by decide)]
  simp only [declaredAfter, firstWord_name isName (show isPlainChar '(' = false by decide)]

end Forms

def parameterText (entry : String × SymbolClass) : String := declarator entry.2 entry.1

/-- A parameter as the translator reads it: a name of a class that parameters can have. -/
def IsParameter (entry : String × SymbolClass) : Prop :=
  isIdentifier entry.1 = true ∧ (entry.2 = .int ∨ entry.2 = .string)

def EndsParameter (after : List Char) : Prop :=
  after = [] ∨ ∃ rest, after = ')' :: rest

theorem parameterIn_parameterText {entry : String × SymbolClass} (valid : IsParameter entry)
    {blank after : List Char} (blanks : ∀ c ∈ blank, c = ' ') (ends : EndsParameter after) :
    parameterIn (blank ++ ((parameterText entry).toList ++ after)) = some entry := by
  obtain ⟨name, cls⟩ := entry
  obtain ⟨isName, isInt | isString⟩ := valid
  · have isInt : cls = .int := isInt
    subst isInt
    have start : (blank ++ ((parameterText (name, .int)).toList ++ after)).dropWhile (· = ' ') =
        "int".toList ++ ' ' :: (name.toList ++ after) := by
      rw [List.dropWhile_append_of_pos (by simpa using blanks)]
      simp [parameterText, declarator]
    have named : firstWord (name.toList ++ after) = (name, after) := by
      rcases ends with rfl | ⟨rest, rfl⟩
      · rw [List.append_nil]
        exact firstWord_self (all_isPlainChar isName)
      · exact firstWord_name isName (by decide) rest
    rw [parameterIn, start, firstWord_append (by decide) (by decide)]
    simp only [named]
  · have isString : cls = .string := isString
    subst isString
    have start : (blank ++ ((parameterText (name, .string)).toList ++ after)).dropWhile (· = ' ') =
        "char".toList ++ ' ' :: (name.toList ++ '[' :: (']' :: after)) := by
      rw [List.dropWhile_append_of_pos (by simpa using blanks)]
      simp [parameterText, declarator]
    rw [parameterIn, start, firstWord_append (by decide) (by decide)]
    simp only [firstWord_name isName (show isPlainChar '[' = false by decide)]

theorem comma_not_mem {entry : String × SymbolClass} (valid : IsParameter entry) :
    ',' ∉ (parameterText entry).toList := by
  obtain ⟨name, cls⟩ := entry
  obtain ⟨isName, isClass⟩ := valid
  have plain := all_isPlainChar isName
  rw [List.all_eq_true] at plain
  have absent : ',' ∉ name.toList := fun member => absurd (plain ',' member) (by decide)
  rcases isClass with isInt | isString
  · have isInt : cls = .int := isInt
    subst isInt
    simpa [parameterText, declarator] using absent
  · have isString : cls = .string := isString
    subst isString
    simpa [parameterText, declarator] using absent

theorem mem_parametersIn {entry : String × SymbolClass} (valid : IsParameter entry)
    (before after : List String) :
    entry ∈ (Text.cut ',' ((String.intercalate ", " (before ++ parameterText entry :: after)).toList ++
      [')', '\x7b'])).filterMap parameterIn := by
  have absent := comma_not_mem valid
  -- the piece that starts with the parameter, after blanks, is cut off by the next comma or is the last
  have first (blank : List Char) (blanks : ∀ c ∈ blank, c = ' ') :
      entry ∈ (Text.cut ',' (blank ++ (String.intercalate ", " (parameterText entry :: after)).toList ++
        [')', '\x7b'])).filterMap parameterIn := by
    have apart : ',' ∉ blank := fun member => absurd (blanks ',' member) (by decide)
    rw [List.mem_filterMap]
    cases after with
    | nil =>
        have alone : ',' ∉ blank ++ ((parameterText entry).toList ++ [')', '\x7b']) := by
          simp [apart, absent]
        refine ⟨_, ?_, parameterIn_parameterText valid blanks (Or.inr ⟨['\x7b'], rfl⟩)⟩
        rw [String.intercalate_singleton, List.append_assoc, Text.cut_self alone]
        exact List.mem_singleton_self _
    | cons next rest =>
        have alone : ',' ∉ blank ++ ((parameterText entry).toList ++ []) := by simp [apart, absent]
        refine ⟨_, ?_, parameterIn_parameterText valid blanks (Or.inl rfl)⟩
        have split : blank ++ (String.intercalate ", " (parameterText entry :: next :: rest)).toList ++
              [')', '\x7b'] =
            (blank ++ ((parameterText entry).toList ++ [])) ++
              ',' :: (' ' :: (String.intercalate ", " (next :: rest)).toList ++ [')', '\x7b']) := by
          simp [String.intercalate_cons_cons]
        rw [split, Text.cut_append alone]
        exact List.mem_cons_self
  cases before with
  | nil => exact first [] (by simp)
  | cons head tail =>
      have split : (String.intercalate ", " (head :: tail ++ parameterText entry :: after)).toList ++
            [')', '\x7b'] =
          (String.intercalate ", " (head :: tail)).toList ++
            ',' :: ([' '] ++ (String.intercalate ", " (parameterText entry :: after)).toList ++
              [')', '\x7b']) := by
        rw [String.intercalate_append_of_ne_nil (by simp) (by simp)]
        simp
      rw [split, Text.cut_append_cons, List.filterMap_append]
      exact List.mem_append_right _ (first [' '] (by simp))

/-- A list of parameters declares them and nothing else. -/
theorem parametersIn_eq {entries : List (String × SymbolClass)}
    (valid : ∀ entry ∈ entries, IsParameter entry) :
    (Text.cut ',' ((String.intercalate ", " (entries.map parameterText)).toList ++
      [')', '\x7b'])).filterMap parameterIn = entries := by
  have spaced (blank : List Char) (blanks : ∀ c ∈ blank, c = ' ') (nonempty : entries ≠ []) :
      (Text.cut ',' (blank ++ ((String.intercalate ", " (entries.map parameterText)).toList ++
        [')', '\x7b']))).filterMap parameterIn = entries := by
    induction entries generalizing blank with
    | nil => exact absurd rfl nonempty
    | cons entry rest ih =>
        have here := valid entry List.mem_cons_self
        have absent := comma_not_mem here
        have apart : ',' ∉ blank := fun member => absurd (blanks ',' member) (by decide)
        cases rest with
        | nil =>
            have alone : ',' ∉ blank ++ ((parameterText entry).toList ++ [')', '\x7b']) := by
              simp [apart, absent]
            rw [List.map_singleton, String.intercalate_singleton, Text.cut_self alone]
            simp only [List.filterMap_cons,
              parameterIn_parameterText here blanks (Or.inr ⟨['\x7b'], rfl⟩), List.filterMap_nil]
        | cons next rest =>
            have alone : ',' ∉ blank ++ ((parameterText entry).toList ++ []) := by simp [apart, absent]
            have later := ih (fun other member => valid other (List.mem_cons_of_mem _ member))
              [' '] (by simp) (List.cons_ne_nil _ _)
            have split : blank ++ ((String.intercalate ", "
                  ((entry :: next :: rest).map parameterText)).toList ++ [')', '\x7b']) =
                (blank ++ ((parameterText entry).toList ++ [])) ++
                  ',' :: ([' '] ++ ((String.intercalate ", "
                    ((next :: rest).map parameterText)).toList ++ [')', '\x7b'])) := by
              simp [String.intercalate_cons_cons]
            rw [split, Text.cut_append alone]
            simp only [List.filterMap_cons, parameterIn_parameterText here blanks (Or.inl rfl), later]
  cases entries with
  | nil => decide
  | cons entry rest => exact spaced [] (by simp) (List.cons_ne_nil _ _)

/-- Every name that a line declares is found by reading the line. -/
theorem Declares.mem_declaredIn {name line : String} {cls : SymbolClass}
    (declares : Declares name cls line) (isName : isIdentifier name = true) :
    (name, cls) ∈ declaredIn line := by
  cases declares with
  | int value shape =>
      rw [shape, declaredIn_int isName]
      exact List.mem_singleton_self _
  | bool value shape =>
      rw [shape, declaredIn_bool isName]
      exact List.mem_singleton_self _
  | string value shape =>
      rw [shape, declaredIn_string isName]
      exact List.mem_singleton_self _
  | intList elements shape =>
      rw [shape, declaredIn_intList isName]
      exact List.mem_singleton_self _
  | loop rest shape =>
      rw [shape, declaredIn_loop isName]
      exact List.mem_singleton_self _
  | intParameter isFunction shape =>
      rw [shape, declaredIn_headerLine isFunction]
      exact mem_parametersIn (⟨isName, Or.inl rfl⟩ : IsParameter (name, .int)) _ _
  | stringParameter isFunction shape =>
      rw [shape, declaredIn_headerLine isFunction]
      exact mem_parametersIn (⟨isName, Or.inr rfl⟩ : IsParameter (name, .string)) _ _

end DawnC
