import DawnC.Proofs.Run

set_option autoImplicit false

namespace DawnC

inductive Stop where
  /-- there is no atom at the index -/
  | outside (index : Int)
  /-- the atoms have no part from one index to the other -/
  | badPart (start stop : Nat)
  /-- no block is open that could be closed -/
  | noBlock
  /-- the program is at fault; this is the state reached by then -/
  | reported (misstep : Misstep) (state : Translator)

def Stop.ofMisstep {α : Type} (t : Translator) (result : Except Misstep α) : Except Stop α :=
  result.mapError (Stop.reported · t)

def Stop.ofStep : Step → Except Stop (Int × Translator)
  | .ok (n, t) => .ok (n, t)
  | .error (m, t) => .error (.reported m t)

namespace Indexed

section Definitions

variable (atoms : List Atom) (t : Translator)

def atomAt (index : Int) : Except Stop Atom :=
  if index < 0 then .error (.outside index)
  else
    match atoms[index.toNat]? with
    | some a => .ok a
    | none => .error (.outside index)

def part (start stop : Nat) : Except Stop (List Atom) :=
  if start ≤ stop ∧ stop ≤ atoms.length then .ok ((atoms.take stop).drop start)
  else .error (.badPart start stop)

def pop : Except Stop Translator :=
  match t.blocks with
  | [] => .error .noBlock
  | b :: rest => .ok (t.closeBlock b rest)

def report {α : Type} (index : Nat) (violation : Violation) : Except Stop α :=
  .error (.reported ⟨index, violation⟩ t)

def need (index : Nat) : Except Stop Atom :=
  if index < atoms.length then atomAt atoms index else report t index .endOfInput

def expect (text : String) (index : Nat) : Except Stop Unit := do
  let a ← need atoms t index
  if a.is text then pure () else report t index (.expected text)

def expectName (index : Nat) : Except Stop String := do
  let a ← need atoms t index
  if a.kind = .word && isIdentifier a.text then pure a.text else report t index .expectedName

def expectBound (index : Nat) : Except Stop String := do
  let a ← need atoms t index
  if a.kind = .word && (isInteger a.text || t.symbols.classOf a.text = .int) then pure a.text
  else report t index .badLoopBound

def sameStatement (i j : Nat) : Except Stop Bool := do
  let a ← atomAt atoms i
  let b ← atomAt atoms j
  pure (a.stmt = b.stmt)

/-- The index after the last atom of the statement of `i`, looked for from `j` on. -/
def statementEnd (i j : Nat) : Except Stop Nat :=
  if j < atoms.length then do
    if ← sameStatement atoms i j then
      let b ← atomAt atoms j
      if b.is "\x7d" then pure j else statementEnd i (j + 1)
    else pure j
  else pure j
termination_by atoms.length - j

def expression (start stop : Nat) : Except Stop String := do
  if stop ≤ start then report t start .expectedExpression
  else
    let part ← part atoms start stop
    pure (spaced (part.map (·.text)))

/-- Reads arguments from `j` on; the first one starts at `start`. -/
def argumentsFrom (start : Nat) (args current : List String) (j : Nat) :
    Except Stop (List String × Int) :=
  if j < atoms.length then do
    let a ← atomAt atoms j
    if a.is ")" then
      if !current.isEmpty then pure ((spaced current.reverse :: args).reverse, (j : Int) - start + 1)
      else if !args.isEmpty then report t j .missingArgument
      else pure ([], (j : Int) - start + 1)
    else if a.is "," then
      if current.isEmpty then report t j .missingArgument
      else argumentsFrom start (spaced current.reverse :: args) [] (j + 1)
    else if a.is "\x7d" then report t j (.expected ")")
    else argumentsFrom start args (a.text :: current) (j + 1)
  else report t atoms.length (.expected ")")
termination_by atoms.length - j

def arguments (start : Nat) : Except Stop (List String × Int) := argumentsFrom atoms t start [] [] start

/-- Reads the elements of a list from `j` on, and gives the index of the bracket after them. -/
def elementsFrom (texts : List String) (j : Nat) : Except Stop (String × Nat) :=
  if j < atoms.length then do
    let a ← atomAt atoms j
    if a.is "]" then pure (String.join texts.reverse, j)
    else if a.is "\x7d" then report t j (.expected "]")
    else elementsFrom (a.text :: texts) (j + 1)
  else report t j .endOfInput
termination_by atoms.length - j

/-- Reads a parameter whose type is `a`, the atom at `j`, and declares it. -/
def parameter (j : Nat) (a : Atom) : Except Stop (String × SymbolTable) :=
  match parameterClass? a with
  | none => report t j .expectedParameterType
  | some cls => do
    let name ← expectName atoms t (j + 1)
    match t.symbols.declare name cls with
    | .ok symbols => pure (declarator cls name, symbols)
    | .error v => report t (j + 1) v

/-- Reads parameters from `j` on; the first one starts at `start`. -/
def parametersFrom (start : Nat) (symbols : SymbolTable) (texts : List String) (j : Nat) :
    Except Stop (List String × Int × SymbolTable) :=
  if j < atoms.length then do
    let a ← atomAt atoms j
    if a.is ")" then pure (texts.reverse, (j : Int) - start + 1, symbols)
    else if texts.isEmpty then
      let (text, symbols) ← parameter atoms { t with symbols } j a
      parametersFrom start symbols [text] (j + 2)
    else if a.is "," then
      let b ← need atoms { t with symbols } (j + 1)
      let (text, symbols) ← parameter atoms { t with symbols } (j + 1) b
      parametersFrom start symbols (text :: texts) (j + 3)
    else report { t with symbols } j .expectedCommaOrClose
  else report { t with symbols } j .endOfInput
termination_by atoms.length - j

variable (i : Nat)

def print : Except Stop (Int × Translator) := do
  let (args, n) ← arguments atoms t (i + 1)
  match args with
  | [arg] => pure (1 + n, t.emit ("printf(" ++ arg ++ ");"))
  | _ => report t i (.takesOneArgument "print")

def printFormatted (verb : String) : Except Stop (Int × Translator) := do
  let (args, n) ← arguments atoms t (i + 1)
  match args with
  | [arg] => pure (1 + n, t.emit ("printf(\"" ++ verb ++ "\\n\", " ++ arg ++ ");"))
  | _ =>
    let a ← atomAt atoms i
    report t i (.takesOneArgument a.text)

def printListElement : Except Stop (Int × Translator) := do
  let (args, n) ← arguments atoms t (i + 1)
  match args with
  | [list, position] =>
    if t.symbols.classOf list = .intList then
      pure (1 + n, t.emit ("printf(\"%d\\n\", " ++ list ++ "[" ++ position ++ "]);"))
    else report t (i + 1) (.notAList list)
  | _ => report t i .takesListAndIndex

def declare (index : Nat) (name : String) (cls : SymbolClass) : Except Stop Translator :=
  match t.symbols.declare name cls with
  | .ok symbols => pure { t with symbols }
  | .error v => report t index v

def declaration (cls : SymbolClass) : Except Stop (Int × Translator) := do
  let name ← expectName atoms t (i + 1)
  expect atoms t "=" (i + 2)
  let stop ← statementEnd atoms i i
  let value ← expression atoms t (i + 3) stop
  let t ← declare t (i + 1) name cls
  pure ((stop : Int) - i, t.emit (declarator cls name ++ " = " ++ value ++ ";"))

def intList : Except Stop (Int × Translator) := do
  let name ← expectName atoms t (i + 1)
  expect atoms t "=" (i + 2)
  expect atoms t "[" (i + 3)
  let (elements, j) ← elementsFrom atoms t [] (i + 4)
  let t ← declare t (i + 1) name .intList
  pure ((j : Int) - i + 1, t.emit ("int " ++ name ++ "[] = \x7b" ++ elements ++ "\x7d;"))

def assignment : Except Stop (Int × Translator) := do
  let stop ← statementEnd atoms i i
  let value ← expression atoms t (i + 2) stop
  let a ← atomAt atoms i
  pure ((stop : Int) - i, t.emit (a.text ++ " = " ++ value ++ ";"))

def call : Except Stop (Int × Translator) := do
  let (args, n) ← arguments atoms t (i + 1)
  match Translator.unresolvedArgument? t.symbols 1 args with
  | some (position, arg) => report t i (.unresolvedArgument position arg)
  | none =>
    let a ← atomAt atoms i
    pure (1 + n, t.emit (a.text ++ "(" ++ String.intercalate ", " args ++ ");"))

def followedBy (text : String) : Except Stop Bool :=
  if i + 1 < atoms.length then do
    let next ← atomAt atoms (i + 1 : Nat)
    if next.is text then sameStatement atoms i (i + 1) else pure false
  else pure false

def identifier : Except Stop (Int × Translator) := do
  let a ← atomAt atoms i
  match t.symbols.classOf a.text with
  | .int | .bool =>
    if ← followedBy atoms i "=" then assignment atoms t i
    else report t i (.expectedAssignment a.text)
  | .function => call atoms t i
  | .unknown => report t i .unresolvedIdentifier
  | cls => report t i (.notAStatement cls a.text)

def forLoop : Except Stop (Int × Translator) := do
  let name ← expectName atoms t (i + 1)
  expect atoms t "from" (i + 2)
  let low ← expectBound atoms t (i + 3)
  expect atoms t "to" (i + 4)
  let high ← expectBound atoms t (i + 5)
  let t ← declare t (i + 1) name .int
  pure (6, t.openBlock .loop i (Translator.loopLine name low high))

def thenEnd : Except Stop (Int × Translator) := do
  expect atoms t "end" (i + 1)
  match t.blocks.head? with
  | none => report t i .thenWithoutLoop
  | some b =>
    if b.kind = .loop then
      let t ← pop t
      pure (2, t)
    else report t i .thenWithoutLoop

def conditional : Except Stop (Int × Translator) := do
  let stop ← statementEnd atoms i i
  let condition ← expression atoms t (i + 1) stop
  pure ((stop : Int) - i, t.openBlock .conditional i ("if(" ++ condition ++ ")\x7b"))

def alternative : Except Stop (Int × Translator) := do
  if i = 0 then report t i .elseWithoutIf
  else
    let previous ← atomAt atoms ((i : Int) - 1)
    if !previous.is "\x7d" || t.closed ≠ some .conditional then report t i .elseWithoutIf
    else if ← followedBy atoms i "if" then pure (1, t.emit "else")
    else pure (1, t.openBlock .alternative i "else\x7b")

def function : Except Stop (Int × Translator) := do
  if !t.blocks.isEmpty then report t i .functionNotAtTop
  else
    let name ← expectName atoms t (i + 1)
    let (texts, n, symbols) ← parametersFrom atoms t (i + 2) t.symbols [] (i + 2)
    let t := { t with symbols }
    if name = entryFunction then
      if !texts.isEmpty then report t (i + 2) .mainTakesNoParameters
      else pure (2 + n, t.openBlock .function i "int main()\x7b")
    else
      let signature := Translator.signature name texts
      let t := { t with prototypes := t.prototypes ++ [signature ++ ";"] }
      pure (2 + n, t.openBlock .function i (signature ++ "\x7b"))

def applyClose : Except Stop (Int × Translator) :=
  match t.blocks with
  | [] => report t i .unexpectedClose
  | b :: rest =>
    if b.kind = .loop then pure (1, t.closeBrace b rest)
    else do
      let t ← pop t
      pure (1, t)

def blockClose : Except Stop (Int × Translator) := do
  let t ← if t.blocks.head?.any Block.isClosedLoop then pop t else pure t
  applyClose t i

/-- The construct at `i`: how far the index moves, and the state after it. -/
def construct : Except Stop (Int × Translator) := do
  let a ← atomAt atoms i
  if a.kind ≠ .word then
    if a.is "\x7d" then blockClose t i else report t i (.unexpectedKind a.kind)
  else
    match a.text with
    | "print" => print atoms t i
    | "print_str" => printFormatted atoms t i "%s"
    | "print_int" => printFormatted atoms t i "%d"
    | "print_list_element" => printListElement atoms t i
    | "int" => declaration atoms t i .int
    | "bool" => declaration atoms t i .bool
    | "string" => declaration atoms t i .string
    | "List<int>" => intList atoms t i
    | "for" => forLoop atoms t i
    | "then" => thenEnd atoms t i
    | "function" => function atoms t i
    | "if" => conditional atoms t i
    | "else" => alternative atoms t i
    | "include" | "#include" => pure (2, t)
    | _ => identifier atoms t i

end Definitions

section Pieces

open Stop (ofMisstep)

variable {atoms rest : List Atom} {t : Translator} {a : Atom} {i j k : Nat}

theorem ok_bind {α β : Type} (value : α) (next : α → Except Stop β) :
    (Except.ok value >>= next) = next value := rfl

theorem atomAt_eq (found : atoms[k]? = some a) : atomAt atoms k = .ok a := by
  rw [atomAt, if_neg (by omega), Int.toNat_natCast, found]

theorem getElem?_of_drop (here : atoms.drop k = a :: rest) : atoms[k]? = some a := by
  rw [← List.head?_drop, here]
  rfl

theorem lt_of_drop (here : atoms.drop k = a :: rest) : k < atoms.length := by
  rw [← not_le, ← List.drop_eq_nil_iff, here]
  exact List.cons_ne_nil _ _

theorem need_nil (here : atoms.drop k = []) : need atoms t k = report t k .endOfInput := by
  rw [need, if_neg (Nat.not_lt.mpr (List.drop_eq_nil_iff.mp here))]

theorem need_cons (here : atoms.drop k = a :: rest) : need atoms t k = .ok a := by
  rw [need, if_pos (lt_of_drop here), atomAt_eq (getElem?_of_drop here)]

theorem need_bind {α : Type} {test : Atom → Except Stop α} {piece : List Atom → Except Misstep α}
    (missing : piece [] = .error ⟨k, .endOfInput⟩)
    (present : ∀ a rest, test a = ofMisstep t (piece (a :: rest))) :
    (need atoms t k >>= test) = ofMisstep t (piece (atoms.drop k)) := by
  cases here : atoms.drop k with
  | nil =>
      rw [need_nil here, missing]
      rfl
  | cons a rest =>
      rw [need_cons here, ok_bind]
      exact present a rest

theorem expect_eq (text : String) :
    expect atoms t text k = ofMisstep t (DawnC.expect text k (atoms.drop k)) := by
  refine need_bind rfl fun a rest => ?_
  rw [DawnC.expect]
  split
  · rfl
  · rfl

theorem expectName_eq :
    expectName atoms t k = ofMisstep t (DawnC.expectName k (atoms.drop k)) := by
  refine need_bind rfl fun a rest => ?_
  rw [DawnC.expectName]
  split
  · rfl
  · rfl

theorem expectBound_eq :
    expectBound atoms t k = ofMisstep t (DawnC.expectBound t.symbols k (atoms.drop k)) := by
  refine need_bind rfl fun a rest => ?_
  rw [DawnC.expectBound]
  split
  · rfl
  · rfl

theorem declare_bind {α : Type} (name : String) (cls : SymbolClass)
    (next : Translator → Except Stop α) :
    (declare t k name cls >>= next) =
      ofMisstep t (declareAt t.symbols k name cls) >>= fun symbols => next { t with symbols } := by
  rw [declare, declareAt]
  cases t.symbols.declare name cls with
  | ok symbols => rfl
  | error v => rfl

theorem sameStatement_eq {b : Atom} (first : atoms[i]? = some a) (second : atoms[j]? = some b) :
    sameStatement atoms i j = .ok (decide (a.stmt = b.stmt)) := by
  rw [sameStatement, atomAt_eq first, atomAt_eq second]
  rfl

theorem followedBy_eq (here : atoms.drop i = a :: rest) (text : String) :
    followedBy atoms i text =
      .ok (rest.head?.any fun next => next.is text && a.stmt = next.stmt) := by
  have later := Cursor.drop_succ here
  rw [followedBy]
  cases rest with
  | nil =>
      rw [if_neg (Nat.not_lt.mpr (List.drop_eq_nil_iff.mp later))]
      rfl
  | cons next more =>
      have same := sameStatement_eq (getElem?_of_drop here) (getElem?_of_drop later)
      rw [if_pos (lt_of_drop later), atomAt_eq (getElem?_of_drop later), same]
      change (if next.is text = true then _ else _) = _
      split
      · rename_i isText
        simp [isText]
      · rename_i other
        simp [other]
        rfl

/-- The search for the end of a statement passes over the atoms that belong to it. -/
theorem statementEnd_from (first : atoms[i]? = some a) (j : Nat) :
    statementEnd atoms i j =
      .ok (j + ((atoms.drop j).takeWhile fun b => b.stmt = a.stmt && !b.is "\x7d").length) := by
  induction here : atoms.drop j generalizing j with
  | nil =>
      rw [statementEnd, if_neg (Nat.not_lt.mpr (List.drop_eq_nil_iff.mp here))]
      rfl
  | cons b rest ih =>
      have found := atomAt_eq (getElem?_of_drop here)
      have same := sameStatement_eq first (getElem?_of_drop here)
      rw [statementEnd, if_pos (lt_of_drop here), same, found, List.takeWhile_cons]
      change (if decide (a.stmt = b.stmt) = true then
        (if b.is "\x7d" = true then .ok j else statementEnd atoms i (j + 1)) else .ok j) = _
      by_cases together : a.stmt = b.stmt
      · by_cases brace : b.is "\x7d" = true
        · simp [together, brace]
        · rw [ih (j + 1) (Cursor.drop_succ here)]
          simp [together, brace]
          omega
      · simp [together, Ne.symm together]

theorem statementEnd_eq (inside : i < atoms.length) :
    statementEnd atoms i i = .ok (i + (statement (atoms.drop i)).length) := by
  cases here : atoms.drop i with
  | nil => exact absurd (List.drop_eq_nil_iff.mp here) (Nat.not_le.mpr inside)
  | cons a rest =>
      rw [statementEnd_from (getElem?_of_drop here), here]
      rfl

theorem statement_le (i : Nat) (inside : i < atoms.length) :
    i + (statement (atoms.drop i)).length ≤ atoms.length := by
  have shorter := (statement_isPrefix (atoms.drop i)).length_le
  rw [List.length_drop] at shorter
  omega

/-- What is cut out of the atoms up to the end of a statement is the rest of the statement. -/
theorem drop_take_statement (i k : Nat) :
    (atoms.take (i + (statement (atoms.drop i)).length)).drop (i + k) =
      (statement (atoms.drop i)).drop k := by
  have whole := List.prefix_iff_eq_take.mp (statement_isPrefix (atoms.drop i))
  rw [← List.drop_drop, List.drop_take, Nat.add_sub_cancel_left, ← whole]

theorem expression_eq (inside : i < atoms.length) (k : Nat) :
    expression atoms t (i + k) (i + (statement (atoms.drop i)).length) =
      ofMisstep t (DawnC.expression (i + k) ((statement (atoms.drop i)).drop k)) := by
  rw [expression]
  split
  · rename_i short
    rw [List.drop_eq_nil_iff.mpr (by omega)]
    rfl
  · rename_i long
    have bounds := statement_le i inside
    rw [part, if_pos ⟨by omega, bounds⟩, drop_take_statement]
    cases value : (statement (atoms.drop i)).drop k with
    | nil =>
        rw [List.drop_eq_nil_iff] at value
        omega
    | cons b more => rfl

theorem argumentsFrom_eq {start taken : Nat} (bound : start + taken ≤ atoms.length)
    (args current : List String) :
    argumentsFrom atoms t start args current (start + taken) =
      ofMisstep t ((DawnC.argumentsFrom args current taken (start + taken)
        (atoms.drop (start + taken))).map fun r => (r.1, (r.2 : Int))) := by
  induction here : atoms.drop (start + taken) generalizing taken args current with
  | nil =>
      have past := List.drop_eq_nil_iff.mp here
      rw [argumentsFrom, if_neg (Nat.not_lt.mpr past), Nat.le_antisymm past bound]
      rfl
  | cons a rest ih =>
      have inside := lt_of_drop here
      have next := @ih (taken + 1) (by omega)
      rw [show start + (taken + 1) = start + taken + 1 from rfl] at next
      have span : ((start + taken : Nat) : Int) - start + 1 = ((taken + 1 : Nat) : Int) := by omega
      rw [argumentsFrom, if_pos inside, atomAt_eq (getElem?_of_drop here), span, DawnC.argumentsFrom]
      change (if a.is ")" = true then _ else _) = _
      by_cases closes : a.is ")" = true
      · rw [if_pos closes, if_pos closes]
        split
        · rfl
        · split
          · rfl
          · rfl
      rw [if_neg closes, if_neg closes]
      by_cases comma : a.is "," = true
      · rw [if_pos comma, if_pos comma]
        split
        · rfl
        · exact next _ _ (Cursor.drop_succ here)
      rw [if_neg comma, if_neg comma]
      split
      · rfl
      · exact next _ _ (Cursor.drop_succ here)

theorem arguments_eq (inside : i < atoms.length) :
    arguments atoms t (i + 1) =
      ofMisstep t ((DawnC.arguments (i + 1) (atoms.drop (i + 1))).map fun r => (r.1, (r.2 : Int))) := by
  have bound : i + 1 + 0 ≤ atoms.length := inside
  exact argumentsFrom_eq bound [] []

theorem elementsFrom_eq {start taken : Nat} (texts : List String) :
    elementsFrom atoms t texts (start + taken) =
      ofMisstep t ((DawnC.elementsFrom texts taken (start + taken)
        (atoms.drop (start + taken))).map fun r => (r.1, start + r.2 - 1)) := by
  induction here : atoms.drop (start + taken) generalizing taken texts with
  | nil =>
      rw [elementsFrom, if_neg (Nat.not_lt.mpr (List.drop_eq_nil_iff.mp here))]
      rfl
  | cons a rest ih =>
      have next := @ih (taken + 1)
      rw [elementsFrom, if_pos (lt_of_drop here), atomAt_eq (getElem?_of_drop here),
        DawnC.elementsFrom]
      change (if a.is "]" = true then _ else _) = _
      by_cases closes : a.is "]" = true
      · rw [if_pos closes, if_pos closes]
        rfl
      rw [if_neg closes, if_neg closes]
      split
      · rfl
      · exact next _ (Cursor.drop_succ here)

def ofParameters (t : Translator) :
    Except (Misstep × SymbolTable) Parameters → Except Stop (List String × Int × SymbolTable)
  | .ok params => .ok (params.texts, params.taken, params.symbols)
  | .error (m, symbols) => .error (.reported m { t with symbols })

theorem parameter_eq {symbols : SymbolTable} {texts : List String} {taken : Nat} {cls : SymbolClass}
    (type : parameterClass? a = some cls)
    {go : String × SymbolTable → Except Stop (List String × Int × SymbolTable)}
    (later : ∀ text symbols, go (text, symbols) = ofParameters t
      (DawnC.parametersFrom symbols (text :: texts) (taken + 1) (j + 2) .separator
        (atoms.drop (j + 2)))) :
    (parameter atoms { t with symbols } j a >>= go) =
      ofParameters t (DawnC.parametersFrom symbols texts taken (j + 1) (.name cls)
        (atoms.drop (j + 1))) := by
  rw [parameter, type]
  dsimp only
  rw [expectName_eq]
  cases here : atoms.drop (j + 1) with
  | nil => rfl
  | cons b rest =>
      rw [DawnC.expectName, DawnC.parametersFrom]
      by_cases isName : (b.kind = .word && isIdentifier b.text) = true
      · rw [if_pos isName, if_pos isName]
        have next := later (declarator cls b.text)
        rw [Cursor.drop_succ here] at next
        change ((match symbols.declare b.text cls with
          | .ok symbols => pure (declarator cls b.text, symbols)
          | .error v => report { t with symbols } (j + 1) v) >>= go) = _
        cases symbols.declare b.text cls with
        | ok symbols' => exact next symbols'
        | error v => rfl
      · rw [if_neg isName, if_neg isName]
        rfl

theorem parametersFrom_eq {start taken : Nat} (symbols : SymbolTable) (texts : List String) :
    parametersFrom atoms t start symbols texts (start + taken) =
      ofParameters t (DawnC.parametersFrom symbols texts taken (start + taken)
        (if texts.isEmpty then .start else .separator) (atoms.drop (start + taken))) := by
  induction remaining : atoms.length - (start + taken) using Nat.strongRecOn
    generalizing taken symbols texts with
  | ind left ih =>
    cases here : atoms.drop (start + taken) with
    | nil =>
        rw [parametersFrom, if_neg (Nat.not_lt.mpr (List.drop_eq_nil_iff.mp here))]
        rfl
    | cons a rest =>
        have inside := lt_of_drop here
        have span : ((start + taken : Nat) : Int) - start + 1 = ((taken + 1 : Nat) : Int) := by omega
        rw [parametersFrom, if_pos inside, atomAt_eq (getElem?_of_drop here), span]
        have next := Cursor.drop_succ here
        have advance (n : Nat) (forward : 0 < n) : atoms.length - (start + (taken + n)) < left := by
          omega
        change (if a.is ")" = true then _ else _) = _
        cases texts with
        | nil =>
            change _ = ofParameters t (DawnC.parametersFrom symbols [] taken (start + taken) .start _)
            rw [DawnC.parametersFrom]
            by_cases closes : a.is ")" = true
            · rw [if_pos closes, if_pos closes]
              rfl
            rw [if_neg closes, if_neg closes]
            change (parameter atoms { t with symbols } (start + taken) a >>= _) = _
            cases type : parameterClass? a with
            | none =>
                rw [parameter, type]
                rfl
            | some cls =>
                rw [← next]
                exact parameter_eq type fun text symbols' => ih _ (advance 2 (by omega)) _ _ rfl
        | cons text texts =>
            change _ = ofParameters t
              (DawnC.parametersFrom symbols (text :: texts) taken (start + taken) .separator _)
            rw [DawnC.parametersFrom]
            by_cases closes : a.is ")" = true
            · rw [if_pos closes, if_pos closes]
              rfl
            rw [if_neg closes, if_neg closes]
            change (if a.is "," = true then _ else _) = _
            by_cases comma : a.is "," = true
            · rw [if_pos comma, if_pos comma]
              cases here' : rest with
              | nil =>
                  rw [here'] at next
                  rw [need_nil next]
                  rfl
              | cons b more =>
                  rw [here'] at next
                  rw [need_cons next, DawnC.parametersFrom]
                  change (parameter atoms { t with symbols } (start + taken + 1) b >>= _) = _
                  cases type : parameterClass? b with
                  | none =>
                      rw [parameter, type]
                      rfl
                  | some cls =>
                      rw [← Cursor.drop_succ next]
                      exact parameter_eq type fun text symbols' => ih _ (advance 3 (by omega)) _ _ rfl
            · rw [if_neg comma, if_neg comma]
              rfl

end Pieces

section Constructs

open Stop (ofMisstep ofStep)

variable {atoms rest : List Atom} {t : Translator} {a : Atom} {i : Nat}

theorem ok_eq_ofStep {m : Int} {n : Nat} {t' : Translator} (span : m = n) :
    (Except.ok (m, t') : Except Stop (Int × Translator)) = ofStep (.ok (n, t')) := by
  rw [span]
  rfl

theorem ofStep_bind {α : Type} (first : Except Misstep α)
    (next : α → Except Misstep (Nat × Translator)) :
    ofStep (t.keeping (first >>= next)) =
      ofMisstep t first >>= fun value => ofStep (t.keeping (next value)) := by
  cases first with
  | error m => rfl
  | ok value => rfl

theorem print_eq (inside : i < atoms.length) :
    print atoms t i = ofStep (t.keeping (t.print i (atoms.drop i))) := by
  rw [print, Translator.print, List.drop_drop, arguments_eq inside]
  rcases DawnC.arguments (i + 1) (atoms.drop (i + 1)) with m | ⟨args, taken⟩
  · rfl
  rcases args with _ | ⟨arg, _ | ⟨second, more⟩⟩
  · rfl
  · exact ok_eq_ofStep (by omega)
  · rfl

theorem printFormatted_eq (inside : i < atoms.length) (first : atoms[i]? = some a) (verb : String) :
    printFormatted atoms t i verb =
      ofStep (t.keeping (t.printFormatted i (atoms.drop i) a.text verb)) := by
  rw [printFormatted, Translator.printFormatted, List.drop_drop, arguments_eq inside, atomAt_eq first]
  rcases DawnC.arguments (i + 1) (atoms.drop (i + 1)) with m | ⟨args, taken⟩
  · rfl
  rcases args with _ | ⟨arg, _ | ⟨second, more⟩⟩
  · rfl
  · exact ok_eq_ofStep (by omega)
  · rfl

theorem printListElement_eq (inside : i < atoms.length) :
    printListElement atoms t i = ofStep (t.keeping (t.printListElement i (atoms.drop i))) := by
  rw [printListElement, Translator.printListElement, List.drop_drop, arguments_eq inside]
  rcases DawnC.arguments (i + 1) (atoms.drop (i + 1)) with m | ⟨args, taken⟩
  · rfl
  rcases args with _ | ⟨list, _ | ⟨position, _ | ⟨third, more⟩⟩⟩
  · rfl
  · rfl
  · change (if t.symbols.classOf list = .intList then _ else _) =
      ofStep (t.keeping (if t.symbols.classOf list = .intList then _ else _))
    split
    · exact ok_eq_ofStep (by omega)
    · rfl
  · rfl

theorem declaration_eq (inside : i < atoms.length) (cls : SymbolClass) :
    declaration atoms t i cls = ofStep (t.keeping (t.declaration i (atoms.drop i) cls)) := by
  rw [declaration, Translator.declaration, ofStep_bind, List.drop_drop, expectName_eq]
  refine bind_congr fun name => ?_
  rw [ofStep_bind, List.drop_drop, expect_eq]
  refine bind_congr fun _ => ?_
  rw [ofStep_bind, statementEnd_eq inside]
  change (expression atoms t (i + 3) (i + (statement (atoms.drop i)).length) >>= _) = _
  rw [expression_eq inside]
  refine bind_congr fun value => ?_
  rw [ofStep_bind, declare_bind]
  exact bind_congr fun symbols => ok_eq_ofStep (by omega)

theorem intList_eq : intList atoms t i = ofStep (t.keeping (t.intList i (atoms.drop i))) := by
  rw [intList, Translator.intList, ofStep_bind, List.drop_drop, expectName_eq]
  refine bind_congr fun name => ?_
  rw [ofStep_bind, List.drop_drop, expect_eq]
  refine bind_congr fun _ => ?_
  rw [ofStep_bind, List.drop_drop, expect_eq]
  refine bind_congr fun _ => ?_
  have read : elementsFrom atoms t [] (i + 4) = _ := @elementsFrom_eq atoms t (i + 4) 0 []
  rw [read, List.drop_drop]
  change (ofMisstep t ((DawnC.elementsFrom [] 0 (i + 4) (atoms.drop (i + 4))).map _) >>= _) = _
  rcases DawnC.elementsFrom [] 0 (i + 4) (atoms.drop (i + 4)) with m | ⟨elements, taken⟩
  · rfl
  change (declare t (i + 1) name .intList >>= _) =
    ofStep (t.keeping (declareAt t.symbols (i + 1) name .intList >>= _))
  rw [ofStep_bind, declare_bind]
  exact bind_congr fun symbols => ok_eq_ofStep (by omega)

theorem assignment_eq (inside : i < atoms.length) (first : atoms[i]? = some a) :
    assignment atoms t i = ofStep (t.keeping (t.assignment i (atoms.drop i) a.text)) := by
  rw [assignment, Translator.assignment, ofStep_bind, statementEnd_eq inside]
  change (expression atoms t (i + 2) (i + (statement (atoms.drop i)).length) >>= _) = _
  rw [expression_eq inside, atomAt_eq first]
  exact bind_congr fun value => ok_eq_ofStep (by omega)

theorem call_eq (inside : i < atoms.length) (first : atoms[i]? = some a) :
    call atoms t i = ofStep (t.keeping (t.call i (atoms.drop i) a.text)) := by
  rw [call, Translator.call, List.drop_drop, arguments_eq inside, atomAt_eq first]
  rcases DawnC.arguments (i + 1) (atoms.drop (i + 1)) with m | ⟨args, taken⟩
  · rfl
  change (match Translator.unresolvedArgument? t.symbols 1 args with
    | some (position, arg) => report t i (.unresolvedArgument position arg)
    | none => .ok (1 + (taken : Int), t.emit (a.text ++ "(" ++ String.intercalate ", " args ++ ");"))) =
    ofStep (t.keeping (match Translator.unresolvedArgument? t.symbols 1 args with
      | some (position, arg) => .error ⟨i, .unresolvedArgument position arg⟩
      | none => .ok (1 + taken, t.emit (a.text ++ "(" ++ String.intercalate ", " args ++ ");"))))
  cases Translator.unresolvedArgument? t.symbols 1 args with
  | some unresolved => rfl
  | none => exact ok_eq_ofStep (by omega)

theorem conditional_eq (inside : i < atoms.length) :
    conditional atoms t i = ofStep (t.keeping (t.conditional i (atoms.drop i))) := by
  rw [conditional, Translator.conditional, ofStep_bind, statementEnd_eq inside]
  change (expression atoms t (i + 1) (i + (statement (atoms.drop i)).length) >>= _) = _
  rw [expression_eq inside]
  exact bind_congr fun value => ok_eq_ofStep (by omega)

theorem identifier_eq (here : atoms.drop i = a :: rest) :
    identifier atoms t i = ofStep (t.keeping (t.identifier i (a :: rest) a)) := by
  have inside := lt_of_drop here
  have first := getElem?_of_drop here
  rw [identifier, atomAt_eq first, ok_bind, Translator.identifier, followedBy_eq here]
  have assigned (equals : Bool) :
      (if equals = true then assignment atoms t i else report t i (.expectedAssignment a.text)) =
        ofStep (t.keeping (if equals = true then t.assignment i (a :: rest) a.text
          else throw ⟨i, .expectedAssignment a.text⟩)) := by
    rw [assignment_eq inside first, here]
    cases equals with
    | true => rfl
    | false => rfl
  cases t.symbols.classOf a.text with
  | int =>
      cases rest with
      | nil => exact assigned false
      | cons next more => exact assigned (next.is "=" && a.stmt = next.stmt)
  | bool =>
      cases rest with
      | nil => exact assigned false
      | cons next more => exact assigned (next.is "=" && a.stmt = next.stmt)
  | function =>
      rw [← here]
      exact call_eq inside first
  | unknown => rfl
  | _ => rfl

theorem forLoop_eq : forLoop atoms t i = ofStep (t.keeping (t.forLoop i (atoms.drop i))) := by
  rw [forLoop, Translator.forLoop, ofStep_bind, List.drop_drop, expectName_eq]
  refine bind_congr fun name => ?_
  rw [ofStep_bind, List.drop_drop, expect_eq]
  refine bind_congr fun _ => ?_
  rw [ofStep_bind, List.drop_drop, expectBound_eq]
  refine bind_congr fun low => ?_
  rw [ofStep_bind, List.drop_drop, expect_eq]
  refine bind_congr fun _ => ?_
  rw [ofStep_bind, List.drop_drop, expectBound_eq]
  refine bind_congr fun high => ?_
  rw [ofStep_bind, declare_bind]
  exact bind_congr fun symbols => rfl

theorem thenEnd_eq : thenEnd atoms t i = ofStep (t.keeping (t.thenEnd i (atoms.drop i))) := by
  rw [thenEnd, Translator.thenEnd, ofStep_bind, List.drop_drop, expect_eq]
  refine bind_congr fun _ => ?_
  cases blocks : t.blocks with
  | nil => rfl
  | cons b outer =>
      rw [pop, blocks]
      change (if b.kind = .loop then _ else _) = ofStep (t.keeping (if b.kind = .loop then _ else _))
      split
      · rfl
      · rfl

theorem alternative_eq (here : atoms.drop i = a :: rest) :
    alternative atoms t i =
      ofStep (t.keeping (t.alternative i (a :: rest) (Cursor.before atoms i) a)) := by
  rw [alternative, followedBy_eq here, Translator.alternative]
  cases i with
  | zero =>
      rw [if_pos rfl, Cursor.before_zero]
      rfl
  | succ k =>
      obtain ⟨previous, found⟩ : ∃ previous, atoms[k]? = some previous :=
        ⟨_, List.getElem?_eq_getElem (Nat.lt_of_succ_lt (lt_of_drop here))⟩
      have before : Cursor.before atoms (k + 1) = some previous := by
        rw [Cursor.before, List.take_add_one, found]
        simp
      rw [if_neg (Nat.succ_ne_zero k), before, show ((k + 1 : Nat) : Int) - 1 = k by omega,
        atomAt_eq found, ok_bind, ok_bind]
      have same : (!(!previous.is "\x7d" || t.closed ≠ some .conditional)) =
          ((some previous).any (·.is "\x7d") && t.closed = some .conditional) := by
        simp
      cases after : (!previous.is "\x7d" || decide (t.closed ≠ some .conditional)) with
      | false =>
        rw [after] at same
        rw [← same, if_neg Bool.false_ne_true, if_pos Bool.not_false]
        cases rest with
        | nil => rfl
        | cons next more =>
            change (if (next.is "if" && decide (a.stmt = next.stmt)) = true then _ else _) =
              ofStep (t.keeping (if (next.is "if" && decide (a.stmt = next.stmt)) = true then _ else _))
            split
            · rfl
            · rfl
      | true =>
        rw [after] at same
        rw [← same]
        rfl

theorem function_eq : function atoms t i = ofStep (t.function i (atoms.drop i)) := by
  rw [function, Translator.function, List.drop_drop, List.drop_drop, expectName_eq]
  cases t.blocks.isEmpty with
  | false => rfl
  | true =>
      rcases DawnC.expectName (i + 1) (atoms.drop (i + 1)) with m | name
      · rfl
      have read : parametersFrom atoms t (i + 2) t.symbols [] (i + 2) = _ :=
        @parametersFrom_eq atoms t (i + 2) 0 t.symbols []
      rw [read]
      change (ofParameters t (parameters t.symbols (i + 2) (atoms.drop (i + 2))) >>= _) = _
      rcases parameters t.symbols (i + 2) (atoms.drop (i + 2)) with ⟨m, symbols⟩ | params
      · rfl
      change (if name = entryFunction then
          (if (!params.texts.isEmpty) = true then _ else _) else _) =
        ofStep (if name = entryFunction then
          (if (!params.texts.isEmpty) = true then _ else _) else _)
      split
      · split
        · rfl
        · exact ok_eq_ofStep (by omega)
      · exact ok_eq_ofStep (by omega)

theorem applyClose_eq :
    applyClose t i = ofStep (Translator.blockClose.applyClose i t t.blocks) := by
  rw [applyClose, pop]
  cases t.blocks with
  | nil => rfl
  | cons b outer =>
      rw [Translator.blockClose.applyClose]
      change (if b.kind = .loop then _ else _) = _
      split
      · rfl
      · rfl

theorem blockClose_eq : blockClose t i = ofStep (t.blockClose i) := by
  rw [Translator.applyClose_settle, ← applyClose_eq, blockClose, Translator.settle, pop]
  cases t.blocks with
  | nil => rfl
  | cons b outer =>
      have top : (b :: outer).head?.any Block.isClosedLoop = b.isClosedLoop := rfl
      rw [top]
      dsimp only
      by_cases closed : b.isClosedLoop = true
      · rw [if_pos closed, if_pos closed]
        rfl
      · rw [if_neg closed, if_neg closed]
        rfl

theorem construct_eq (here : atoms.drop i = a :: rest) :
    construct atoms t i = ofStep (t.construct (Cursor.before atoms i) i a (a :: rest)) := by
  have inside := lt_of_drop here
  have first := getElem?_of_drop here
  rw [construct, atomAt_eq first, ok_bind]
  by_cases isWord : a.kind = .word
  · rw [if_neg (not_not.mpr isWord)]
    split
    · rename_i text
      simp only [Translator.construct, isWord, text, ← here]
      exact print_eq inside
    · rename_i text
      simp only [Translator.construct, isWord, text, ← here]
      have read := @printFormatted_eq _ t _ _ inside first "%s"
      rw [text] at read
      exact read
    · rename_i text
      simp only [Translator.construct, isWord, text, ← here]
      have read := @printFormatted_eq _ t _ _ inside first "%d"
      rw [text] at read
      exact read
    · rename_i text
      simp only [Translator.construct, isWord, text, ← here]
      exact printListElement_eq inside
    · rename_i text
      simp only [Translator.construct, isWord, text, ← here]
      exact declaration_eq inside .int
    · rename_i text
      simp only [Translator.construct, isWord, text, ← here]
      exact declaration_eq inside .bool
    · rename_i text
      simp only [Translator.construct, isWord, text, ← here]
      exact declaration_eq inside .string
    · rename_i text
      simp only [Translator.construct, isWord, text, ← here]
      exact intList_eq
    · rename_i text
      simp only [Translator.construct, isWord, text, ← here]
      exact forLoop_eq
    · rename_i text
      simp only [Translator.construct, isWord, text, ← here]
      exact thenEnd_eq
    · rename_i text
      simp only [Translator.construct, isWord, text, ← here]
      exact function_eq
    · rename_i text
      simp only [Translator.construct, isWord, text, ← here]
      exact conditional_eq inside
    · rename_i text
      simp only [Translator.construct, isWord, text]
      exact alternative_eq here
    · rename_i text
      simp only [Translator.construct, isWord, text]
      rfl
    · rename_i text
      simp only [Translator.construct, isWord, text]
      rfl
    · have free : a.text ∉ leadingWords := by
        simp only [leadingWords, List.mem_cons, List.not_mem_nil, or_false, not_or]
        exact ⟨by assumption, by assumption, by assumption, by assumption, by assumption,
          by assumption, by assumption, by assumption, by assumption, by assumption,
          by assumption, by assumption, by assumption, by assumption, by assumption⟩
      rw [Translator.construct_of_free isWord free]
      exact identifier_eq here
  · rw [if_pos isWord, Translator.construct, if_pos isWord]
    split
    · exact blockClose_eq
    · rfl

-- past the end there is an access outside
example (t : Translator) : construct [] t 0 = .error (.outside 0) := rfl

end Constructs

end Indexed

end DawnC
