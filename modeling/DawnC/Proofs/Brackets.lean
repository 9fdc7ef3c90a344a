import DawnC.Proofs.Layout
import DawnC.Proofs.Lexeme

set_option autoImplicit false

namespace DawnC

def closerOf? (c : Char) : Option Char :=
  if c = '(' then some ')' else if c = '[' then some ']' else if c = '\x7b' then some '\x7d' else none

/-- One bracket, read where the brackets of `stack` are awaited, the innermost first. -/
def meet (stack : List Char) (c : Char) : Option (List Char) :=
  match closerOf? c with
  | some close => some (close :: stack)
  | none =>
    match stack with
    | [] => none
    | top :: outer => if top = c then some outer else none

/-- What is awaited after the brackets; none if one of them closes what is not open. -/
def awaiting (stack brackets : List Char) : Option (List Char) := brackets.foldlM meet stack

def isBalanced (brackets : List Char) : Bool := awaiting [] brackets = some []

@[simp] theorem awaiting_nil (stack : List Char) : awaiting stack [] = some stack := rfl

theorem awaiting_cons (stack : List Char) (c : Char) (rest : List Char) :
    awaiting stack (c :: rest) = (meet stack c).bind fun next => awaiting next rest := rfl

theorem awaiting_append (stack first second : List Char) :
    awaiting stack (first ++ second) = (awaiting stack first).bind fun next => awaiting next second :=
  List.foldlM_append

theorem closerOf?_eq_some {c close : Char} : closerOf? c = some close ↔
    c = '(' ∧ close = ')' ∨ c = '[' ∧ close = ']' ∨ c = '\x7b' ∧ close = '\x7d' := by
  grind [closerOf?]

theorem closerOf?_closer {c close : Char} (opens : closerOf? c = some close) :
    closerOf? close = none := by
  rcases closerOf?_eq_some.mp opens with ⟨-, rfl⟩ | ⟨-, rfl⟩ | ⟨-, rfl⟩ <;> rfl

theorem closerOf?_inj {c d close : Char} (opens : closerOf? c = some close)
    (opens' : closerOf? d = some close) : c = d := by
  grind [closerOf?]

theorem meet_opening {c close : Char} (opens : closerOf? c = some close) (stack : List Char) :
    meet stack c = some (close :: stack) := by
  simp only [meet, opens]

theorem meet_closing {c : Char} (closes : closerOf? c = none) (top : Char) (outer : List Char) :
    meet (top :: outer) c = if top = c then some outer else none := by
  simp only [meet, closes]

theorem meet_unmatched {c : Char} (closes : closerOf? c = none) : meet [] c = none := by
  simp only [meet, closes]

/-- Brackets of one kind: those that close were awaited or opened before. -/
theorem awaiting_count {c close : Char} (pair : closerOf? c = some close)
    {stack brackets after : List Char} (read : awaiting stack brackets = some after) :
    after.count close + brackets.count close = stack.count close + brackets.count c := by
  have distinct : c ≠ close := by
    rintro rfl
    rw [closerOf?_closer pair] at pair
    cases pair
  induction brackets generalizing stack with
  | nil =>
      cases read
      rfl
  | cons d rest ih =>
      rw [awaiting_cons] at read
      obtain ⟨next, met, read⟩ := Option.bind_eq_some_iff.mp read
      have counted := ih read
      cases opens : closerOf? d with
      | some other =>
          rw [meet_opening opens] at met
          cases met
          have notClose : d ≠ close := by
            rintro rfl
            rw [closerOf?_closer pair] at opens
            cases opens
          by_cases same : d = c
          · subst same
            rw [opens] at pair
            cases pair
            rw [List.count_cons_self] at counted ⊢
            rw [List.count_cons_of_ne notClose]
            omega
          · have apart : other ≠ close := by
              rintro rfl
              exact same (closerOf?_inj opens pair)
            rw [List.count_cons_of_ne apart] at counted
            rw [List.count_cons_of_ne notClose, List.count_cons_of_ne same]
            exact counted
      | none =>
          have notOpen : d ≠ c := by
            rintro rfl
            rw [pair] at opens
            cases opens
          cases stack with
          | nil =>
              rw [meet_unmatched opens] at met
              cases met
          | cons top outer =>
              rw [meet_closing opens] at met
              split at met
              · rename_i same
                subst same
                cases met
                rw [List.count_cons_of_ne notOpen, List.count_cons, List.count_cons]
                omega
              · cases met

/-- A bracket that closes nothing in a text is awaited before it as after it. -/
theorem awaiting_frame {close : Char} {brackets : List Char} (absent : close ∉ brackets)
    (stack base : List Char) :
    awaiting (stack ++ close :: base) brackets =
      (awaiting stack brackets).map fun after => after ++ close :: base := by
  induction brackets generalizing stack with
  | nil => rfl
  | cons d rest ih =>
      rw [List.mem_cons, not_or] at absent
      rw [awaiting_cons, awaiting_cons]
      cases opens : closerOf? d with
      | some other =>
          rw [meet_opening opens, meet_opening opens]
          exact ih absent.2 (other :: stack)
      | none =>
          cases stack with
          | nil => rw [List.nil_append, meet_closing opens, if_neg absent.1, meet_unmatched opens]; rfl
          | cons top outer =>
              rw [List.cons_append, meet_closing opens, meet_closing opens]
              split
              · exact ih absent.2 outer
              · rfl

/-- A pair around brackets that do not open one of its kind changes nothing. -/
theorem isBalanced_enclosed {c close : Char} (pair : closerOf? c = some close) {brackets : List Char}
    (absent : c ∉ brackets) : isBalanced (c :: (brackets ++ [close])) = isBalanced brackets := by
  have none := List.count_eq_zero.mpr absent
  have distinct : c ≠ close := by
    rintro rfl
    rw [closerOf?_closer pair] at pair
    cases pair
  rw [Bool.eq_iff_iff, isBalanced, isBalanced, decide_eq_true_eq, decide_eq_true_eq]
  by_cases inside : close ∈ brackets
  · -- one closing bracket more than opening ones, in both texts
    have some := List.count_pos_iff.mpr inside
    constructor
    · intro read
      have counted := awaiting_count pair read
      rw [List.count_cons_self, List.count_cons_of_ne distinct, List.count_append,
        List.count_append, List.count_singleton_self, List.count_nil] at counted
      have other : [close].count c = 0 := List.count_eq_zero.mpr (by simpa using distinct)
      omega
    · intro read
      have counted := awaiting_count pair read
      rw [List.count_nil] at counted
      omega
  · have framed := awaiting_frame inside [] []
    rw [awaiting_cons, meet_opening pair, Option.bind_some, awaiting_append]
    rw [List.nil_append] at framed
    rw [framed]
    cases read : awaiting [] brackets with
    | none => simp
    | some after =>
        rw [Option.map_some, Option.bind_some, awaiting_cons]
        cases after with
        | nil => simp [meet_closing (closerOf?_closer pair)]
        | cons top outer =>
            rw [List.cons_append, meet_closing (closerOf?_closer pair)]
            split <;> simp

def isBracket (c : Char) : Bool :=
  c = '(' || c = ')' || c = '[' || c = ']' || c = '\x7b' || c = '\x7d'

open Scanner (modeAfter)

/-- The brackets that stand outside literals, in a text that starts in this mode. -/
def bracketsFrom : Scanner.Mode → List Char → List Char
  | _, [] => []
  | mode, c :: rest =>
    (if mode = .plain && isBracket c then [c] else []) ++ bracketsFrom (mode.next c) rest

def bracketsOf (text : List Char) : List Char := bracketsFrom .plain text

def isTerminated (text : List Char) : Bool := text.foldl Scanner.Mode.next .plain = .plain

theorem bracketsFrom_append (mode : Scanner.Mode) (first second : List Char) :
    bracketsFrom mode (first ++ second) =
      bracketsFrom mode first ++ bracketsFrom (first.foldl Scanner.Mode.next mode) second := by
  induction first generalizing mode with
  | nil => rfl
  | cons c rest ih => rw [List.cons_append, bracketsFrom, bracketsFrom, ih, List.append_assoc]; rfl

theorem bracketsOf_append {first : List Char} (terminated : isTerminated first = true)
    (second : List Char) : bracketsOf (first ++ second) = bracketsOf first ++ bracketsOf second := by
  rw [isTerminated, decide_eq_true_eq] at terminated
  rw [bracketsOf, bracketsFrom_append, terminated]
  rfl

theorem isTerminated_append {first second : List Char} (terminated : isTerminated first = true)
    (terminated' : isTerminated second = true) : isTerminated (first ++ second) = true := by
  rw [isTerminated, decide_eq_true_eq] at terminated terminated' ⊢
  rw [List.foldl_append, terminated, terminated']

/-- What stays in one atom has no brackets outside literals. -/
theorem bracketsFrom_of_modeAfter {mode mode' : Scanner.Mode} {text : List Char}
    (stays : modeAfter mode text = some mode') :
    text.foldl Scanner.Mode.next mode = mode' ∧ bracketsFrom mode text = [] := by
  induction text generalizing mode with
  | nil =>
      cases mode <;> cases stays <;> exact ⟨rfl, rfl⟩
  | cons c rest ih =>
      cases mode with
      | plain =>
          simp only [modeAfter] at stays
          split at stays
          · rename_i quote
            subst quote
            exact ih stays
          · rename_i notQuote
            split at stays
            · rename_i plain
              have noBracket : isBracket c = false := by
                simp only [isPlainChar, isSeparator, isPunctuation, Bool.and_eq_true, Bool.not_eq_true',
                  Bool.or_eq_false_iff, decide_eq_false_iff_not] at plain
                simp [isBracket, plain]
              have next : Scanner.Mode.next .plain c = .plain := by rw [Scanner.Mode.next, if_neg notQuote]
              rw [List.foldl_cons, bracketsFrom, noBracket, next]
              exact ih stays
            · cases stays
      | quoted => exact ih stays
      | escaped => exact ih stays

theorem ne_quote_of_isPunctuation {c : Char} (punctuation : isPunctuation c = true) : c ≠ '"' := by
  rintro rfl
  exact absurd punctuation (by decide)

theorem isTerminated_singleton {c : Char} (punctuation : isPunctuation c = true) :
    isTerminated [c] = true := by
  simp [isTerminated, Scanner.Mode.next, ne_quote_of_isPunctuation punctuation]

namespace Atom

def brackets (a : Atom) : List Char := if a.kind = .punct then a.text.toList.filter isBracket else []

/-- The atom is a character of punctuation, or a text whose literals are terminated. -/
def IsWhole (a : Atom) : Prop :=
  a.kind = .punct ∧ (∃ c, isPunctuation c = true ∧ a.text = String.ofList [c]) ∨
    a.kind ≠ .punct ∧ modeAfter .plain a.text.toList = some .plain

theorem brackets_of_not_punct {a : Atom} (other : a.kind ≠ .punct) : a.brackets = [] := by
  rw [brackets, if_neg other]

theorem IsWhole.isTerminated {a : Atom} (whole : a.IsWhole) : isTerminated a.text.toList = true := by
  rcases whole with ⟨-, c, punctuation, text⟩ | ⟨-, stays⟩
  · rw [text, String.toList_ofList]
    exact isTerminated_singleton punctuation
  · exact decide_eq_true (bracketsFrom_of_modeAfter stays).1

theorem IsWhole.bracketsOf {a : Atom} (whole : a.IsWhole) : bracketsOf a.text.toList = a.brackets := by
  rcases whole with ⟨isPunct, c, -, text⟩ | ⟨notPunct, stays⟩
  · rw [brackets, if_pos isPunct, text, String.toList_ofList]
    simp [DawnC.bracketsOf, bracketsFrom, List.filter_cons]
  · rw [brackets_of_not_punct notPunct]
    exact (bracketsFrom_of_modeAfter stays).2

theorem IsWhole.is_of_mem {a : Atom} (whole : a.IsWhole) {c : Char} (member : c ∈ a.brackets) :
    a.is (String.ofList [c]) = true ∧ isPunctuation c = true := by
  rcases whole with ⟨isPunct, d, punctuation, text⟩ | ⟨notPunct, -⟩
  · rw [brackets, if_pos isPunct, text, String.toList_ofList] at member
    obtain rfl := List.mem_singleton.mp (List.mem_filter.mp member).1
    exact ⟨by simp [Atom.is, isPunct, text], punctuation⟩
  · rw [brackets_of_not_punct notPunct] at member
    cases member

end Atom

namespace Scanner

variable {s : Scanner}

theorem kindOf_ne_punct (text : List Char) : kindOf text ≠ .punct := by
  rw [kindOf]
  split <;> simp

theorem Tidy.flush_whole (tidy : s.Tidy) (plain : s.mode = .plain) (whole : ∀ a ∈ s.done, a.IsWhole) :
    ∀ a ∈ s.flush.done, a.IsWhole := by
  intro a member
  simp only [Scanner.flush] at member
  split at member
  · exact whole a member
  · rcases List.mem_cons.mp member with rfl | earlier
    · refine Or.inr ⟨kindOf_ne_punct _, ?_⟩
      rw [String.toList_ofList, tidy.pending, plain]
    · exact whole a earlier

theorem Tidy.step_whole (tidy : s.Tidy) (whole : ∀ a ∈ s.done, a.IsWhole) (c : Char) :
    ∀ a ∈ (s.step c).done, a.IsWhole := by
  simp only [Scanner.step]
  split
  · rename_i plain
    have flushed := tidy.flush_whole plain whole
    simp only [Scanner.stepPlain]
    split
    · exact whole
    · split
      · split
        · exact flushed
        · exact flushed
      · split
        · rename_i punctuation
          have pushed : ∀ a ∈ (s.flush.push [c] .punct).done, a.IsWhole := by
            intro a member
            rcases List.mem_cons.mp member with rfl | earlier
            · exact Or.inl ⟨rfl, c, punctuation, rfl⟩
            · exact flushed a earlier
          split
          · exact pushed
          · exact pushed
        · exact whole
  · exact whole
  · exact whole

theorem Tidy.foldl_whole (tidy : s.Tidy) (whole : ∀ a ∈ s.done, a.IsWhole) (chars : List Char) :
    (∀ a ∈ (chars.foldl Scanner.step s).done, a.IsWhole) ∧
      (chars.foldl Scanner.step s).mode = chars.foldl Scanner.Mode.next s.mode := by
  induction chars generalizing s with
  | nil => exact ⟨whole, rfl⟩
  | cons c rest ih =>
      rw [List.foldl_cons, List.foldl_cons, ← step_mode]
      exact ih (tidy.step c) (tidy.step_whole whole c)

/-- A line whose literals are terminated gives whole atoms. -/
theorem Tidy.scanLine_whole (tidy : s.Tidy) (plain : s.mode = .plain)
    (whole : ∀ a ∈ s.done, a.IsWhole) {line : List Char}
    (ends : isComment line = true ∨ isTerminated line = true) :
    (∀ a ∈ (s.scanLine line).done, a.IsWhole) ∧ (s.scanLine line).mode = .plain := by
  simp only [Scanner.scanLine]
  split
  · exact ⟨whole, plain⟩
  · rename_i notComment
    refine ⟨?_, rfl⟩
    have ends : isTerminated (terminated line) = true := by
      have closed := ends.resolve_left notComment
      rw [terminated]
      split
      · exact closed
      · exact isTerminated_append closed rfl
    have next : Tidy { s with line := s.line + 1 } := ⟨tidy.pending, tidy.words⟩
    obtain ⟨read, mode⟩ := next.foldl_whole whole (terminated line)
    rw [isTerminated, decide_eq_true_eq] at ends
    refine (next.foldl _).flush_whole ?_ read
    rw [mode]
    exact (congrArg (fun start => (terminated line).foldl Scanner.Mode.next start) plain).trans ends

end Scanner

/-- In every line that is no comment the literals are terminated. -/
def TerminatesLiterals (lines : List Bytes) : Prop :=
  ∀ line ∈ lines, isComment (Utf8.decode line) = true ∨ isTerminated (Utf8.decode line) = true

instance (lines : List Bytes) : Decidable (TerminatesLiterals lines) :=
  inferInstanceAs (Decidable (∀ line ∈ lines, _))

/-- The brackets of source lines that stand outside literals and comments. -/
def sourceBrackets (lines : List Bytes) : List Char :=
  lines.flatMap fun line =>
    if isComment (Utf8.decode line) then [] else bracketsOf (Utf8.decode line)

/-- The atoms of lines whose literals are terminated are whole. -/
theorem isWhole_of_mem_lex {file : String} {lines : List Bytes} (ends : TerminatesLiterals lines)
    {a : Atom} (member : a ∈ lex file lines) : a.IsWhole := by
  have scanned (lines : List (List Char))
      (ends : ∀ line ∈ lines, isComment line = true ∨ isTerminated line = true) (s : Scanner)
      (tidy : s.Tidy) (plain : s.mode = .plain) (whole : ∀ a ∈ s.done, a.IsWhole) :
      ∀ a ∈ (lines.foldl Scanner.scanLine s).done, a.IsWhole := by
    induction lines generalizing s with
    | nil => exact whole
    | cons line rest ih =>
        obtain ⟨read, mode⟩ := tidy.scanLine_whole plain whole (ends line List.mem_cons_self)
        exact ih (fun other later => ends other (List.mem_cons_of_mem _ later)) _ (tidy.scanLine line)
          mode read
  rw [lex, lexText, List.mem_reverse] at member
  refine scanned _ ?_ _ (.fresh file) rfl (fun _ none => absurd none List.not_mem_nil) a member
  intro line listed
  obtain ⟨bytes, source, rfl⟩ := List.mem_map.mp listed
  exact ends bytes source

end DawnC
