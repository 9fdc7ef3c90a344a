import DawnC.Proofs.Run
import Mathlib.Data.List.Induction

set_option autoImplicit false

namespace DawnC

def opensBlock (line : String) : Bool := line.toList.getLast? = some '\x7b'

def closingLine : String := "\x7d"

def opensWith (start line : String) : Bool := start.toList.isPrefixOf line.toList && opensBlock line

def isLoopLine (line : String) : Bool := opensWith "for(" line

def isIfLine (line : String) : Bool := opensWith "if(" line

def isVoidLine (line : String) : Bool := opensWith "void " line

def isFunctionLine (line : String) : Bool := line = "int main()\x7b" || isVoidLine line

def isElseLine (line : String) : Bool := line = "else" || line = "else\x7b"

def BlockKind.heads : BlockKind → String → Bool
  | function, line => isFunctionLine line
  | loop, line => isLoopLine line
  | conditional, line => isIfLine line
  | alternative, line => line = "else\x7b"

/-- The opening line of a function as a declaration. -/
def prototypeOf (line : String) : String := String.ofList (line.toList.dropLast ++ [';'])

/-- One line seen after lines that left `stack` open, innermost first. -/
def follow (index : Nat) (line : String) (stack : List Nat) : Option (List Nat) :=
  if line = closingLine then
    match stack with
    | [] => none
    | _ :: outer => some outer
  else if opensBlock line then some (index :: stack)
  else some stack

/-- The indices of the opening lines that no closing line matches, innermost first; none if a closing
line has nothing to close. -/
def unmatched (lines : List String) : Option (List Nat) :=
  lines.zipIdx.foldlM (fun stack entry => follow entry.2 entry.1 stack) []

/-- The closing line at `last` matches the opening line at `first`. -/
def Matches (lines : List String) (first last : Nat) : Prop :=
  lines[last]? = some closingLine ∧ ∃ outer, unmatched (lines.take last) = some (first :: outer)

@[simp] theorem unmatched_nil : unmatched [] = some [] := rfl

theorem unmatched_concat (lines : List String) (line : String) :
    unmatched (lines ++ [line]) = (unmatched lines).bind (follow lines.length line) := by
  simp only [unmatched, List.zipIdx_append, List.foldlM_append, List.zipIdx_cons, List.zipIdx_nil,
    Nat.zero_add]
  cases List.foldlM (fun stack entry => follow entry.2 entry.1 stack) [] lines.zipIdx with
  | none => rfl
  | some stack =>
      simp only [List.foldlM_cons, List.foldlM_nil, bind, Option.bind_some]
      cases follow lines.length line stack <;> rfl

theorem unmatched_close {lines : List String} {index : Nat} {outer : List Nat}
    (before : unmatched lines = some (index :: outer)) :
    unmatched (lines ++ [closingLine]) = some outer := by
  rw [unmatched_concat, before]
  simp [follow]

theorem opensBlock_ne_closing {line : String} (opens : opensBlock line = true) :
    line ≠ closingLine := by
  rintro rfl
  exact absurd opens (by decide)

theorem unmatched_open {lines : List String} {line : String} {stack : List Nat}
    (before : unmatched lines = some stack) (opens : opensBlock line = true) :
    unmatched (lines ++ [line]) = some (lines.length :: stack) := by
  rw [unmatched_concat, before]
  simp [follow, opensBlock_ne_closing opens, opens]

theorem unmatched_plain {lines : List String} {line : String} {stack : List Nat}
    (before : unmatched lines = some stack) (open' : opensBlock line = false)
    (close : line ≠ closingLine) : unmatched (lines ++ [line]) = some stack := by
  rw [unmatched_concat, before]
  simp [follow, open', close]

/-- What is followed through all lines was followed through the first of them. -/
theorem unmatched_take {lines : List String} {stack : List Nat}
    (whole : unmatched lines = some stack) (k : Nat) :
    ∃ before, unmatched (lines.take k) = some before := by
  induction lines using List.reverseRecOn generalizing stack with
  | nil => exact ⟨[], by simp⟩
  | append_singleton lines line ih =>
      rw [unmatched_concat] at whole
      obtain ⟨before, known, -⟩ := Option.bind_eq_some_iff.mp whole
      by_cases inside : k ≤ lines.length
      · rw [List.take_append_of_le_length inside]
        exact ih known
      · rw [List.take_of_length_le (by simp only [List.length_append, List.length_singleton]; omega),
          unmatched_concat]
        exact ⟨stack, whole⟩

theorem follow_eq_some {index : Nat} {line : String} {stack after : List Nat}
    (next : follow index line stack = some after) :
    (line = closingLine ∧ ∃ k, stack = k :: after) ∨
      (line ≠ closingLine ∧ opensBlock line = true ∧ after = index :: stack) ∨
      (line ≠ closingLine ∧ opensBlock line = false ∧ after = stack) := by
  simp only [follow] at next
  split at next
  · rename_i closes
    cases stack with
    | nil => cases next
    | cons k outer =>
        cases next
        exact Or.inl ⟨closes, k, rfl⟩
  · rename_i other
    split at next
    · rename_i opens
      cases next
      exact Or.inr (Or.inl ⟨other, opens, rfl⟩)
    · rename_i plain
      cases next
      exact Or.inr (Or.inr ⟨other, Bool.not_eq_true _ ▸ plain, rfl⟩)

/-- What was open stays open or is closed; what else is open was opened since. -/
theorem mem_of_unmatched_append {lines more : List String} {stack after : List Nat}
    (before : unmatched lines = some stack) (whole : unmatched (lines ++ more) = some after) :
    ∀ k ∈ after, k ∈ stack ∨ lines.length ≤ k ∧ k < (lines ++ more).length := by
  induction more using List.reverseRecOn generalizing after with
  | nil =>
      rw [List.append_nil, before] at whole
      cases whole
      exact fun k member => Or.inl member
  | append_singleton more line ih =>
      rw [← List.append_assoc, unmatched_concat] at whole
      obtain ⟨between, known, next⟩ := Option.bind_eq_some_iff.mp whole
      have earlier := ih known
      rw [← List.append_assoc, List.length_append, List.length_singleton]
      have kept (k : Nat) (member : k ∈ between) :
          k ∈ stack ∨ lines.length ≤ k ∧ k < (lines ++ more).length + 1 :=
        (earlier k member).imp_right fun ⟨low, high⟩ => ⟨low, by omega⟩
      rcases follow_eq_some next with ⟨-, k, rfl⟩ | ⟨-, -, rfl⟩ | ⟨-, -, rfl⟩
      · exact fun k member => kept k (List.mem_cons_of_mem _ member)
      · intro k member
        rcases List.mem_cons.mp member with rfl | old
        · exact Or.inr ⟨by simp, by omega⟩
        · exact kept k old
      · exact kept

theorem lt_of_unmatched {lines : List String} {stack : List Nat}
    (whole : unmatched lines = some stack) {k : Nat} (member : k ∈ stack) : k < lines.length := by
  rcases mem_of_unmatched_append unmatched_nil whole k member with old | ⟨-, inside⟩
  · cases old
  · exact inside

theorem pairwise_unmatched {lines : List String} {stack : List Nat}
    (whole : unmatched lines = some stack) : stack.Pairwise (· > ·) := by
  induction lines using List.reverseRecOn generalizing stack with
  | nil =>
      cases whole
      exact .nil
  | append_singleton lines line ih =>
      rw [unmatched_concat] at whole
      obtain ⟨before, known, next⟩ := Option.bind_eq_some_iff.mp whole
      have sorted := ih known
      rcases follow_eq_some next with ⟨-, k, rfl⟩ | ⟨-, -, rfl⟩ | ⟨-, -, rfl⟩
      · exact sorted.of_cons
      · exact .cons (fun k member => lt_of_unmatched known member) sorted
      · exact sorted

/-- An opening line has one closing line at most. -/
theorem Matches.unique {lines : List String} {first last other : Nat}
    (found : Matches lines first last) (found' : Matches lines first other) : last = other := by
  -- after its closing line the opening line is not among the open ones, and it never comes back
  have apart {last other : Nat} (found : Matches lines first last)
      (found' : Matches lines first other) : ¬ last < other := by
    intro before
    obtain ⟨closes, outer, known⟩ := found
    obtain ⟨-, outer', known'⟩ := found'
    have closed : unmatched (lines.take (last + 1)) = some outer := by
      rw [List.take_add_one, closes]
      exact unmatched_close known
    have split : lines.take other = lines.take (last + 1) ++ (lines.take other).drop (last + 1) := by
      conv_lhs => rw [← List.take_append_drop (last + 1) (lines.take other)]
      rw [List.take_take, Nat.min_eq_left (by omega)]
    rw [split] at known'
    rcases mem_of_unmatched_append closed known' first List.mem_cons_self with old | ⟨later, -⟩
    · exact absurd (List.rel_of_pairwise_cons (pairwise_unmatched known) old) (lt_irrefl first)
    · have inside := lt_of_unmatched known List.mem_cons_self
      have bound := (List.getElem?_eq_some_iff.mp closes).1
      rw [List.length_take] at later inside
      omega
  exact Nat.le_antisymm (Nat.not_lt.mp (apart found' found)) (Nat.not_lt.mp (apart found found'))

/-- The closing line after lines that leave `first` innermost matches it. -/
theorem Matches.of_unmatched {before lines : List String} {first : Nat} {outer : List Nat}
    (innermost : unmatched before = some (first :: outer))
    (closes : before ++ [closingLine] <+: lines) : Matches lines first before.length := by
  obtain ⟨more, rfl⟩ := closes
  refine ⟨?_, outer, ?_⟩
  · rw [List.append_assoc, List.getElem?_append_right (Nat.le_refl _), Nat.sub_self]
    rfl
  · rw [List.append_assoc, List.take_left, innermost]

/-- Closing lines close the innermost blocks. -/
theorem unmatched_replicate {lines : List String} {stack : List Nat} {n : Nat}
    (before : unmatched lines = some stack) (enough : n ≤ stack.length) :
    unmatched (lines ++ List.replicate n closingLine) = some (stack.drop n) := by
  induction n with
  | zero => simpa using before
  | succ n ih =>
      have left := List.drop_eq_getElem_cons enough
      rw [List.replicate_succ', ← List.append_assoc]
      apply unmatched_close
      rw [ih (by omega), left]

/-- Opening lines outnumber closing lines by the blocks that are open. -/
theorem countP_opensBlock {lines : List String} {stack : List Nat}
    (whole : unmatched lines = some stack) :
    lines.countP opensBlock = lines.count closingLine + stack.length := by
  induction lines using List.reverseRecOn generalizing stack with
  | nil =>
      cases whole
      rfl
  | append_singleton lines line ih =>
      rw [unmatched_concat] at whole
      obtain ⟨before, known, next⟩ := Option.bind_eq_some_iff.mp whole
      have earlier := ih known
      rw [List.countP_append, List.count_append, List.countP_singleton, List.count_singleton]
      rcases follow_eq_some next with ⟨rfl, k, rfl⟩ | ⟨other, opens, rfl⟩ | ⟨other, opens, rfl⟩
      · have neither : opensBlock closingLine = false := by decide
        simp only [List.length_cons] at earlier
        simp only [neither, Bool.false_eq_true, ↓reduceIte, beq_self_eq_true]
        omega
      · simp only [opens, beq_false_of_ne other, ↓reduceIte, Bool.false_eq_true, List.length_cons]
        omega
      · simp only [opens, beq_false_of_ne other, Bool.false_eq_true, ↓reduceIte]
        omega

/-- The line is complete on its own. -/
def IsPlainLine (line : String) : Prop := line.toList.getLast? = some ';'

theorem getLast?_append {tail : String} {c : Char} (text : String)
    (last : tail.toList.getLast? = some c) : (text ++ tail).toList.getLast? = some c := by
  rw [String.toList_append, List.getLast?_append, last, Option.some_or]

theorem prefix_append {start text : String} (tail : String) (starts : start.toList <+: text.toList) :
    start.toList <+: (text ++ tail).toList := by
  rw [String.toList_append]
  exact starts.trans (List.prefix_append _ _)

theorem IsPlainLine.opensBlock {line : String} (plain : IsPlainLine line) :
    opensBlock line = false := by
  simp only [IsPlainLine] at plain
  simp [DawnC.opensBlock, plain]

theorem IsPlainLine.ne {line other : String} (plain : IsPlainLine line)
    (different : other.toList.getLast? ≠ some ';') : line ≠ other := by
  rintro rfl
  exact different plain

theorem opensWith_iff {start line : String} :
    opensWith start line = true ↔
      start.toList <+: line.toList ∧ line.toList.getLast? = some '\x7b' := by
  simp [opensWith, opensBlock]

theorem isLoopLine_loopLine (name low high : String) :
    isLoopLine (Translator.loopLine name low high) = true := by
  unfold Translator.loopLine
  refine opensWith_iff.mpr ⟨?_, getLast?_append _ (by decide)⟩
  simp only [String.append_assoc]
  exact prefix_append _ (by decide)

theorem isIfLine_append (condition : String) : isIfLine ("if(" ++ condition ++ ")\x7b") = true :=
  opensWith_iff.mpr ⟨prefix_append _ (prefix_append _ (by decide)), getLast?_append _ (by decide)⟩

theorem isVoidLine_signature (name : String) (parameters : List String) :
    isVoidLine (Translator.signature name parameters ++ "\x7b") = true := by
  refine opensWith_iff.mpr ⟨?_, getLast?_append _ (by decide)⟩
  unfold Translator.signature
  simp only [String.append_assoc]
  exact prefix_append _ (by decide)

theorem opensBlock_of_heads {kind : BlockKind} {line : String} (heads : kind.heads line = true) :
    opensBlock line = true := by
  cases kind with
  | function =>
      simp only [BlockKind.heads, isFunctionLine, isVoidLine, opensWith, Bool.or_eq_true,
        Bool.and_eq_true, decide_eq_true_eq] at heads
      rcases heads with rfl | ⟨-, opens⟩
      · decide
      · exact opens
  | loop =>
      simp only [BlockKind.heads, isLoopLine, opensWith, Bool.and_eq_true] at heads
      exact heads.2
  | conditional =>
      simp only [BlockKind.heads, isIfLine, opensWith, Bool.and_eq_true] at heads
      exact heads.2
  | alternative =>
      simp only [BlockKind.heads, decide_eq_true_eq] at heads
      rw [heads]
      decide

theorem take_of_opensWith {start line : String} (opens : opensWith start line = true) (n : Nat)
    (short : n ≤ start.toList.length) : line.toList.take n = start.toList.take n := by
  obtain ⟨tail, whole⟩ := (opensWith_iff.mp opens).1
  rw [← whole, List.take_append_of_le_length short]

/-- The first two characters of the lines that open a block of this kind. -/
def BlockKind.starts : BlockKind → List (List Char)
  | function => [['i', 'n'], ['v', 'o']]
  | loop => [['f', 'o']]
  | conditional => [['i', 'f']]
  | alternative => [['e', 'l']]

theorem take_mem_starts {kind : BlockKind} {line : String} (heads : kind.heads line = true) :
    line.toList.take 2 ∈ kind.starts := by
  cases kind with
  | function =>
      simp only [BlockKind.heads, isFunctionLine, Bool.or_eq_true, decide_eq_true_eq] at heads
      rcases heads with rfl | isVoid
      · decide
      · rw [take_of_opensWith isVoid 2 (by decide)]
        decide
  | loop =>
      rw [take_of_opensWith heads 2 (by decide)]
      decide
  | conditional =>
      rw [take_of_opensWith heads 2 (by decide)]
      decide
  | alternative =>
      simp only [BlockKind.heads, decide_eq_true_eq] at heads
      rw [heads]
      decide

/-- A line opens blocks of one kind only. -/
theorem heads_unique {kind kind' : BlockKind} {line : String} (heads : kind.heads line = true)
    (heads' : kind'.heads line = true) : kind = kind' := by
  have member := take_mem_starts heads
  have member' := take_mem_starts heads'
  cases kind <;> cases kind' <;> simp [BlockKind.starts] at member member' ⊢ <;> simp_all

namespace Translator

@[simp] theorem emit_lines (t : Translator) (line : String) :
    (t.emit line).lines = t.lines ++ [line] := rfl

@[simp] theorem openBlock_lines (t : Translator) (kind : BlockKind) (i : Nat) (line : String) :
    (t.openBlock kind i line).lines = t.lines ++ [line] := rfl

@[simp] theorem closeBlock_lines (t : Translator) (b : Block) (outer : List Block) :
    (t.closeBlock b outer).lines = t.lines ++ [closingLine] := rfl

@[simp] theorem closeBrace_lines (t : Translator) (b : Block) (outer : List Block) :
    (t.closeBrace b outer).lines = t.lines := rfl

theorem settle_lines (t : Translator) :
    t.settle.lines = t.lines ∨ t.settle.lines = t.lines ++ [closingLine] := by
  simp only [settle]
  split
  · exact Or.inl rfl
  · split
    · exact Or.inr rfl
    · exact Or.inl rfl

@[simp] theorem settle_prototypes (t : Translator) : t.settle.prototypes = t.prototypes := by
  simp only [settle]
  split
  · rfl
  · split <;> rfl

/-- What a construct can do to the emitted lines and the open blocks; symbols are left open. -/
inductive Shape (t : Translator) (previous : Option Atom) (i : Nat) (a : Atom) (rest : List Atom)
    (n : Nat) : Translator → Prop where
  | plain {symbols : SymbolTable} {line : String} (complete : IsPlainLine line) :
      Shape t previous i a rest n ({ t with symbols }.emit line)
  | head {symbols : SymbolTable} {kind : BlockKind} {line : String}
      (control : kind = .loop ∨ kind = .conditional) (heads : kind.heads line = true) :
      Shape t previous i a rest n ({ t with symbols }.openBlock kind i line)
  | elseIf {next : Atom} {tail : List Atom} (afterBrace : previous.any (·.is "\x7d") = true)
      (afterIf : t.closed = some .conditional) (shape : rest = next :: tail) (isIf : next.is "if")
      (single : n = 1) : Shape t previous i a rest n (t.emit "else")
  | otherwise (afterBrace : previous.any (·.is "\x7d") = true)
      (afterIf : t.closed = some .conditional) :
      Shape t previous i a rest n (t.openBlock .alternative i "else\x7b")
  | mainFunction {symbols : SymbolTable} (atTop : t.blocks = []) :
      Shape t previous i a rest n ({ t with symbols }.openBlock .function i "int main()\x7b")
  | namedFunction {symbols : SymbolTable} {name : String} {parameters : List String}
      (atTop : t.blocks = []) :
      Shape t previous i a rest n
        ({ t with
            symbols
            prototypes := t.prototypes ++ [signature name parameters ++ ";"] }.openBlock
          .function i (signature name parameters ++ "\x7b"))
  | thenEnd {b : Block} {outer : List Block} (word : a.IsWord "then")
      (blocks : t.blocks = b :: outer) (isLoop : b.kind = .loop) :
      Shape t previous i a rest n (t.closeBlock b outer)
  | closeBrace {b : Block} {outer : List Block} (notWord : a.kind ≠ .word)
      (brace : a.is "\x7d" = true) (blocks : t.settle.blocks = b :: outer)
      (isLoop : b.kind = .loop) : Shape t previous i a rest n (t.settle.closeBrace b outer)
  | closeBlock {b : Block} {outer : List Block} (notWord : a.kind ≠ .word)
      (brace : a.is "\x7d" = true) (blocks : t.settle.blocks = b :: outer)
      (notLoop : b.kind ≠ .loop) : Shape t previous i a rest n (t.settle.closeBlock b outer)
  | directive : Shape t previous i a rest n t

variable {t t' : Translator} {previous : Option Atom} {i n : Nat} {a : Atom} {rest : List Atom}

theorem Effect.shape (effect : Effect t previous i a rest n t') : Shape t previous i a rest n t' := by
  cases effect with
  | print word args => exact .plain (getLast?_append _ (by decide))
  | printFormatted word rule args => exact .plain (getLast?_append _ (by decide))
  | printListElement word args isList => exact .plain (getLast?_append _ (by decide))
  | declaration word scalar shape isName isEquals value declared =>
      exact .plain (getLast?_append _ (by decide))
  | intList word shape isName isEquals isBracket read declared =>
      exact .plain (getLast?_append _ (by decide))
  | assignment isWord free assignable shape isEquals together value =>
      exact .plain (getLast?_append _ (by decide))
  | call isWord free isFunction read resolved =>
      exact .plain (getLast?_append _ (by decide))
  | forLoop word shape isName isFrom lowBound isTo highBound declared =>
      exact .head (Or.inl rfl) (isLoopLine_loopLine _ _ _)
  | thenEnd word shape isEnd blocks isLoop => exact .thenEnd word blocks isLoop
  | conditional word condition => exact .head (Or.inr rfl) (isIfLine_append _)
  | elseIf word afterBrace afterIf shape isIf together =>
      exact .elseIf afterBrace afterIf shape isIf rfl
  | otherwise word afterBrace afterIf alone => exact .otherwise afterBrace afterIf
  | mainFunction word atTop shape isMain read bare => exact .mainFunction atTop
  | namedFunction word atTop shape isName notMain read => exact .namedFunction atTop
  | closeBrace notWord brace blocks isLoop => exact .closeBrace notWord brace blocks isLoop
  | closeBlock notWord brace blocks notLoop => exact .closeBlock notWord brace blocks notLoop
  | directive isWord isInclude => exact .directive

/-- A construct that starts with `for` or `if` opens a block, one that starts with `then` closes a
loop. -/
theorem Effect.of_control (effect : Effect t previous i a rest n t') :
    (a.is "for" = true → ∃ symbols line, BlockKind.loop.heads line = true ∧
      t' = { t with symbols }.openBlock .loop i line) ∧
    (a.is "if" = true → ∃ line, BlockKind.conditional.heads line = true ∧
      t' = t.openBlock .conditional i line) ∧
    (a.is "then" = true → ∃ b outer, t.blocks = b :: outer ∧ b.kind = .loop ∧
      t' = t.closeBlock b outer) := by
  have apart {text word : String} (is : a.is text = true) (different : text ≠ word) :
      ¬ a.is word = true := fun isWord => different (Atom.eq_of_is is isWord)
  have other {text : String} (is : a.is text = true) (free : text ∉ ["for", "if", "then"]) :
      ¬ a.is "for" = true ∧ ¬ a.is "if" = true ∧ ¬ a.is "then" = true := by
    simp only [List.mem_cons, List.not_mem_nil, or_false, not_or] at free
    exact ⟨apart is free.1, apart is free.2.1, apart is free.2.2⟩
  have vacuous (none : ¬ a.is "for" = true ∧ ¬ a.is "if" = true ∧ ¬ a.is "then" = true) :
      (a.is "for" = true → ∃ symbols line, BlockKind.loop.heads line = true ∧
        t' = { t with symbols }.openBlock .loop i line) ∧
      (a.is "if" = true → ∃ line, BlockKind.conditional.heads line = true ∧
        t' = t.openBlock .conditional i line) ∧
      (a.is "then" = true → ∃ b outer, t.blocks = b :: outer ∧ b.kind = .loop ∧
        t' = t.closeBlock b outer) :=
    ⟨fun is => absurd is none.1, fun is => absurd is none.2.1, fun is => absurd is none.2.2⟩
  have named (free : a.text ∉ leadingWords) :
      ¬ a.is "for" = true ∧ ¬ a.is "if" = true ∧ ¬ a.is "then" = true := by
    refine ⟨?_, ?_, ?_⟩ <;>
    · intro is
      simp only [Atom.is, Bool.and_eq_true, decide_eq_true_eq] at is
      exact free (is.2 ▸ by decide)
  cases effect with
  | forLoop word =>
      exact ⟨fun _ => ⟨_, _, isLoopLine_loopLine _ _ _, rfl⟩,
        fun is => absurd is (apart word.is (by decide)),
        fun is => absurd is (apart word.is (by decide))⟩
  | conditional word condition =>
      exact ⟨fun is => absurd is (apart word.is (by decide)), fun _ => ⟨_, isIfLine_append _, rfl⟩,
        fun is => absurd is (apart word.is (by decide))⟩
  | thenEnd word shape isEnd blocks isLoop =>
      exact ⟨fun is => absurd is (apart word.is (by decide)),
        fun is => absurd is (apart word.is (by decide)), fun _ => ⟨_, _, blocks, isLoop, rfl⟩⟩
  | assignment isWord free => exact vacuous (named free)
  | call isWord free => exact vacuous (named free)
  | directive isWord isInclude =>
      refine vacuous (other (show a.is a.text = true by simp [Atom.is, isWord]) ?_)
      rcases isInclude with text | text
      · rw [text]
        decide
      · rw [text]
        decide
  | printFormatted word rule =>
      refine vacuous (other word.is ?_)
      intro control
      simp only [List.mem_cons, List.not_mem_nil, or_false] at control
      rcases control with rfl | rfl | rfl <;> exact absurd rule (by simp)
  | declaration word scalar =>
      refine vacuous (other word.is ?_)
      simp only [List.mem_cons, List.not_mem_nil, or_false] at scalar
      rcases scalar with rfl | rfl | rfl <;> decide
  | closeBrace notWord brace => exact vacuous (other brace (by decide))
  | closeBlock notWord brace => exact vacuous (other brace (by decide))
  | print word => exact vacuous (other word.is (by decide))
  | printListElement word => exact vacuous (other word.is (by decide))
  | intList word => exact vacuous (other word.is (by decide))
  | elseIf word => exact vacuous (other word.is (by decide))
  | otherwise word => exact vacuous (other word.is (by decide))
  | mainFunction word => exact vacuous (other word.is (by decide))
  | namedFunction word => exact vacuous (other word.is (by decide))

end Translator

end DawnC
