import DawnC.Proofs.Brackets
import DawnC.Proofs.FunctionNames
import DawnC.Proofs.LineParts

set_option autoImplicit false

namespace DawnC

def LinePart.brackets : LinePart → List Char
  | fixed text => bracketsOf text.toList
  | copy a => a.brackets

def partBrackets (parts : List LinePart) : List Char := parts.flatMap LinePart.brackets

def copiedBrackets (parts : List LinePart) : List Char := (copiedIn parts).flatMap Atom.brackets

@[simp] theorem partBrackets_nil : partBrackets [] = [] := rfl

@[simp] theorem partBrackets_fixed (text : String) (parts : List LinePart) :
    partBrackets (.fixed text :: parts) = bracketsOf text.toList ++ partBrackets parts := rfl

@[simp] theorem partBrackets_copy (a : Atom) (parts : List LinePart) :
    partBrackets (.copy a :: parts) = a.brackets ++ partBrackets parts := rfl

@[simp] theorem partBrackets_append (first second : List LinePart) :
    partBrackets (first ++ second) = partBrackets first ++ partBrackets second :=
  List.flatMap_append

@[simp] theorem partBrackets_copies (atoms : List Atom) :
    partBrackets (atoms.map LinePart.copy) = atoms.flatMap Atom.brackets := by
  rw [partBrackets, List.flatMap_map]
  rfl

@[simp] theorem partBrackets_spacedParts (atoms : List Atom) :
    partBrackets (spacedParts atoms) = atoms.flatMap Atom.brackets :=
  flatMap_spacedParts (by decide) atoms

@[simp] theorem partBrackets_listedParts (items : List (List LinePart)) :
    partBrackets (listedParts items) = items.flatMap partBrackets :=
  flatMap_listedParts (by decide) items

@[simp] theorem copiedBrackets_nil : copiedBrackets [] = [] := rfl

@[simp] theorem copiedBrackets_fixed (text : String) (parts : List LinePart) :
    copiedBrackets (.fixed text :: parts) = copiedBrackets parts := rfl

@[simp] theorem copiedBrackets_copy (a : Atom) (parts : List LinePart) :
    copiedBrackets (.copy a :: parts) = a.brackets ++ copiedBrackets parts := rfl

@[simp] theorem copiedBrackets_append (first second : List LinePart) :
    copiedBrackets (first ++ second) = copiedBrackets first ++ copiedBrackets second := by
  rw [copiedBrackets, copiedIn_append, List.flatMap_append]
  rfl

@[simp] theorem copiedBrackets_copies (atoms : List Atom) :
    copiedBrackets (atoms.map LinePart.copy) = atoms.flatMap Atom.brackets := by
  rw [copiedBrackets, copiedIn_copies]

@[simp] theorem copiedBrackets_spacedParts (atoms : List Atom) :
    copiedBrackets (spacedParts atoms) = atoms.flatMap Atom.brackets := by
  rw [copiedBrackets, copiedIn_spacedParts]

@[simp] theorem copiedBrackets_listedParts (items : List (List LinePart)) :
    copiedBrackets (listedParts items) = items.flatMap copiedBrackets := by
  rw [copiedBrackets, copiedIn_listedParts, List.flatMap_assoc]
  rfl

@[simp] theorem copiedBrackets_declaratorParts (cls : SymbolClass) (name : Atom) :
    copiedBrackets (declaratorParts cls name) = name.brackets := by
  rw [copiedBrackets, copiedIn_declaratorParts, List.flatMap_singleton]

inductive WholeParts : List LinePart → Prop where
  | nil : WholeParts []
  | fixed {text : String} {parts : List LinePart} (ends : isTerminated text.toList = true)
      (later : WholeParts parts) : WholeParts (.fixed text :: parts)
  | copy {a : Atom} {parts : List LinePart} (whole : a.IsWhole) (later : WholeParts parts) :
      WholeParts (.copy a :: parts)

namespace WholeParts

variable {parts first second : List LinePart} {atoms : List Atom}

theorem append (whole : WholeParts first) (whole' : WholeParts second) :
    WholeParts (first ++ second) := by
  induction whole with
  | nil => exact whole'
  | fixed ends _ ih => exact .fixed ends ih
  | copy whole _ ih => exact .copy whole ih

theorem copies (whole : ∀ a ∈ atoms, a.IsWhole) : WholeParts (atoms.map LinePart.copy) := by
  induction atoms with
  | nil => exact .nil
  | cons a rest ih =>
      exact .copy (whole a List.mem_cons_self) (ih fun b later => whole b (List.mem_cons_of_mem _ later))

theorem spaced (whole : ∀ a ∈ atoms, a.IsWhole) : WholeParts (spacedParts atoms) := by
  induction atoms with
  | nil => exact .nil
  | cons a rest ih =>
      have here := whole a List.mem_cons_self
      have later := ih fun b later => whole b (List.mem_cons_of_mem _ later)
      cases rest with
      | nil => exact .copy here .nil
      | cons b rest => exact .copy here (.fixed (by decide) later)

theorem listed {items : List (List LinePart)} (whole : ∀ item ∈ items, WholeParts item) :
    WholeParts (listedParts items) := by
  induction items with
  | nil => exact .nil
  | cons item rest ih =>
      have here := whole item List.mem_cons_self
      have later := ih fun other later => whole other (List.mem_cons_of_mem _ later)
      cases rest with
      | nil => simpa [listedParts] using here
      | cons next rest =>
          rw [listedParts, List.intercalate_cons_cons, List.append_assoc]
          exact here.append (.fixed (by decide) later)

theorem declarator (cls : SymbolClass) {name : Atom} (whole : name.IsWhole) :
    WholeParts (declaratorParts cls name) := by
  cases cls with
  | int => exact .fixed (by decide) (.copy whole .nil)
  | bool => exact .fixed (by decide) (.copy whole .nil)
  | string => exact .fixed (by decide) (.copy whole (.fixed (by decide) .nil))
  | _ => exact .copy whole .nil

theorem bracketsOf_lineOf (whole : WholeParts parts) :
    bracketsOf (lineOf parts).toList = partBrackets parts := by
  induction whole with
  | nil => rfl
  | fixed ends _ ih =>
      rw [lineOf_cons, String.toList_append, LinePart.text, bracketsOf_append ends, ih,
        partBrackets_fixed]
  | copy whole _ ih =>
      rw [lineOf_cons, String.toList_append, LinePart.text, bracketsOf_append whole.isTerminated, ih,
        whole.bracketsOf, partBrackets_copy]

end WholeParts

namespace Translator

variable {t : Translator} {a : Atom} {rest : List Atom} {parts : List LinePart}

/-- From whole atoms constructs write whole parts. -/
theorem Writes.whole (writes : t.Writes a rest parts) (whole : ∀ b ∈ a :: rest, b.IsWhole) :
    WholeParts parts := by
  have copied : ∀ b ∈ copiedIn parts, b.IsWhole := fun b member => whole b (writes.mem_of_copied member)
  have ended {text : String} (ends : isTerminated text.toList = true) : WholeParts [.fixed text] :=
    .fixed ends .nil
  cases writes with
  | print => exact .fixed (by decide) ((WholeParts.spaced (by simpa using copied)).append (ended (by decide)))
  | printFormatted word rule =>
      simp only [List.mem_cons, Prod.mk.injEq, List.not_mem_nil, or_false] at rule
      rcases rule with ⟨-, rfl⟩ | ⟨-, rfl⟩
      · exact .fixed (by decide) ((WholeParts.spaced (by simpa using copied)).append (ended (by decide)))
      · exact .fixed (by decide) ((WholeParts.spaced (by simpa using copied)).append (ended (by decide)))
  | printListElement =>
      simp only [copiedIn_fixed, copiedIn_append, copiedIn_spacedParts, copiedIn_nil, List.append_nil,
        List.forall_mem_append] at copied
      exact .fixed (by decide) ((WholeParts.spaced copied.1).append (.fixed (by decide)
        ((WholeParts.spaced copied.2).append (ended (by decide)))))
  | @declaration cls =>
      simp only [copiedIn_fixed, copiedIn_append, copiedIn_spacedParts, copiedIn_declaratorParts,
        copiedIn_nil, List.append_nil, List.forall_mem_append, List.forall_mem_singleton] at copied
      exact (WholeParts.declarator cls copied.1).append (.fixed (by decide)
        ((WholeParts.spaced copied.2).append (ended (by decide))))
  | intList =>
      simp only [copiedIn_fixed, copiedIn_copy, copiedIn_append, copiedIn_copies, copiedIn_nil,
        List.append_nil, List.forall_mem_cons] at copied
      exact .fixed (by decide) (.copy copied.1 (.fixed (by decide)
        ((WholeParts.copies copied.2).append (ended (by decide)))))
  | assignment =>
      simp only [copiedIn_fixed, copiedIn_copy, copiedIn_append, copiedIn_spacedParts, copiedIn_nil,
        List.append_nil, List.forall_mem_cons] at copied
      exact .copy copied.1 (.fixed (by decide) ((WholeParts.spaced copied.2).append (ended (by decide))))
  | @call arguments =>
      simp only [copiedIn_fixed, copiedIn_copy, copiedIn_append, copiedIn_listedParts, copiedIn_nil,
        List.append_nil, List.forall_mem_cons, List.flatMap_map, copiedIn_spacedParts] at copied
      have listed : ∀ item ∈ arguments.map spacedParts, WholeParts item := by
        intro item member
        obtain ⟨argument, given, rfl⟩ := List.mem_map.mp member
        exact .spaced fun b inside => copied.2 b (List.mem_flatMap.mpr ⟨argument, given, inside⟩)
      exact .copy copied.1 (.fixed (by decide) ((WholeParts.listed listed).append (ended (by decide))))
  | forLoop =>
      simp only [copiedIn_fixed, copiedIn_copy, copiedIn_nil, List.forall_mem_cons] at copied
      exact .fixed (by decide) (.copy copied.1 (.fixed (by decide) (.copy copied.2.1 (.fixed (by decide)
        (.copy copied.1 (.fixed (by decide) (.copy copied.2.2.2.1 (.fixed (by decide)
          (.copy copied.1 (ended (by decide)))))))))))
  | conditional =>
      simp only [copiedIn_fixed, copiedIn_append, copiedIn_spacedParts, copiedIn_nil, List.append_nil]
        at copied
      exact .fixed (by decide) ((WholeParts.spaced copied).append (ended (by decide)))
  | elseIf => exact ended (by decide)
  | otherwise => exact ended (by decide)
  | mainFunction => exact ended (by decide)
  | @namedFunction name tail parameters =>
      simp only [copiedIn_fixed, copiedIn_copy, copiedIn_append, copiedIn_listedParts, copiedIn_nil,
        List.append_nil, List.forall_mem_cons, List.flatMap_map, copiedIn_declaratorParts] at copied
      have listed : ∀ item ∈ parameters.map fun p => declaratorParts p.2 p.1, WholeParts item := by
        intro item member
        obtain ⟨p, given, rfl⟩ := List.mem_map.mp member
        exact .declarator p.2 (copied.2 p.1 (List.mem_flatMap.mpr ⟨p, given, List.mem_singleton_self _⟩))
      exact .fixed (by decide) (.copy copied.1 (.fixed (by decide)
        ((WholeParts.listed listed).append (ended (by decide)))))

end Translator

/-- The brackets of a line that have to match: all of them, or those of an opening line apart from
braces. -/
def requiredBrackets (line : String) : List Char :=
  if opensBlock line then (bracketsOf line.toList).filter fun c => c ≠ '\x7b' && c ≠ '\x7d'
  else bracketsOf line.toList

/-- The brackets of a copy with those that the construct puts next to it: an index is written between
square brackets. -/
def enclosed (a : Atom) (brackets : List Char) : List Char :=
  if a.is "print_list_element" then '[' :: (brackets ++ [']']) else brackets

theorem requiredBrackets_of_plain {line : String} (plain : IsPlainLine line) :
    requiredBrackets line = bracketsOf line.toList := by
  rw [requiredBrackets, plain.opensBlock, if_neg (by decide)]

theorem requiredBrackets_of_opening {line : String} (last : line.toList.getLast? = some '\x7b') :
    requiredBrackets line = (bracketsOf line.toList).filter fun c => c ≠ '\x7b' && c ≠ '\x7d' := by
  have opens : opensBlock line = true := by rw [opensBlock, last, decide_eq_true rfl]
  rw [requiredBrackets, if_pos opens]

theorem enclosed_of_ne {a : Atom} {text : String} (word : a.IsWord text)
    (different : text ≠ "print_list_element") (brackets : List Char) :
    enclosed a brackets = brackets := by
  rw [enclosed, is_of_is word.is different, if_neg (by decide)]

theorem enclosed_of_free {a : Atom} (free : a.text ∉ leadingWords) (brackets : List Char) :
    enclosed a brackets = brackets := by
  have other : a.is "print_list_element" = false := by
    apply Atom.is_eq_false
    intro same
    exact free (by rw [same]; decide)
  rw [enclosed, other, if_neg (by decide)]

/-- Whole atoms have no opening brackets but square ones. -/
theorem not_mem_brackets {atoms : List Atom} (whole : ∀ a ∈ atoms, a.IsWhole) {c : Char}
    (other : isPunctuation c = false) : c ∉ atoms.flatMap Atom.brackets := by
  intro member
  obtain ⟨a, inside, found⟩ := List.mem_flatMap.mp member
  rw [((whole a inside).is_of_mem found).2] at other
  cases other

theorem brackets_of_isIdentifier {atoms : List Atom} (isName : isIdentifier (argumentText atoms) = true) :
    atoms.flatMap Atom.brackets = [] := by
  have none : (argumentText atoms).toList.filter isBracket = [] := by
    rw [List.filter_eq_nil_iff]
    intro c member bracket
    have plain := List.all_eq_true.mp (all_isPlainChar isName) c member
    simp only [isPlainChar, isSeparator, isPunctuation, Bool.and_eq_true, Bool.not_eq_true',
      Bool.or_eq_false_iff, decide_eq_false_iff_not] at plain
    simp [isBracket, plain] at bracket
  have spread : (argumentText atoms).toList.filter isBracket =
      atoms.flatMap fun a => a.text.toList.filter isBracket := by
    rw [argumentText, ← lineOf_spacedParts, lineOf, String.toList_join, List.filter_flatMap,
      List.flatMap_map, flatMap_spacedParts (by decide)]
    rfl
  rw [none] at spread
  rw [List.flatMap_eq_nil_iff]
  intro a member
  have empty := List.flatMap_eq_nil_iff.mp spread.symm a member
  rw [Atom.brackets, empty, ite_self]

theorem lastChar_cons {part : LinePart} {parts : List LinePart} {c : Char}
    (last : (lineOf parts).toList.getLast? = some c) :
    (lineOf (part :: parts)).toList.getLast? = some c := by
  rw [lineOf_cons]
  exact getLast?_append _ last

theorem lastChar_append {first second : List LinePart} {c : Char}
    (last : (lineOf second).toList.getLast? = some c) :
    (lineOf (first ++ second)).toList.getLast? = some c := by
  rw [lineOf_append]
  exact getLast?_append _ last

theorem isBalanced_cons_pair (brackets : List Char) :
    isBalanced ('[' :: ']' :: brackets) = isBalanced brackets := rfl

theorem filter_noBraces {brackets : List Char} (noOpening : '\x7b' ∉ brackets)
    (noClosing : '\x7d' ∉ brackets) :
    (brackets.filter fun c => c ≠ '\x7b' && c ≠ '\x7d') = brackets := by
  rw [List.filter_eq_self]
  intro c member
  simp only [Bool.and_eq_true, decide_eq_true_eq]
  constructor
  · rintro rfl
    exact noOpening member
  · rintro rfl
    exact noClosing member

theorem Atom.brackets_of_isWord {a : Atom} (isWord : a.kind = .word) : a.brackets = [] :=
  a.brackets_of_not_punct (by rw [isWord]; decide)

theorem partBrackets_declaratorParts (cls : SymbolClass) {name : Atom} (isName : name.IsName) :
    partBrackets (declaratorParts cls name) = if cls = .string then ['[', ']'] else [] := by
  have named := Atom.brackets_of_isWord isName.1
  cases cls <;> simp only [declaratorParts, partBrackets_fixed, partBrackets_copy, partBrackets_nil, named]
    <;> rfl

theorem parameterBrackets {parameters : List (Atom × SymbolClass)}
    (valid : ∀ p ∈ parameters, p.1.IsName) :
    isBalanced (parameters.flatMap fun p => partBrackets (declaratorParts p.2 p.1)) = true ∧
      ∀ c ∈ parameters.flatMap fun p => partBrackets (declaratorParts p.2 p.1), c = '[' ∨ c = ']' := by
  induction parameters with
  | nil => exact ⟨rfl, by simp⟩
  | cons p rest ih =>
      obtain ⟨balanced, square⟩ := ih fun other later => valid other (List.mem_cons_of_mem _ later)
      rw [List.flatMap_cons, partBrackets_declaratorParts p.2 (valid p List.mem_cons_self)]
      split
      · refine ⟨balanced, ?_⟩
        intro c member
        rcases List.mem_append.mp member with first | later
        · simpa using first
        · exact square c later
      · exact ⟨balanced, square⟩

/-- A text that opens a bracket and one that closes it are balanced around what has no such bracket. -/
theorem isBalanced_around {start stop : String} {c close : Char} {inner : List LinePart}
    (pair : closerOf? c = some close) (opens : bracketsOf start.toList = [c])
    (closes : bracketsOf stop.toList = [close]) (absent : c ∉ partBrackets inner) :
    isBalanced (partBrackets (.fixed start :: (inner ++ [.fixed stop]))) =
      isBalanced (partBrackets inner) := by
  rw [partBrackets_fixed, partBrackets_append, partBrackets_fixed, partBrackets_nil, opens, closes]
  exact isBalanced_enclosed pair absent

theorem isBalanced_element {list position : List Atom} (nameless : list.flatMap Atom.brackets = [])
    (absent : '(' ∉ position.flatMap Atom.brackets) :
    isBalanced (partBrackets (.fixed "printf(\"%d\\n\", " :: (spacedParts list ++
        .fixed "[" :: (spacedParts position ++ [.fixed "]);"])))) =
      isBalanced ('[' :: (position.flatMap Atom.brackets ++ [']'])) := by
  have absent' : '(' ∉ '[' :: (position.flatMap Atom.brackets ++ [']']) := by simpa using absent
  simp only [partBrackets_fixed, partBrackets_append, partBrackets_spacedParts, partBrackets_nil,
    nameless, List.nil_append]
  rw [← isBalanced_enclosed (show closerOf? '(' = some ')' from rfl) absent', List.cons_append,
    List.append_assoc]
  rfl

theorem isBalanced_declaration (cls : SymbolClass) {name : Atom} (isName : name.IsName)
    (value : List Atom) :
    isBalanced (partBrackets (declaratorParts cls name ++
        .fixed " = " :: (spacedParts value ++ [.fixed ";"]))) =
      isBalanced (value.flatMap Atom.brackets) := by
  have assigned : partBrackets (.fixed " = " :: (spacedParts value ++ [.fixed ";"])) =
      value.flatMap Atom.brackets := by
    simp only [partBrackets_fixed, partBrackets_append, partBrackets_spacedParts, partBrackets_nil]
    exact List.append_nil _
  rw [partBrackets_append, assigned, partBrackets_declaratorParts cls isName]
  split
  · exact isBalanced_cons_pair _
  · rfl

/-- The header of a function is balanced up to its brace. -/
theorem isBalanced_header {name : Atom} (isName : name.IsName) {parameters : List (Atom × SymbolClass)}
    (valid : ∀ p ∈ parameters, p.1.IsName) :
    isBalanced ((partBrackets (.fixed "void " :: .copy name :: .fixed "(" ::
      (listedParts (parameters.map fun p => declaratorParts p.2 p.1) ++ [.fixed ")\x7b"]))).filter
        fun c => c ≠ '\x7b' && c ≠ '\x7d') = true := by
  obtain ⟨balanced, square⟩ := parameterBrackets valid
  simp only [partBrackets_fixed, partBrackets_copy, partBrackets_append, partBrackets_listedParts,
    partBrackets_nil, Atom.brackets_of_isWord isName.1, List.append_nil, List.nil_append,
    List.flatMap_map, List.filter_append]
  generalize (parameters.flatMap fun p => partBrackets (declaratorParts p.2 p.1)) = own
    at balanced square ⊢
  have absent {c : Char} (other : c ≠ '[' ∧ c ≠ ']') : c ∉ own :=
    fun member => (square c member).elim other.1 other.2
  rw [filter_noBraces (absent (by decide)) (absent (by decide))]
  exact (isBalanced_enclosed rfl (absent (by decide))).trans balanced

/-- The condition of a block ends before the next brace. -/
theorem not_mem_brackets_statement {atoms : List Atom} (whole : ∀ b ∈ atoms, b.IsWhole) (count : Nat) :
    '\x7d' ∉ ((statement atoms).drop count).flatMap Atom.brackets := by
  intro member
  obtain ⟨b, inside, found⟩ := List.mem_flatMap.mp member
  have stated := List.mem_of_mem_drop inside
  have brace := ((whole b ((statement_isPrefix _).subset stated)).is_of_mem found).1
  rw [statement_no_brace stated] at brace
  cases brace

namespace Translator

variable {t : Translator} {a : Atom} {rest : List Atom} {parts : List LinePart}

/-- A line is balanced exactly if what its construct copies is. -/
theorem Writes.isBalanced_iff (writes : t.Writes a rest parts) (whole : ∀ b ∈ a :: rest, b.IsWhole)
    (named : ∀ name, t.symbols.classOf name = .intList → isIdentifier name = true) :
    isBalanced (requiredBrackets (lineOf parts)) =
      isBalanced (enclosed a (copiedBrackets parts)) := by
  have brackets := (writes.whole whole).bracketsOf_lineOf
  have copied : ∀ b ∈ copiedIn parts, b.IsWhole := fun b member => whole b (writes.mem_of_copied member)
  have noParenthesis : '(' ∉ copiedBrackets parts := not_mem_brackets copied (by decide)
  have noBrace : '\x7b' ∉ copiedBrackets parts := not_mem_brackets copied (by decide)
  cases writes with
  | print word =>
      rw [requiredBrackets_of_plain (lastChar_cons (lastChar_append (by decide))), brackets,
        enclosed_of_ne word (by decide)]
      simp only [copiedBrackets_fixed, copiedBrackets_append, copiedBrackets_spacedParts,
        copiedBrackets_nil, List.append_nil, ← partBrackets_spacedParts] at noParenthesis ⊢
      exact isBalanced_around rfl (by decide) (by decide) noParenthesis
  | printFormatted word rule =>
      rw [requiredBrackets_of_plain (lastChar_cons (lastChar_append (by decide))), brackets]
      simp only [copiedBrackets_fixed, copiedBrackets_append, copiedBrackets_spacedParts,
        copiedBrackets_nil, List.append_nil, ← partBrackets_spacedParts] at noParenthesis ⊢
      simp only [List.mem_cons, Prod.mk.injEq, List.not_mem_nil, or_false] at rule
      rcases rule with ⟨rfl, rfl⟩ | ⟨rfl, rfl⟩
      · rw [enclosed_of_ne word (by decide)]
        exact isBalanced_around rfl (by decide) (by decide) noParenthesis
      · rw [enclosed_of_ne word (by decide)]
        exact isBalanced_around rfl (by decide) (by decide) noParenthesis
  | printListElement word here both isList =>
      rw [requiredBrackets_of_plain (lastChar_cons (lastChar_append (lastChar_cons
        (lastChar_append (by decide))))), brackets, enclosed, word.is, if_pos rfl]
      have nameless := brackets_of_isIdentifier (named _ isList)
      simp only [copiedBrackets_fixed, copiedBrackets_append, copiedBrackets_spacedParts,
        copiedBrackets_nil, List.append_nil, nameless, List.nil_append] at noParenthesis ⊢
      exact isBalanced_element nameless noParenthesis
  | @declaration cls name equals tail word scalar shape isName =>
      have other : cls.name ≠ "print_list_element" := by
        simp only [List.mem_cons, List.not_mem_nil, or_false] at scalar
        rcases scalar with rfl | rfl | rfl <;> decide
      rw [requiredBrackets_of_plain (lastChar_append (lastChar_cons (lastChar_append (by decide)))),
        brackets, enclosed_of_ne word other, isBalanced_declaration cls isName]
      simp only [copiedBrackets_fixed, copiedBrackets_append, copiedBrackets_spacedParts,
        copiedBrackets_declaratorParts, copiedBrackets_nil, List.append_nil,
        Atom.brackets_of_isWord isName.1, List.nil_append]
  | intList word shape isName =>
      rw [requiredBrackets_of_plain (lastChar_cons (lastChar_cons (lastChar_cons (lastChar_append
        (by decide))))), brackets, enclosed_of_ne word (by decide)]
      simp only [copiedBrackets_fixed, copiedBrackets_copy, copiedBrackets_append, copiedBrackets_copies,
        copiedBrackets_nil, List.append_nil, partBrackets_fixed, partBrackets_copy, partBrackets_append,
        partBrackets_copies, partBrackets_nil, Atom.brackets_of_isWord isName.1, List.nil_append]
        at noBrace ⊢
      exact (isBalanced_cons_pair _).trans (isBalanced_enclosed rfl noBrace)
  | assignment isWord free =>
      rw [requiredBrackets_of_plain (lastChar_cons (lastChar_cons (lastChar_append (by decide)))),
        brackets, enclosed_of_free free]
      simp only [copiedBrackets_fixed, copiedBrackets_copy, copiedBrackets_append,
        copiedBrackets_spacedParts, copiedBrackets_nil, List.append_nil, partBrackets_fixed,
        partBrackets_copy, partBrackets_append, partBrackets_spacedParts, partBrackets_nil,
        Atom.brackets_of_isWord isWord, List.nil_append]
      exact congrArg isBalanced (List.append_nil _)
  | @call arguments span isWord free =>
      have inner : partBrackets (listedParts (arguments.map spacedParts)) =
          arguments.flatMap fun argument => argument.flatMap Atom.brackets := by
        simp only [partBrackets_listedParts, List.flatMap_map, partBrackets_spacedParts]
      rw [requiredBrackets_of_plain (lastChar_cons (lastChar_cons (lastChar_append (by decide)))),
        brackets, enclosed_of_free free, partBrackets_copy, Atom.brackets_of_isWord isWord,
        List.nil_append]
      simp only [copiedBrackets_fixed, copiedBrackets_copy, copiedBrackets_append,
        copiedBrackets_listedParts, copiedBrackets_nil, List.append_nil, Atom.brackets_of_isWord isWord,
        List.nil_append, List.flatMap_map, copiedBrackets_spacedParts, ← inner] at noParenthesis ⊢
      exact isBalanced_around rfl (by decide) (by decide) noParenthesis
  | @forLoop name start low stop high tail word shape isName lowBound highBound =>
      have opens := (opensWith_iff.mp (isLoopLine_loopLine name.text low.text high.text)).2
      rw [← lineOf_loop] at opens
      rw [requiredBrackets_of_opening opens, brackets, enclosed_of_ne word (by decide)]
      simp only [copiedBrackets_fixed, copiedBrackets_copy, copiedBrackets_nil, partBrackets_fixed,
        partBrackets_copy, partBrackets_nil, Atom.brackets_of_isWord isName.1,
        Atom.brackets_of_isWord lowBound.1, Atom.brackets_of_isWord highBound.1, List.nil_append]
      rfl
  | conditional word =>
      rw [requiredBrackets_of_opening (lastChar_cons (lastChar_append (by decide))), brackets,
        enclosed_of_ne word (by decide)]
      simp only [copiedBrackets_fixed, copiedBrackets_append, copiedBrackets_spacedParts,
        copiedBrackets_nil, List.append_nil, partBrackets_fixed, partBrackets_append,
        partBrackets_spacedParts, partBrackets_nil, List.filter_append] at noParenthesis noBrace ⊢
      rw [filter_noBraces noBrace (not_mem_brackets_statement whole 1)]
      exact isBalanced_enclosed rfl noParenthesis
  | elseIf word =>
      rw [enclosed_of_ne word (by decide)]
      decide
  | otherwise word =>
      rw [enclosed_of_ne word (by decide)]
      decide
  | mainFunction word =>
      rw [enclosed_of_ne word (by decide)]
      decide
  | @namedFunction name tail parameters word shape isName valid =>
      have nameless : parameters.flatMap (fun p => p.1.brackets) = [] :=
        List.flatMap_eq_nil_iff.mpr fun p member => Atom.brackets_of_isWord (valid p member).2.1.1
      rw [requiredBrackets_of_opening (lastChar_cons (lastChar_cons (lastChar_cons (lastChar_append
        (by decide))))), brackets, enclosed_of_ne word (by decide),
        isBalanced_header isName fun p member => (valid p member).2.1]
      simp only [copiedBrackets_fixed, copiedBrackets_copy, copiedBrackets_append,
        copiedBrackets_listedParts, copiedBrackets_declaratorParts, copiedBrackets_nil, List.append_nil,
        Atom.brackets_of_isWord isName.1, List.flatMap_map, nameless]
      rfl

/-- Only constructs with an expression or a list literal copy parentheses. -/
theorem Writes.of_parenthesis (writes : t.Writes a rest parts) (whole : ∀ b ∈ a :: rest, b.IsWhole)
    (copies : ')' ∈ copiedBrackets parts) :
    (∃ keyword ∈ ["int", "bool", "string", "List<int>", "if"], a.IsWord keyword) ∨
      a.text ∉ leadingWords ∧ t.symbols.classOf a.text ≠ .function := by
  obtain ⟨b, copied, found⟩ := List.mem_flatMap.mp copies
  have closes : b.is ")" = true := ((whole b (writes.mem_of_copied copied)).is_of_mem found).1
  have notWord : b.kind ≠ .word := by
    intro isWord
    rw [Atom.brackets_of_isWord isWord] at found
    cases found
  have listed {P : Prop} {arguments : List (List Atom)} {argument span : List Atom}
      (list : ArgumentList arguments span) (given : argument ∈ arguments) (inside : b ∈ argument) : P := by
    have free := (list.span_mem given inside).2.1
    rw [closes] at free
    cases free
  cases writes with
  | print word here list => exact listed list List.mem_cons_self (by simpa using copied)
  | printFormatted word rule here list => exact listed list List.mem_cons_self (by simpa using copied)
  | printListElement word here both =>
      simp only [copiedIn_fixed, copiedIn_append, copiedIn_spacedParts, copiedIn_nil, List.append_nil,
        List.mem_append] at copied
      rcases copied with inList | inPosition
      · exact listed both List.mem_cons_self inList
      · exact listed both (List.mem_cons_of_mem _ List.mem_cons_self) inPosition
  | @declaration cls name equals tail word scalar =>
      refine Or.inl ⟨cls.name, ?_, word⟩
      simp only [List.mem_cons, List.not_mem_nil, or_false] at scalar
      rcases scalar with rfl | rfl | rfl <;> decide
  | intList word => exact Or.inl ⟨_, by decide, word⟩
  | assignment isWord free assignable =>
      refine Or.inr ⟨free, ?_⟩
      rcases assignable with isInt | isBool
      · rw [isInt]
        decide
      · rw [isBool]
        decide
  | call isWord free isFunction here list =>
      simp only [copiedIn_fixed, copiedIn_copy, copiedIn_append, copiedIn_listedParts, copiedIn_nil,
        List.append_nil, List.mem_cons, List.flatMap_map, copiedIn_spacedParts, List.mem_flatMap] at copied
      rcases copied with rfl | ⟨argument, given, inside⟩
      · exact absurd isWord notWord
      · exact listed list given inside
  | forLoop word shape isName lowBound highBound =>
      simp only [copiedIn_fixed, copiedIn_copy, copiedIn_nil, List.mem_cons, List.not_mem_nil,
        or_false] at copied
      rcases copied with rfl | rfl | rfl | rfl | rfl
      · exact absurd isName.1 notWord
      · exact absurd lowBound.1 notWord
      · exact absurd isName.1 notWord
      · exact absurd highBound.1 notWord
      · exact absurd isName.1 notWord
  | conditional word => exact Or.inl ⟨_, by decide, word⟩
  | namedFunction word shape isName valid =>
      simp only [copiedIn_fixed, copiedIn_copy, copiedIn_append, copiedIn_listedParts, copiedIn_nil,
        List.append_nil, List.mem_cons, List.flatMap_map, copiedIn_declaratorParts, List.mem_flatMap,
        List.not_mem_nil, or_false] at copied
      rcases copied with rfl | ⟨p, given, rfl⟩
      · exact absurd isName.1 notWord
      · exact absurd (valid p given).2.1.1 notWord
  | _ => simp at copied

end Translator

open Cursor in
/-- In programs whose literals are terminated, every line but a closing brace is balanced exactly if the
brackets that its construct copies are, where an opening line need not close its brace and the index of
a printed element counts with the square brackets around it. Closing parentheses are copied by
declarations, lists, conditions and assignments only. -/
theorem lines_balance_with_copies (file : String) (lines : List Bytes) (u v : CompilationUnit)
    (ends : TerminatesLiterals lines)
    (analyzed : ({ file, atoms := lex file lines } : CompilationUnit).analyze = .ok u)
    (translated : u.translate = .ok v) :
    (∀ line ∈ v.lines, line = closingLine ∨ ∃ a parts,
      Emits (lex file lines) ⟨0, u.translator⟩ a parts ∧ line = lineOf parts) ∧
    ∀ a parts, Emits (lex file lines) ⟨0, u.translator⟩ a parts →
      (isBalanced (requiredBrackets (lineOf parts)) = true ↔
        isBalanced (enclosed a (copiedBrackets parts)) = true) ∧
      (')' ∈ copiedBrackets parts →
        (∃ keyword ∈ ["int", "bool", "string", "List<int>", "if"], a.IsWord keyword) ∨
          a.text ∉ leadingWords ∧ u.symbols.classOf a.text ≠ .function) := by
  obtain ⟨sameAtoms, fresh, -, -⟩ := analyze_eq_ok analyzed
  constructor
  · intro line member
    rw [← sameAtoms]
    exact emitted_of_translate fresh translated member
  · rintro a parts ⟨c, d, rest, runs, next, here, writes, -⟩
    have whole : ∀ b ∈ a :: rest, b.IsWhole := by
      intro b member
      rw [← here] at member
      exact isWhole_of_mem_lex ends (List.mem_of_mem_drop member)
    have named (name : String) (isList : c.state.symbols.classOf name = .intList) :
        isIdentifier name = true := by
      have accounts := runs.accounts (accounts_of_analyze analyzed)
      exact ((accounts.classOf_eq rfl).mp isList).1
    rw [writes.isBalanced_iff whole named]
    refine ⟨Iff.rfl, fun copies => (writes.of_parenthesis whole copies).imp_right ?_⟩
    rintro ⟨free, notFunction⟩
    refine ⟨free, fun isFunction => notFunction ?_⟩
    rw [SymbolTable.classOf_eq (by decide)] at isFunction ⊢
    exact (runs.functions a.text).mpr isFunction

open Cursor in
/-- An element of a list is indexed in an argument: its square brackets are copied with it. -/
theorem lines_balance_with_copies_index :
    let lines := ["List<int> xs = [4, 5]", "print_int(xs[1])"].map Utf8.encode
    let atoms := lex "a.dawn" lines
    ∃ u v a parts, TerminatesLiterals lines ∧
      ({ file := "a.dawn", atoms } : CompilationUnit).analyze = .ok u ∧ u.translate = .ok v ∧
      Emits atoms ⟨0, u.translator⟩ a parts ∧ lineOf parts = "printf(\"%d\\n\", xs [ 1 ]);" ∧
      copiedBrackets parts = ['[', ']'] ∧ isBalanced (requiredBrackets (lineOf parts)) = true := by
  intro lines atoms
  let u : CompilationUnit :=
    { file := "a.dawn", atoms, headers := ["<stdio.h>"], phase := .importScan }
  let list := "int xs[] = \x7b4,5\x7d;"
  let element := "printf(\"%d\\n\", xs [ 1 ]);"
  let argument := (atoms.drop 9).take 4
  let parts := LinePart.fixed ("printf(\"" ++ "%d" ++ "\\n\", ") ::
    (spacedParts argument ++ [.fixed ");"])
  let declared : Cursor := ⟨8, ⟨.ofList [("xs", .intList)], [], [list], [], none⟩⟩
  let printed : Cursor := ⟨14, ⟨.ofList [("xs", .intList)], [], [list, element], [], none⟩⟩
  have declares : Next atoms ⟨0, u.translator⟩ declared := by decide
  have prints : Next atoms declared printed := by decide
  have written : ArgumentList [argument] (atoms.drop 9) :=
    @ArgumentList.last argument _ (by decide) (by decide) rfl
  have emits : Emits atoms ⟨0, u.translator⟩ ⟨"print_int", .word, "a.dawn", 2, 2⟩ parts :=
    ⟨declared, printed, atoms.drop 9, .single declares, prints, by decide,
      .printFormatted ⟨rfl, rfl⟩ (by decide) List.prefix_rfl written, by decide⟩
  have ends : TerminatesLiterals lines := by decide
  obtain ⟨v, translated, -⟩ := toOption_map_eq_some.mp
    (by decide : (u.translate.toOption.map fun v => v.lines) = some [list, element])
  have balance := (lines_balance_with_copies "a.dawn" lines u v ends rfl translated).2 _ _ emits
  exact ⟨u, v, _, parts, ends, rfl, translated, emits, by decide, by decide, balance.1.mpr (by decide)⟩

/-- Parentheses around a value: the source is balanced, the lexer drops the opening one, and the line has
the closing one alone. -/
theorem grouping_parenthesis_unbalanced :
    let lines := ["int x = (1 + 2)"].map Utf8.encode
    ∃ u v, TerminatesLiterals lines ∧ isBalanced (sourceBrackets lines) = true ∧
      ({ file := "t.dawn", atoms := lex "t.dawn" lines } : CompilationUnit).analyze = .ok u ∧
      u.translate = .ok v ∧ v.lines = ["int x = 1 + 2 );"] ∧
      isBalanced (requiredBrackets "int x = 1 + 2 );") = false := by
  intro lines
  let u : CompilationUnit :=
    { file := "t.dawn", atoms := lex "t.dawn" lines, phase := .importScan }
  obtain ⟨v, translated, emitted⟩ := toOption_map_eq_some.mp
    (by decide : (u.translate.toOption.map fun v => v.lines) = some ["int x = 1 + 2 );"])
  exact ⟨u, v, by decide, by decide, rfl, translated, emitted, by decide⟩

end DawnC
