import DawnC.Proofs.ArgumentList
import DawnC.Proofs.DeclaredNames

set_option autoImplicit false

namespace DawnC

inductive LinePart where
  /-- text of the construct's own -/
  | fixed (text : String)
  /-- the text of an atom -/
  | copy (a : Atom)
  deriving DecidableEq, Repr

namespace LinePart

def text : LinePart → String
  | fixed text => text
  | copy a => a.text

def copied : LinePart → List Atom
  | fixed _ => []
  | copy a => [a]

end LinePart

def lineOf (parts : List LinePart) : String := String.join (parts.map LinePart.text)

def copiedIn (parts : List LinePart) : List Atom := parts.flatMap LinePart.copied

def spacedParts (atoms : List Atom) : List LinePart := (atoms.map LinePart.copy).intersperse (.fixed " ")

def listedParts (items : List (List LinePart)) : List LinePart := [LinePart.fixed ", "].intercalate items

def declaratorParts (cls : SymbolClass) (name : Atom) : List LinePart :=
  match cls with
  | .int => [.fixed "int ", .copy name]
  | .bool => [.fixed "bool ", .copy name]
  | .string => [.fixed "char ", .copy name, .fixed "[]"]
  | _ => [.copy name]

@[simp] theorem lineOf_nil : lineOf [] = "" := rfl

@[simp] theorem lineOf_cons (part : LinePart) (parts : List LinePart) :
    lineOf (part :: parts) = part.text ++ lineOf parts := by
  simp [lineOf]

@[simp] theorem lineOf_append (first second : List LinePart) :
    lineOf (first ++ second) = lineOf first ++ lineOf second := by
  simp [lineOf]

@[simp] theorem lineOf_copies (atoms : List Atom) :
    lineOf (atoms.map LinePart.copy) = String.join (atoms.map Atom.text) := by
  rw [lineOf, List.map_map]
  rfl

section Mapped

variable {β : Type} {f : LinePart → List β}

theorem flatMap_intersperse {α : Type} {g : α → List β} {separator : α} (neutral : g separator = [])
    (items : List α) : (items.intersperse separator).flatMap g = items.flatMap g := by
  induction items with
  | nil => rfl
  | cons item rest ih =>
      cases rest with
      | nil => rfl
      | cons next rest =>
          rw [List.intersperse_cons_cons, List.flatMap_cons, List.flatMap_cons, neutral, ih,
            List.nil_append, ← List.flatMap_cons]

theorem flatMap_spacedParts (neutral : f (.fixed " ") = []) (atoms : List Atom) :
    (spacedParts atoms).flatMap f = atoms.flatMap fun a => f (.copy a) := by
  rw [spacedParts, flatMap_intersperse neutral, List.flatMap_map]

theorem flatMap_listedParts (neutral : f (.fixed ", ") = []) (items : List (List LinePart)) :
    (listedParts items).flatMap f = items.flatMap fun item => item.flatMap f := by
  have separator : [LinePart.fixed ", "].flatMap f = [] := by simp [neutral]
  rw [listedParts, List.intercalate, List.flatten_eq_flatMap, List.flatMap_assoc]
  exact flatMap_intersperse separator items

end Mapped

@[simp] theorem copiedIn_nil : copiedIn [] = [] := rfl

@[simp] theorem copiedIn_fixed (text : String) (parts : List LinePart) :
    copiedIn (.fixed text :: parts) = copiedIn parts := rfl

@[simp] theorem copiedIn_copy (a : Atom) (parts : List LinePart) :
    copiedIn (.copy a :: parts) = a :: copiedIn parts := rfl

@[simp] theorem copiedIn_append (first second : List LinePart) :
    copiedIn (first ++ second) = copiedIn first ++ copiedIn second :=
  List.flatMap_append

@[simp] theorem copiedIn_copies (atoms : List Atom) : copiedIn (atoms.map LinePart.copy) = atoms := by
  rw [copiedIn, List.flatMap_map]
  exact List.flatMap_singleton' atoms

@[simp] theorem copiedIn_spacedParts (atoms : List Atom) : copiedIn (spacedParts atoms) = atoms := by
  rw [copiedIn, flatMap_spacedParts rfl]
  exact List.flatMap_singleton' atoms

@[simp] theorem copiedIn_listedParts (items : List (List LinePart)) :
    copiedIn (listedParts items) = items.flatMap copiedIn :=
  flatMap_listedParts rfl items

@[simp] theorem copiedIn_declaratorParts (cls : SymbolClass) (name : Atom) :
    copiedIn (declaratorParts cls name) = [name] := by
  cases cls <;> rfl

@[simp] theorem lineOf_spacedParts (atoms : List Atom) :
    lineOf (spacedParts atoms) = spaced (atoms.map Atom.text) := by
  induction atoms with
  | nil => rfl
  | cons a rest ih =>
      cases rest with
      | nil => simp [spacedParts, spaced, LinePart.text]
      | cons b rest =>
          simp only [spacedParts, spaced, List.map_cons] at ih
          simp only [spacedParts, spaced, List.map_cons, List.intersperse_cons_cons, lineOf_cons, ih,
            String.intercalate_cons_cons, LinePart.text, String.append_assoc]

@[simp] theorem lineOf_listedParts (items : List (List LinePart)) :
    lineOf (listedParts items) = String.intercalate ", " (items.map lineOf) := by
  induction items with
  | nil => rfl
  | cons item rest ih =>
      cases rest with
      | nil => simp [listedParts]
      | cons next rest =>
          simp only [listedParts, List.map_cons] at ih
          simp only [listedParts, List.map_cons, List.intercalate_cons_cons, lineOf_append, ih,
            String.intercalate_cons_cons, lineOf_cons, lineOf_nil, LinePart.text, String.append_empty]

theorem lineOf_declaratorParts (cls : SymbolClass) (name : Atom) :
    lineOf (declaratorParts cls name) = declarator cls name.text := by
  cases cls <;> simp [declaratorParts, declarator, LinePart.text, String.append_assoc]

theorem parametersFrom_names {symbols : SymbolTable} {texts : List String} {taken index : Nat}
    {state : ParameterState} {atoms : List Atom} {params : Parameters}
    (success : parametersFrom symbols texts taken index state atoms = .ok params)
    (typed : state.Typed) :
    ∃ parameters : List (Atom × SymbolClass),
      (∀ p ∈ parameters, p.1 ∈ atoms ∧ p.1.IsName ∧ (p.2 = .int ∨ p.2 = .string)) ∧
      params.texts = texts.reverse ++ parameters.map fun p => declarator p.2 p.1.text := by
  induction atoms generalizing symbols texts taken index state with
  | nil => simp [parametersFrom] at success
  | cons a rest ih =>
      have later {symbols : SymbolTable} {state : ParameterState}
          (success : parametersFrom symbols texts (taken + 1) (index + 1) state rest = .ok params)
          (typed : state.Typed) :
          ∃ parameters : List (Atom × SymbolClass),
            (∀ p ∈ parameters, p.1 ∈ a :: rest ∧ p.1.IsName ∧ (p.2 = .int ∨ p.2 = .string)) ∧
            params.texts = texts.reverse ++ parameters.map fun p => declarator p.2 p.1.text := by
        obtain ⟨parameters, valid, text⟩ := ih success typed
        exact ⟨parameters, fun p member => (valid p member).imp_left (List.mem_cons_of_mem _), text⟩
      have closed : ∃ parameters : List (Atom × SymbolClass),
          (∀ p ∈ parameters, p.1 ∈ a :: rest ∧ p.1.IsName ∧ (p.2 = .int ∨ p.2 = .string)) ∧
          texts.reverse = texts.reverse ++ parameters.map fun p => declarator p.2 p.1.text :=
        ⟨[], by simp⟩
      cases state with
      | name cls =>
          simp only [parametersFrom] at success
          split at success
          · rename_i isName
            simp only [Bool.and_eq_true, decide_eq_true_eq] at isName
            split at success
            · obtain ⟨parameters, valid, text⟩ := ih success trivial
              refine ⟨(a, cls) :: parameters, ?_, by simp [text]⟩
              intro p member
              rcases List.mem_cons.mp member with rfl | later
              · exact ⟨List.mem_cons_self, isName, typed⟩
              · exact (valid p later).imp_left (List.mem_cons_of_mem _)
            · cases success
          · cases success
      | separator =>
          simp only [parametersFrom] at success
          split at success
          · cases success
            exact closed
          · split at success
            · exact later success trivial
            · cases success
      | start =>
          simp only [parametersFrom] at success
          split at success
          · cases success
            exact closed
          · split at success
            · rename_i found
              exact later success (parameterClass?_typed found)
            · cases success
      | type =>
          simp only [parametersFrom] at success
          split at success
          · rename_i found
            exact later success (parameterClass?_typed found)
          · cases success

/-- The elements of a list literal are the atoms before its first closing bracket. -/
theorem elementsFrom_eq_ok {texts : List String} {taken index taken' : Nat} {elements : String}
    {atoms : List Atom} (success : elementsFrom texts taken index atoms = .ok (elements, taken')) :
    ∃ inner close tail, atoms = inner ++ close :: tail ∧ close.is "]" = true ∧
      (∀ b ∈ inner, b.is "]" = false ∧ b.is "\x7d" = false) ∧
      elements = String.join (texts.reverse ++ inner.map Atom.text) := by
  induction atoms generalizing texts taken index with
  | nil => cases success
  | cons a rest ih =>
      rw [elementsFrom] at success
      by_cases closes : a.is "]" = true
      · rw [if_pos closes] at success
        cases success
        exact ⟨[], a, rest, rfl, closes, by simp, by simp⟩
      · rw [if_neg closes] at success
        by_cases brace : a.is "\x7d" = true
        · rw [if_pos brace] at success
          cases success
        · rw [if_neg brace] at success
          obtain ⟨inner, close, tail, rfl, isClose, valid, text⟩ := ih success
          refine ⟨a :: inner, close, tail, rfl, isClose, ?_, by simp [text]⟩
          intro b member
          rcases List.mem_cons.mp member with rfl | old
          · exact ⟨by simpa using closes, by simpa using brace⟩
          · exact valid b old

namespace Translator

/-- The construct that starts with `a`, before `rest`, can write a line of these parts. -/
inductive Writes (t : Translator) (a : Atom) (rest : List Atom) : List LinePart → Prop where
  | print {argument span : List Atom} (word : a.IsWord "print") (here : span <+: rest)
      (list : ArgumentList [argument] span) :
      Writes t a rest (.fixed "printf(" :: (spacedParts argument ++ [.fixed ");"]))
  | printFormatted {keyword verb : String} {argument span : List Atom} (word : a.IsWord keyword)
      (rule : (keyword, verb) ∈ [("print_str", "%s"), ("print_int", "%d")]) (here : span <+: rest)
      (list : ArgumentList [argument] span) :
      Writes t a rest
        (.fixed ("printf(\"" ++ verb ++ "\\n\", ") :: (spacedParts argument ++ [.fixed ");"]))
  | printListElement {list position span : List Atom} (word : a.IsWord "print_list_element")
      (here : span <+: rest) (both : ArgumentList [list, position] span)
      (isList : t.symbols.classOf (argumentText list) = .intList) :
      Writes t a rest (.fixed "printf(\"%d\\n\", " :: (spacedParts list ++
        .fixed "[" :: (spacedParts position ++ [.fixed "]);"])))
  | declaration {cls : SymbolClass} {name equals : Atom} {tail : List Atom} (word : a.IsWord cls.name)
      (scalar : cls ∈ [SymbolClass.int, .bool, .string]) (shape : rest = name :: equals :: tail)
      (isName : name.IsName) :
      Writes t a rest (declaratorParts cls name ++
        .fixed " = " :: (spacedParts ((statement (a :: rest)).drop 3) ++ [.fixed ";"]))
  | intList {name equals bracket close : Atom} {inner tail : List Atom} (word : a.IsWord "List<int>")
      (shape : rest = name :: equals :: bracket :: (inner ++ close :: tail)) (isName : name.IsName)
      (elements : ∀ b ∈ inner, b.is "]" = false ∧ b.is "\x7d" = false) :
      Writes t a rest (.fixed "int " :: .copy name :: .fixed "[] = \x7b" ::
        (inner.map LinePart.copy ++ [.fixed "\x7d;"]))
  | assignment (isWord : a.kind = .word) (free : a.text ∉ leadingWords)
      (assignable : t.symbols.classOf a.text = .int ∨ t.symbols.classOf a.text = .bool) :
      Writes t a rest (.copy a :: .fixed " = " ::
        (spacedParts ((statement (a :: rest)).drop 2) ++ [.fixed ";"]))
  | call {arguments : List (List Atom)} {span : List Atom} (isWord : a.kind = .word)
      (free : a.text ∉ leadingWords) (isFunction : t.symbols.classOf a.text = .function)
      (here : span <+: rest) (list : ArgumentList arguments span) :
      Writes t a rest (.copy a :: .fixed "(" ::
        (listedParts (arguments.map spacedParts) ++ [.fixed ");"]))
  | forLoop {name start low stop high : Atom} {tail : List Atom} (word : a.IsWord "for")
      (shape : rest = name :: start :: low :: stop :: high :: tail) (isName : name.IsName)
      (lowBound : low.IsBound t.symbols) (highBound : high.IsBound t.symbols) :
      Writes t a rest [.fixed "for(int ", .copy name, .fixed " = ", .copy low, .fixed "; ", .copy name,
        .fixed " <= ", .copy high, .fixed "; ", .copy name, .fixed "++)\x7b"]
  | conditional (word : a.IsWord "if") :
      Writes t a rest (.fixed "if(" ::
        (spacedParts ((statement (a :: rest)).drop 1) ++ [.fixed ")\x7b"]))
  | elseIf (word : a.IsWord "else") : Writes t a rest [.fixed "else"]
  | otherwise (word : a.IsWord "else") : Writes t a rest [.fixed "else\x7b"]
  | mainFunction (word : a.IsWord "function") : Writes t a rest [.fixed "int main()\x7b"]
  | namedFunction {name : Atom} {tail : List Atom} {parameters : List (Atom × SymbolClass)}
      (word : a.IsWord "function") (shape : rest = name :: tail) (isName : name.IsName)
      (valid : ∀ p ∈ parameters, p.1 ∈ tail ∧ p.1.IsName ∧ (p.2 = .int ∨ p.2 = .string)) :
      Writes t a rest (.fixed "void " :: .copy name :: .fixed "(" ::
        (listedParts (parameters.map fun p => declaratorParts p.2 p.1) ++ [.fixed ")\x7b"]))

variable {t t' : Translator} {previous : Option Atom} {i n : Nat} {a : Atom} {rest : List Atom}

theorem lineOf_loop (name low high : Atom) :
    lineOf [.fixed "for(int ", .copy name, .fixed " = ", .copy low, .fixed "; ", .copy name,
      .fixed " <= ", .copy high, .fixed "; ", .copy name, .fixed "++)\x7b"] =
        loopLine name.text low.text high.text := by
  unfold loopLine
  simp only [lineOf_cons, lineOf_nil, LinePart.text, String.append_empty, String.append_assoc]

/-- A construct adds closing braces or the line that it writes. -/
theorem Effect.writes (effect : Effect t previous i a rest n t') :
    (∃ closing, t'.lines = t.lines ++ closing ∧ ∀ line ∈ closing, line = closingLine) ∨
      ∃ parts, Writes t a rest parts ∧ t'.lines = t.lines ++ [lineOf parts] := by
  have settled : ∃ closing, t.settle.lines = t.lines ++ closing ∧
      ∀ line ∈ closing, line = closingLine := by
    rcases t.settle_lines with same | closed
    · exact ⟨[], by simp [same], by simp⟩
    · exact ⟨[closingLine], closed, by simp⟩
  cases effect with
  | print word args =>
      obtain ⟨arguments, span, here, list, texts, -⟩ := arguments_eq_ok.mp args
      obtain ⟨argument, rfl, text⟩ := List.map_eq_singleton_iff.mp texts.symm
      refine Or.inr ⟨_, .print word here list, ?_⟩
      simp [emit, LinePart.text, ← text, argumentText, String.append_assoc]
  | printFormatted word rule args =>
      obtain ⟨arguments, span, here, list, texts, -⟩ := arguments_eq_ok.mp args
      obtain ⟨argument, rfl, text⟩ := List.map_eq_singleton_iff.mp texts.symm
      refine Or.inr ⟨_, .printFormatted word rule here list, ?_⟩
      simp [emit, LinePart.text, ← text, argumentText, String.append_assoc]
  | printListElement word args isList =>
      obtain ⟨arguments, span, here, both, texts, -⟩ := arguments_eq_ok.mp args
      obtain ⟨list, others, rfl, rfl, text⟩ := List.map_eq_cons_iff.mp texts.symm
      obtain ⟨position, rfl, rfl⟩ := List.map_eq_singleton_iff.mp text
      refine Or.inr ⟨_, .printListElement word here both isList, ?_⟩
      simp [emit, LinePart.text, argumentText, String.append_assoc]
  | declaration word scalar shape isName isEquals value declared =>
      refine Or.inr ⟨_, .declaration word scalar shape isName, ?_⟩
      simp [emit, LinePart.text, lineOf_declaratorParts, String.append_assoc]
  | intList word shape isName isEquals isBracket read declared =>
      obtain ⟨inner, close, tail, rfl, -, valid, rfl⟩ := elementsFrom_eq_ok read
      refine Or.inr ⟨_, .intList word shape isName valid, ?_⟩
      simp [emit, LinePart.text, String.append_assoc]
  | assignment isWord free assignable shape isEquals together value =>
      refine Or.inr ⟨_, .assignment isWord free assignable, ?_⟩
      simp [emit, LinePart.text, String.append_assoc]
  | call isWord free isFunction read resolved =>
      obtain ⟨arguments, span, here, list, rfl, -⟩ := arguments_eq_ok.mp read
      refine Or.inr ⟨_, .call isWord free isFunction here list, ?_⟩
      have texts : arguments.map argumentText = (arguments.map spacedParts).map lineOf := by
        rw [List.map_map]
        exact List.map_congr_left fun argument _ => (lineOf_spacedParts argument).symm
      simp only [emit, lineOf_cons, lineOf_append, lineOf_listedParts, texts, LinePart.text, lineOf_nil,
        String.append_empty, String.append_assoc]
  | forLoop word shape isName isFrom lowBound isTo highBound declared =>
      refine Or.inr ⟨_, .forLoop word shape isName lowBound highBound, ?_⟩
      rw [lineOf_loop, openBlock_lines]
  | thenEnd word shape isEnd blocks isLoop => exact Or.inl ⟨[closingLine], closeBlock_lines _ _ _, by simp⟩
  | conditional word condition =>
      refine Or.inr ⟨_, .conditional word, ?_⟩
      simp [openBlock, emit, LinePart.text, String.append_assoc]
  | elseIf word => exact Or.inr ⟨_, .elseIf word, rfl⟩
  | otherwise word => exact Or.inr ⟨_, .otherwise word, rfl⟩
  | mainFunction word => exact Or.inr ⟨_, .mainFunction word, rfl⟩
  | @namedFunction name tail params word atTop shape isName notMain read =>
      obtain ⟨parameters, valid, declared⟩ := parametersFrom_names read trivial
      refine Or.inr ⟨_, .namedFunction word shape isName valid, ?_⟩
      have texts : params.texts = (parameters.map fun p => declaratorParts p.2 p.1).map lineOf := by
        rw [declared, List.map_map]
        exact List.map_congr_left fun p _ => (lineOf_declaratorParts p.2 p.1).symm
      simp only [openBlock, emit, signature, lineOf_cons, lineOf_append, lineOf_listedParts, texts,
        LinePart.text, lineOf_nil, String.append_empty, String.append_assoc]
      rfl
  | closeBrace notWord brace blocks isLoop => exact Or.inl settled
  | closeBlock notWord brace blocks notLoop =>
      obtain ⟨closing, lines, all⟩ := settled
      refine Or.inl ⟨closing ++ [closingLine], ?_, ?_⟩
      · rw [closeBlock_lines, lines, List.append_assoc]
      · intro line member
        rcases List.mem_append.mp member with old | new
        · exact all line old
        · exact List.mem_singleton.mp new
  | directive => exact Or.inl ⟨[], by simp, by simp⟩

theorem Writes.mem_of_copied {parts : List LinePart} (writes : t.Writes a rest parts) {b : Atom}
    (copied : b ∈ copiedIn parts) : b ∈ a :: rest := by
  have taken {argument span : List Atom} {arguments : List (List Atom)} (here : span <+: rest)
      (list : ArgumentList arguments span) (listed : argument ∈ arguments) (inside : b ∈ argument) :
      b ∈ a :: rest :=
    List.mem_cons_of_mem _ (here.subset (list.span_mem listed inside).1)
  have stated {k : Nat} (inside : b ∈ (statement (a :: rest)).drop k) : b ∈ a :: rest :=
    (statement_isPrefix _).subset (List.mem_of_mem_drop inside)
  cases writes with
  | print word here list => exact taken here list List.mem_cons_self (by simpa using copied)
  | printFormatted word rule here list => exact taken here list List.mem_cons_self (by simpa using copied)
  | printListElement word here both isList =>
      simp only [copiedIn_fixed, copiedIn_append, copiedIn_spacedParts, copiedIn_nil, List.append_nil,
        List.mem_append] at copied
      rcases copied with inList | inPosition
      · exact taken here both List.mem_cons_self inList
      · exact taken here both (List.mem_cons_of_mem _ List.mem_cons_self) inPosition
  | declaration word scalar shape isName =>
      simp only [copiedIn_fixed, copiedIn_append, copiedIn_spacedParts, copiedIn_nil, List.append_nil,
        copiedIn_declaratorParts, List.mem_append, List.mem_singleton] at copied
      rcases copied with rfl | inValue
      · simp [shape]
      · exact stated inValue
  | intList word shape isName elements =>
      simp only [copiedIn_fixed, copiedIn_copy, copiedIn_append, copiedIn_copies, copiedIn_nil,
        List.append_nil, List.mem_cons] at copied
      rcases copied with rfl | inside
      · simp [shape]
      · simp [shape, inside]
  | assignment isWord free assignable =>
      simp only [copiedIn_fixed, copiedIn_copy, copiedIn_append, copiedIn_spacedParts, copiedIn_nil,
        List.append_nil, List.mem_cons] at copied
      rcases copied with rfl | inValue
      · exact List.mem_cons_self
      · exact stated inValue
  | @call arguments span isWord free isFunction here list =>
      simp only [copiedIn_fixed, copiedIn_copy, copiedIn_append, copiedIn_listedParts, copiedIn_nil,
        List.append_nil, List.mem_cons, List.flatMap_map, copiedIn_spacedParts, List.mem_flatMap] at copied
      rcases copied with rfl | ⟨argument, listed, inside⟩
      · exact List.mem_cons_self
      · exact taken here list listed inside
  | forLoop word shape isName lowBound highBound =>
      simp only [copiedIn_fixed, copiedIn_copy, copiedIn_nil, List.mem_cons, List.not_mem_nil,
        or_false] at copied
      rcases copied with rfl | rfl | rfl | rfl | rfl <;> simp [shape]
  | conditional word =>
      rw [copiedIn_fixed, copiedIn_append, copiedIn_spacedParts, copiedIn_fixed, copiedIn_nil,
        List.append_nil] at copied
      exact stated copied
  | namedFunction word shape isName valid =>
      simp only [copiedIn_fixed, copiedIn_copy, copiedIn_append, copiedIn_listedParts, copiedIn_nil,
        List.append_nil, List.mem_cons, List.flatMap_map, copiedIn_declaratorParts,
        List.mem_flatMap, List.not_mem_nil, or_false] at copied
      rcases copied with rfl | ⟨p, listed, rfl⟩
      · simp [shape]
      · simp [shape, (valid p listed).1]
  | _ => simp at copied

end Translator

namespace Cursor

variable {atoms : List Atom} {start c d : Cursor}

/-- A construct of the run, which starts with `a`, writes the line of these parts. -/
def Emits (atoms : List Atom) (start : Cursor) (a : Atom) (parts : List LinePart) : Prop :=
  ∃ c d rest, Runs atoms start c ∧ Next atoms c d ∧ atoms.drop c.index = a :: rest ∧
    c.state.Writes a rest parts ∧ d.state.lines = c.state.lines ++ [lineOf parts]

/-- Every line that a run adds is a closing brace, or a construct of the run writes it. -/
theorem Runs.emitted (runs : Runs atoms start c) {line : String} (member : line ∈ c.state.lines)
    (new : line ∉ start.state.lines) :
    line = closingLine ∨ ∃ a parts, Emits atoms start a parts ∧ line = lineOf parts := by
  induction runs with
  | refl => exact absurd member new
  | @tail c d runs next ih =>
      have step := next
      obtain ⟨a, rest, n, here, index, effect⟩ := next
      rcases effect.writes with ⟨closing, lines, all⟩ | ⟨parts, writes, lines⟩
      · rw [lines, List.mem_append] at member
        rcases member with old | added
        · exact ih old
        · exact Or.inl (all line added)
      · have emits : Emits atoms start a parts := ⟨c, d, rest, runs, step, here, writes, lines⟩
        rw [lines, List.mem_append, List.mem_singleton] at member
        rcases member with old | rfl
        · exact ih old
        · exact Or.inr ⟨a, parts, emits, rfl⟩

end Cursor

/-- Every line of a translated unit that had none is a closing brace, or a construct writes it. -/
theorem emitted_of_translate {u v : CompilationUnit} (fresh : u.lines = [])
    (translated : u.translate = .ok v) {line : String} (member : line ∈ v.lines) :
    line = closingLine ∨
      ∃ a parts, Cursor.Emits u.atoms ⟨0, u.translator⟩ a parts ∧ line = lineOf parts := by
  obtain ⟨c, t, runs, -, closed, rfl⟩ := CompilationUnit.translate_eq_ok.mp translated
  have member : line ∈ t.lines := member
  rw [Translator.closeRemaining_lines closed, List.mem_append] at member
  rcases member with inRun | closing
  · exact runs.emitted inRun (by simp [CompilationUnit.translator, fresh])
  · exact Or.inl (List.eq_of_mem_replicate closing)

end DawnC
