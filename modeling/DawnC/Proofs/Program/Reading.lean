import DawnC.Proofs.Program.Tree
import DawnC.Proofs.Run

set_option autoImplicit false

namespace DawnC

variable {file : String} {line stmt : Int}

theorem pieceAtoms_append (first second : List Piece) :
    pieceAtoms file line stmt (first ++ second) =
      pieceAtoms file line stmt first ++ pieceAtoms file line (stmtAfter stmt first) second := by
  induction first generalizing stmt with
  | nil => rfl
  | cons piece rest ih =>
      cases piece with
      | run text => simp only [List.cons_append, pieceAtoms, stmtAfter, ih]
      | mark c => simp only [List.cons_append, pieceAtoms, stmtAfter, ih, List.append_assoc]

theorem stmtAfter_append (first second : List Piece) :
    stmtAfter stmt (first ++ second) = stmtAfter (stmtAfter stmt first) second := by
  induction first generalizing stmt with
  | nil => rfl
  | cons piece rest ih =>
      cases piece with
      | run text => simp only [List.cons_append, stmtAfter, ih]
      | mark c => simp only [List.cons_append, stmtAfter, ih]

theorem le_stmtAfter (stmt : Int) (pieces : List Piece) : stmt ≤ stmtAfter stmt pieces := by
  induction pieces generalizing stmt with
  | nil => exact Int.le_refl _
  | cons piece rest ih =>
      cases piece with
      | run text => exact ih stmt
      | mark c =>
          refine Int.le_trans ?_ (ih (bump stmt c))
          simp only [bump]
          split <;> omega

theorem le_stmt_of_mem_pieceAtoms {stmt : Int} {pieces : List Piece} {a : Atom}
    (member : a ∈ pieceAtoms file line stmt pieces) : stmt ≤ a.stmt := by
  induction pieces generalizing stmt with
  | nil => cases member
  | cons piece rest ih =>
      cases piece with
      | run text =>
          rcases List.mem_cons.mp member with rfl | later
          · exact Int.le_refl _
          · exact ih later
      | mark c =>
          rcases List.mem_append.mp member with here | later
          · split at here
            · cases List.mem_singleton.mp here
              exact Int.le_refl _
            · cases here
          · refine Int.le_trans ?_ (ih later)
            simp only [bump]
            split <;> omega

/-- The atoms of later lines belong to later statements. -/
theorem le_stmt_of_mem_lineAtoms {stmt : Int} {lines : List (List Piece)} {a : Atom}
    (member : a ∈ lineAtoms file line stmt lines) : stmt ≤ a.stmt := by
  induction lines generalizing line stmt with
  | nil => cases member
  | cons pieces rest ih =>
      rcases List.mem_append.mp member with here | later
      · exact le_stmt_of_mem_pieceAtoms here
      · have after := le_stmtAfter stmt pieces
        have bound := ih later
        omega

def tokenAtom (file : String) (line stmt : Int) : Piece → Atom
  | .run text => ⟨text, Scanner.kindOf text.toList, file, line, stmt⟩
  | .mark c => ⟨String.ofList [c], .punct, file, line, stmt⟩

@[simp] theorem tokenAtom_stmt (piece : Piece) : (tokenAtom file line stmt piece).stmt = stmt := by
  cases piece <;> rfl

@[simp] theorem tokenAtom_text (piece : Piece) :
    (tokenAtom file line stmt piece).text = String.ofList piece.chars := by
  cases piece with
  | run text => simp [tokenAtom, Piece.chars]
  | mark c => rfl

theorem not_isRun_punctuation {c : Char} (punctuation : isPunctuation c = true) :
    isRun (String.ofList [c]) = false := by
  have notQuote : c ≠ '"' := by
    rintro rfl
    exact absurd punctuation (by decide)
  simp [isRun, isRunFrom, notQuote, punctuation]

theorem Atom.is_eq_false {a : Atom} {text : String} (other : a.text ≠ text) : a.is text = false := by
  rw [Atom.is, decide_eq_false other, Bool.and_false]

theorem tokenAtom_is {stops : List Char} {piece : Piece} (valid : isToken stops piece = true)
    {c : Char} (stop : c ∈ '\x7d' :: stops) (punctuation : isPunctuation c = true) :
    (tokenAtom file line stmt piece).is (String.ofList [c]) = false := by
  cases piece with
  | run text =>
      simp only [isToken, Bool.and_eq_true] at valid
      have other : text ≠ String.ofList [c] := by
        rintro rfl
        rw [not_isRun_punctuation punctuation] at valid
        cases valid.1
      exact Atom.is_eq_false other
  | mark d =>
      simp only [isToken, Bool.and_eq_true, decide_eq_true_eq] at valid
      refine Atom.is_eq_false fun same => valid.2 ?_
      cases String.ofList_injective same
      exact stop

namespace Phrase

variable {stops : List Char}

def atoms (phrase : Phrase stops) (file : String) (line stmt : Int) : List Atom :=
  phrase.tokens.map (tokenAtom file line stmt)

theorem tokens_atoms (file : String) (line stmt : Int) {tokens : List Piece}
    (valid : tokens.all (isToken stops) = true) :
    pieceAtoms file line stmt (tokens.intersperse (.mark ' ')) =
        tokens.map (tokenAtom file line stmt) ∧
      stmtAfter stmt (tokens.intersperse (.mark ' ')) = stmt := by
  have blank : bump stmt ' ' = stmt := rfl
  have single (token : Piece) (here : isToken stops token = true) (rest : List Piece) :
      pieceAtoms file line stmt (token :: rest) =
          tokenAtom file line stmt token :: pieceAtoms file line stmt rest ∧
        stmtAfter stmt (token :: rest) = stmtAfter stmt rest := by
    cases token with
    | run text => exact ⟨rfl, rfl⟩
    | mark c =>
        simp only [isToken, Bool.and_eq_true, decide_eq_true_eq, List.mem_cons, not_or] at here
        have notOpen : c ≠ '\x7b' := by
          rintro rfl
          exact absurd here.1 (by decide)
        have stays : bump stmt c = stmt := by simp [bump, notOpen, here.2.1]
        simp [pieceAtoms, stmtAfter, here.1, stays, tokenAtom]
  induction tokens with
  | nil => exact ⟨rfl, rfl⟩
  | cons token rest ih =>
      rw [List.all_cons, Bool.and_eq_true] at valid
      cases rest with
      | nil =>
          rw [List.intersperse_singleton]
          exact single token valid.1 []
      | cons next rest =>
          obtain ⟨read, stays⟩ := ih valid.2
          obtain ⟨here, after⟩ :=
            single token valid.1 (.mark ' ' :: (next :: rest).intersperse (.mark ' '))
          rw [List.intersperse_cons_cons, here, after]
          simp only [pieceAtoms, stmtAfter, blank, read, stays, List.map_cons]
          exact ⟨rfl, trivial⟩

@[simp] theorem pieceAtoms_pieces (phrase : Phrase stops) :
    pieceAtoms file line stmt phrase.pieces = phrase.atoms file line stmt :=
  (tokens_atoms file line stmt phrase.valid).1

@[simp] theorem stmtAfter_pieces (phrase : Phrase stops) : stmtAfter stmt phrase.pieces = stmt :=
  (tokens_atoms "" 0 stmt phrase.valid).2

theorem atoms_ne_nil (phrase : Phrase stops) : phrase.atoms file line stmt ≠ [] := by
  simpa [atoms] using phrase.nonempty

theorem map_text_atoms (phrase : Phrase stops) :
    (phrase.atoms file line stmt).map Atom.text = phrase.texts := by
  simp [atoms, texts, Function.comp_def]

theorem spaced_atoms (phrase : Phrase stops) :
    spaced ((phrase.atoms file line stmt).map Atom.text) = phrase.text := by
  rw [map_text_atoms, spaced, text]

theorem stmt_of_mem_atoms (phrase : Phrase stops) {a : Atom}
    (member : a ∈ phrase.atoms file line stmt) : a.stmt = stmt := by
  obtain ⟨token, -, rfl⟩ := List.mem_map.mp member
  exact tokenAtom_stmt token

theorem is_of_mem_atoms (phrase : Phrase stops) {a : Atom}
    (member : a ∈ phrase.atoms file line stmt) {c : Char} (stop : c ∈ '\x7d' :: stops)
    (punctuation : isPunctuation c = true) : a.is (String.ofList [c]) = false := by
  obtain ⟨token, inside, rfl⟩ := List.mem_map.mp member
  exact tokenAtom_is (List.all_eq_true.mp phrase.valid token inside) stop punctuation

end Phrase

theorem commaSeparated_atoms {α : Type} (parts : List α) {pieces : α → List Piece}
    {atoms : α → List Atom} (read : ∀ part, pieceAtoms file line stmt (pieces part) = atoms part)
    (stays : ∀ part, stmtAfter stmt (pieces part) = stmt) :
    pieceAtoms file line stmt (commaSeparated (parts.map pieces)) =
        [tokenAtom file line stmt (.mark ',')].intercalate (parts.map atoms) ∧
      stmtAfter stmt (commaSeparated (parts.map pieces)) = stmt := by
  have comma : pieceAtoms file line stmt [.mark ',', .mark ' '] =
        [tokenAtom file line stmt (.mark ',')] ∧
      stmtAfter stmt [.mark ',', .mark ' '] = stmt := ⟨rfl, rfl⟩
  unfold commaSeparated
  induction parts with
  | nil => exact ⟨rfl, rfl⟩
  | cons part rest ih =>
      cases rest with
      | nil => simpa using ⟨read part, stays part⟩
      | cons next rest =>
          simp only [List.map_cons, List.intercalate_cons_cons, pieceAtoms_append,
            stmtAfter_append, read, stays, comma.1, comma.2]
          simp only [List.map_cons] at ih
          rw [ih.1, ih.2]
          exact ⟨rfl, rfl⟩

theorem is_of_is {a : Atom} {first second : String} (isFirst : a.is first = true)
    (different : first ≠ second) : a.is second = false := by
  cases isSecond : a.is second with
  | false => rfl
  | true => exact absurd (Atom.eq_of_is isFirst isSecond) different

theorem argumentsFrom_append {part : List Atom}
    (free : ∀ a ∈ part, a.is ")" = false ∧ a.is "," = false ∧ a.is "\x7d" = false)
    (args current : List String) (taken index : Nat) (rest : List Atom) :
    argumentsFrom args current taken index (part ++ rest) =
      argumentsFrom args ((part.map Atom.text).reverse ++ current) (taken + part.length)
        (index + part.length) rest := by
  induction part generalizing current taken index with
  | nil => simp
  | cons a part ih =>
      obtain ⟨close, comma, brace⟩ := free a List.mem_cons_self
      rw [List.cons_append, argumentsFrom]
      simp only [close, comma, brace, Bool.false_eq_true, if_false]
      rw [ih fun b member => free b (List.mem_cons_of_mem _ member)]
      simp only [List.map_cons, List.reverse_cons, List.append_assoc, List.singleton_append,
        List.length_cons]
      congr 1 <;> omega

/-- The arguments between commas and before a `)` are read one by one. -/
theorem arguments_intercalate {comma close : Atom} (isComma : comma.is "," = true)
    (isClose : close.is ")" = true) {parts : List (List Atom)}
    (nonempty : ∀ part ∈ parts, part ≠ [])
    (free : ∀ part ∈ parts, ∀ a ∈ part,
      a.is ")" = false ∧ a.is "," = false ∧ a.is "\x7d" = false)
    (index : Nat) (rest : List Atom) :
    arguments index ([comma].intercalate parts ++ close :: rest) =
      .ok (parts.map fun part => spaced (part.map Atom.text),
        ([comma].intercalate parts).length + 1) := by
  have filled {part : List Atom} (some : part ≠ []) :
      (part.map Atom.text).reverse.isEmpty = false := by
    simpa using some
  have later (first : List Atom) (others : List (List Atom)) (args : List String)
      (taken index : Nat) (nonempty : ∀ part ∈ first :: others, part ≠ [])
      (free : ∀ part ∈ first :: others, ∀ a ∈ part,
        a.is ")" = false ∧ a.is "," = false ∧ a.is "\x7d" = false) :
      argumentsFrom args [] taken index ([comma].intercalate (first :: others) ++ close :: rest) =
        .ok (args.reverse ++ (first :: others).map fun part => spaced (part.map Atom.text),
          taken + ([comma].intercalate (first :: others)).length + 1) := by
    induction others generalizing first args taken index with
    | nil =>
        have here := filled (nonempty first List.mem_cons_self)
        rw [List.intercalate_singleton, argumentsFrom_append (free first List.mem_cons_self),
          argumentsFrom]
        simp only [isClose, if_true, here, Bool.not_false, List.append_nil, List.reverse_reverse,
          List.reverse_cons, List.map_cons, List.map_nil]
    | cons next others ih =>
        have here := filled (nonempty first List.mem_cons_self)
        rw [List.intercalate_cons_cons, List.append_assoc, List.append_assoc,
          argumentsFrom_append (free first List.mem_cons_self), List.singleton_append,
          argumentsFrom]
        simp only [is_of_is isComma (show "," ≠ ")" by decide), isComma, List.append_nil, here,
          Bool.false_eq_true, if_false, if_true]
        rw [ih next _ _ _ (fun part member => nonempty part (List.mem_cons_of_mem _ member))
          (fun part member => free part (List.mem_cons_of_mem _ member))]
        simp only [List.reverse_reverse, List.reverse_cons, List.map_cons, List.append_assoc,
          List.singleton_append, List.length_append, List.length_cons, Except.ok.injEq,
          Prod.mk.injEq, true_and]
        omega
  cases parts with
  | nil =>
      rw [List.intercalate_nil, List.nil_append, arguments, argumentsFrom]
      simp [isClose]
  | cons first others =>
      rw [arguments, later first others [] 0 index nonempty free]
      simp

theorem mem_intersperse {α : Type} {x separator : α} {items : List α}
    (member : x ∈ items.intersperse separator) : x = separator ∨ x ∈ items := by
  induction items with
  | nil => cases member
  | cons item rest ih =>
      cases rest with
      | nil => exact Or.inr member
      | cons next rest =>
          rw [List.intersperse_cons_cons, List.mem_cons, List.mem_cons] at member
          rcases member with rfl | rfl | later
          · exact Or.inr List.mem_cons_self
          · exact Or.inl rfl
          · exact (ih later).imp_right (List.mem_cons_of_mem _)

theorem mem_intercalate {α : Type} {x : α} {separator : List α} {parts : List (List α)}
    (member : x ∈ separator.intercalate parts) : x ∈ separator ∨ ∃ part ∈ parts, x ∈ part := by
  obtain ⟨part, inside, found⟩ := List.mem_flatten.mp member
  rcases mem_intersperse inside with rfl | inside
  · exact Or.inl found
  · exact Or.inr ⟨part, inside, found⟩

/-- Joining atoms between commas joins each part and puts the commas between. -/
theorem join_intercalate {comma : Atom} (isComma : comma.text = ",") (parts : List (List Atom)) :
    String.join (([comma].intercalate parts).map Atom.text) =
      ",".intercalate (parts.map fun part => String.join (part.map Atom.text)) := by
  induction parts with
  | nil => rfl
  | cons part rest ih =>
      cases rest with
      | nil => simp
      | cons next rest =>
          simp only [List.map_cons] at ih
          rw [List.intercalate_cons_cons]
          simp only [List.map_cons, List.map_append, String.join_append, isComma,
            String.intercalate_cons_cons, List.map_nil, ih]
          simp

theorem elementsFrom_append {part : List Atom}
    (free : ∀ a ∈ part, a.is "]" = false ∧ a.is "\x7d" = false) {close : Atom}
    (isClose : close.is "]" = true) (texts : List String) (taken index : Nat) (rest : List Atom) :
    elementsFrom texts taken index (part ++ close :: rest) =
      .ok (String.join (texts.reverse ++ part.map Atom.text), taken + part.length + 1) := by
  induction part generalizing texts taken index with
  | nil => simp [elementsFrom, isClose]
  | cons a part ih =>
      obtain ⟨bracket, brace⟩ := free a List.mem_cons_self
      rw [List.cons_append, elementsFrom]
      simp only [bracket, brace, Bool.false_eq_true, if_false]
      rw [ih fun b member => free b (List.mem_cons_of_mem _ member)]
      simp only [List.reverse_cons, List.append_assoc, List.singleton_append, List.map_cons,
        List.length_cons, Except.ok.injEq, Prod.mk.injEq, true_and]
      omega

/-- A statement ends where the next one begins. -/
theorem statement_append {a : Atom} {front later : List Atom}
    (together : ∀ b ∈ front, b.stmt = a.stmt) (noBrace : ∀ b ∈ a :: front, b.is "\x7d" = false)
    (apart : ∀ b ∈ later, a.stmt < b.stmt) : statement (a :: (front ++ later)) = a :: front := by
  have inside (b : Atom) (member : b ∈ a :: front) :
      (decide (b.stmt = a.stmt) && !b.is "\x7d") = true := by
    have same : b.stmt = a.stmt := by
      rcases List.mem_cons.mp member with rfl | later
      · rfl
      · exact together b later
    simp [same, noBrace b member]
  rw [statement, ← List.cons_append, List.takeWhile_append_of_pos inside]
  cases later with
  | nil => simp
  | cons b later =>
      have different := apart b List.mem_cons_self
      have outside : ¬ (decide (b.stmt = a.stmt) && !b.is "\x7d") = true := by
        simp only [Bool.and_eq_true, decide_eq_true_eq, not_and]
        intro same
        omega
      rw [List.takeWhile_cons, if_neg outside, List.append_nil]

end DawnC
