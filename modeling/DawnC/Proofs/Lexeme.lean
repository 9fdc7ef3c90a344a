import DawnC.Proofs.SourceLine

set_option autoImplicit false

namespace DawnC

/-- A character that stays in the pending atom outside literals, and opens none. -/
def isPlainChar (c : Char) : Bool := c ≠ '"' && !isSeparator c && !isPunctuation c

namespace Scanner

/-- The mode after characters that stay in one atom, none if one of them ends the atom. -/
def modeAfter : Mode → List Char → Option Mode
  | mode, [] => some mode
  | .plain, c :: rest =>
    if c = '"' then modeAfter .quoted rest
    else if isPlainChar c then modeAfter .plain rest
    else none
  | .quoted, c :: rest =>
    modeAfter (if c = '\\' then .escaped else if c = '"' then .plain else .quoted) rest
  | .escaped, _ :: rest => modeAfter .quoted rest

theorem modeAfter_append (mode : Mode) (first second : List Char) :
    modeAfter mode (first ++ second) = (modeAfter mode first).bind fun next => modeAfter next second := by
  induction first generalizing mode with
  | nil => cases mode <;> cases second <;> rfl
  | cons c rest ih =>
      cases mode with
      | plain =>
          simp only [List.cons_append, modeAfter]
          split
          · exact ih .quoted
          · split
            · exact ih .plain
            · rfl
      | quoted => exact ih _
      | escaped => exact ih .quoted

def IsAtomText (text : List Char) : Prop := (modeAfter .plain text).isSome = true

/-- What is pending is one atom so far, and so is every word that was read. -/
structure Tidy (s : Scanner) : Prop where
  pending : modeAfter .plain s.pending.reverse = some s.mode
  words : ∀ a ∈ s.done, a.kind = .word → IsAtomText a.text.toList

namespace Tidy

variable {s : Scanner}

theorem join (tidy : s.Tidy) {c : Char} {mode : Mode} (stays : modeAfter s.mode [c] = some mode) :
    Tidy { s with pending := c :: s.pending, mode } := by
  refine ⟨?_, tidy.words⟩
  rw [List.reverse_cons, modeAfter_append, tidy.pending]
  exact stays

theorem flush_words (tidy : s.Tidy) :
    ∀ a ∈ s.flush.done, a.kind = .word → IsAtomText a.text.toList := by
  intro a member isWord
  simp only [flush] at member
  split at member
  · exact tidy.words a member isWord
  · rcases List.mem_cons.mp member with rfl | earlier
    · rw [IsAtomText, String.toList_ofList, tidy.pending]
      rfl
    · exact tidy.words a earlier isWord

theorem flush (tidy : s.Tidy) (plain : s.mode = .plain) : s.flush.Tidy := by
  refine ⟨?_, tidy.flush_words⟩
  rw [flush_pending, flush_mode, plain]
  rfl

theorem endStatement (tidy : s.Tidy) : s.endStatement.Tidy := ⟨tidy.pending, tidy.words⟩

theorem push_punct (tidy : s.Tidy) (text : List Char) : (s.push text .punct).Tidy := by
  refine ⟨tidy.pending, ?_⟩
  intro a member isWord
  rcases List.mem_cons.mp member with rfl | earlier
  · cases isWord
  · exact tidy.words a earlier isWord

theorem stepPlain (tidy : s.Tidy) (plain : s.mode = .plain) (c : Char) : (s.stepPlain c).Tidy := by
  have flushed := tidy.flush plain
  simp only [Scanner.stepPlain]
  split
  · rename_i quote
    apply tidy.join
    rw [plain, modeAfter, if_pos quote]
    rfl
  · rename_i notQuote
    split
    · split
      · exact flushed.endStatement
      · exact flushed
    · rename_i notSeparator
      split
      · split
        · exact (flushed.push_punct [c]).endStatement
        · exact flushed.push_punct [c]
      · rename_i notPunctuation
        have stays : isPlainChar c = true := by
          simp [isPlainChar, notQuote, notSeparator, notPunctuation]
        apply tidy.join
        rw [plain, modeAfter, if_neg notQuote, if_pos stays]
        rfl

theorem step (tidy : s.Tidy) (c : Char) : (s.step c).Tidy := by
  simp only [Scanner.step]
  split
  · rename_i plain
    exact tidy.stepPlain plain c
  · rename_i quoted
    apply tidy.join
    rw [quoted, modeAfter, modeAfter]
  · rename_i escaped
    apply tidy.join
    rw [escaped, modeAfter, modeAfter]

theorem foldl (tidy : s.Tidy) (chars : List Char) : (chars.foldl Scanner.step s).Tidy := by
  induction chars generalizing s with
  | nil => exact tidy
  | cons c rest ih => exact ih (tidy.step c)

theorem scanLine (tidy : s.Tidy) (line : List Char) : (s.scanLine line).Tidy := by
  have next : Tidy { s with line := s.line + 1 } := ⟨tidy.pending, tidy.words⟩
  simp only [Scanner.scanLine]
  split
  · exact next
  · refine ⟨?_, (next.foldl (terminated line)).flush_words⟩
    simp only [Scanner.endStatement, flush_pending]
    rfl

theorem fresh (file : String) : Tidy { file } :=
  ⟨rfl, fun _ member => absurd member List.not_mem_nil⟩

end Tidy

end Scanner

/-- The words of the lexer are texts of one atom. -/
theorem isAtomText_of_mem_lex {file : String} {lines : List Bytes} {a : Atom}
    (member : a ∈ lex file lines) (isWord : a.kind = .word) :
    Scanner.IsAtomText a.text.toList := by
  have scanned (lines : List (List Char)) (s : Scanner) (tidy : s.Tidy) :
      (lines.foldl Scanner.scanLine s).Tidy := by
    induction lines generalizing s with
    | nil => exact tidy
    | cons line rest ih => exact ih _ (tidy.scanLine line)
  rw [lex, lexText, List.mem_reverse] at member
  exact (scanned _ _ (.fresh file)).words a member isWord

/-- An atom has plain characters only, up to its first quote. -/
theorem Scanner.IsAtomText.split {text : List Char} (atom : IsAtomText text) :
    ∃ first rest, text = first ++ rest ∧ first.all isPlainChar = true ∧
      (rest = [] ∨ ∃ tail, rest = '"' :: tail) := by
  induction text with
  | nil => exact ⟨[], [], rfl, rfl, Or.inl rfl⟩
  | cons c text ih =>
      simp only [IsAtomText, modeAfter] at atom
      split at atom
      · rename_i quote
        exact ⟨[], c :: text, rfl, rfl, Or.inr ⟨text, by rw [quote]⟩⟩
      · split at atom
        · rename_i plain
          obtain ⟨first, rest, rfl, all, stop⟩ := ih atom
          refine ⟨c :: first, rest, rfl, ?_, stop⟩
          rw [List.all_cons, plain, all]
          rfl
        · cases atom

end DawnC
