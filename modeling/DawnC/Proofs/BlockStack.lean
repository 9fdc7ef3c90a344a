import DawnC.Proofs.Nesting
import Mathlib.Data.List.Forall2

set_option autoImplicit false

namespace DawnC

/-- The line at `k` opens `b`: it fits the kind of block, and the construct that starts at the
block's first atom emitted it. -/
structure Opened (atoms : List Atom) (start : Cursor) (lines : List String) (b : Block) (k : Nat) :
    Prop where
  heads : ∃ line, lines[k]? = some line ∧ b.kind.heads line = true
  origin : ∃ c d, Cursor.Runs atoms start c ∧ Cursor.Next atoms c d ∧ c.index = b.opener ∧
    c.state.lines.length = k ∧ k < d.state.lines.length

/-- The open blocks are the unmatched opening lines. -/
def Mirrored (atoms : List Atom) (start : Cursor) (t : Translator) : Prop :=
  ∃ stack, unmatched t.lines = some stack ∧
    List.Forall₂ (Opened atoms start t.lines) t.blocks stack

variable {atoms : List Atom} {start : Cursor}

theorem Opened.append {lines : List String} {b : Block} {k : Nat}
    (opened : Opened atoms start lines b k) (more : List String) :
    Opened atoms start (lines ++ more) b k := by
  obtain ⟨⟨line, found, heads⟩, origin⟩ := opened
  refine ⟨⟨line, ?_, heads⟩, origin⟩
  rw [List.getElem?_append_left (List.getElem?_eq_some_iff.mp found).1, found]

theorem Opened.append_all {lines : List String} {blocks : List Block} {stack : List Nat}
    (opened : List.Forall₂ (Opened atoms start lines) blocks stack) (more : List String) :
    List.Forall₂ (Opened atoms start (lines ++ more)) blocks stack :=
  opened.imp fun _ _ here => here.append more

namespace Mirrored

variable {t : Translator}

theorem emit (mirrored : Mirrored atoms start t) (symbols : SymbolTable) {line : String}
    (opens : opensBlock line = false) (closes : line ≠ closingLine) :
    Mirrored atoms start ({ t with symbols }.emit line) := by
  obtain ⟨stack, known, opened⟩ := mirrored
  exact ⟨stack, unmatched_plain known opens closes, Opened.append_all opened _⟩

theorem openBlock (mirrored : Mirrored atoms start t) {symbols : SymbolTable}
    {prototypes : List String} {kind : BlockKind} {i : Nat} {line : String}
    (heads : kind.heads line = true)
    (origin : ∃ c d, Cursor.Runs atoms start c ∧ Cursor.Next atoms c d ∧ c.index = i ∧
      c.state.lines.length = t.lines.length ∧ t.lines.length < d.state.lines.length) :
    Mirrored atoms start ({ t with symbols, prototypes }.openBlock kind i line) := by
  obtain ⟨stack, known, opened⟩ := mirrored
  refine ⟨t.lines.length :: stack, unmatched_open known (opensBlock_of_heads heads), .cons ?_ ?_⟩
  · exact ⟨⟨line, List.getElem?_concat_length, heads⟩, origin⟩
  · exact Opened.append_all opened _

theorem closeBlock (mirrored : Mirrored atoms start t) {b : Block} {outer : List Block}
    (blocks : t.blocks = b :: outer) : Mirrored atoms start (t.closeBlock b outer) := by
  obtain ⟨stack, known, opened⟩ := mirrored
  rw [blocks] at opened
  cases opened with
  | cons here around => exact ⟨_, unmatched_close known, Opened.append_all around _⟩

theorem settle (mirrored : Mirrored atoms start t) : Mirrored atoms start t.settle := by
  simp only [Translator.settle]
  split
  · exact mirrored
  · rename_i b outer blocks
    split
    · exact mirrored.closeBlock blocks
    · exact mirrored

theorem closeBrace (mirrored : Mirrored atoms start t) {b : Block} {outer : List Block}
    (blocks : t.blocks = b :: outer) : Mirrored atoms start (t.closeBrace b outer) := by
  obtain ⟨stack, known, opened⟩ := mirrored
  rw [blocks] at opened
  cases opened with
  | cons here around => exact ⟨_, known, .cons ⟨here.heads, here.origin⟩ around⟩

/-- A construct keeps the stack and the lines in step. -/
theorem next {c d : Cursor} (mirrored : Mirrored atoms start c.state)
    (runs : Cursor.Runs atoms start c) (step : Cursor.Next atoms c d) :
    Mirrored atoms start d.state := by
  obtain ⟨a, rest, n, here, index, effect⟩ := step
  have origin (grows : c.state.lines.length < d.state.lines.length) :
      ∃ c' d', Cursor.Runs atoms start c' ∧ Cursor.Next atoms c' d' ∧ c'.index = c.index ∧
        c'.state.lines.length = c.state.lines.length ∧
        c.state.lines.length < d'.state.lines.length :=
    ⟨c, d, runs, ⟨a, rest, n, here, index, effect⟩, rfl, rfl, grows⟩
  have shape := effect.shape
  generalize d.state = t' at shape origin
  cases shape with
  | plain complete => exact mirrored.emit _ complete.opensBlock (complete.ne (by decide))
  | head control heads => exact mirrored.openBlock heads (origin (by simp))
  | elseIf afterBrace afterIf shape isIf single =>
      exact mirrored.emit c.state.symbols (by decide) (by decide)
  | otherwise afterBrace afterIf => exact mirrored.openBlock (by decide) (origin (by simp))
  | mainFunction atTop => exact mirrored.openBlock (by decide) (origin (by simp))
  | namedFunction atTop =>
      refine mirrored.openBlock ?_ (origin (by simp))
      rw [BlockKind.heads, isFunctionLine, isVoidLine_signature, Bool.or_true]
  | thenEnd word blocks isLoop => exact mirrored.closeBlock blocks
  | closeBrace notWord brace blocks isLoop => exact mirrored.settle.closeBrace blocks
  | closeBlock notWord brace blocks notLoop => exact mirrored.settle.closeBlock blocks
  | directive => exact mirrored

theorem fresh {t : Translator} (lines : t.lines = []) (blocks : t.blocks = []) :
    Mirrored atoms start t := by
  refine ⟨[], ?_, ?_⟩
  · rw [lines, unmatched_nil]
  · rw [blocks]
    exact .nil

/-- The stack and the lines are in step all along a run. -/
theorem runs {c : Cursor} (initial : Mirrored atoms start start.state)
    (reached : Cursor.Runs atoms start c) : Mirrored atoms start c.state := by
  induction reached with
  | refl => exact initial
  | tail before step ih => exact ih.next before step

end Mirrored

end DawnC
