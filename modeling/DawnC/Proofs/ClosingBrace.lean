import DawnC.Atom.Lexer
import DawnC.Proofs.Nesting

set_option autoImplicit false

namespace DawnC

namespace Translator

/-- From `t` to `t'` that many closing lines were emitted and nothing else, and `blocks` are open. -/
structure Leaves (t t' : Translator) (blocks : List Block) (closings : Nat) : Prop where
  blocks : t'.blocks = blocks
  lines : t'.lines = t.lines ++ List.replicate closings closingLine
  symbols : t'.symbols = t.symbols
  prototypes : t'.prototypes = t.prototypes

/-- The rule for a brace at index `i`: `closings` loops of `t` are closed, and then the brace applies to
the first of the blocks below them. -/
inductive Applies (t : Translator) (closings i : Nat) : List Block → Step → Prop where
  | unexpected {t' : Translator} (leaves : t.Leaves t' [] closings) :
      Applies t closings i [] (.error (⟨i, .unexpectedClose⟩, t'))
  | loop {b : Block} {outer : List Block} {t' : Translator} (isLoop : b.kind = .loop)
      (leaves : t.Leaves t' ({ b with braceClosed := true } :: outer) closings) :
      Applies t closings i (b :: outer) (.ok (1, t'))
  | block {b : Block} {outer : List Block} {t' : Translator} (notLoop : b.kind ≠ .loop)
      (leaves : t.Leaves t' outer (closings + 1)) :
      Applies t closings i (b :: outer) (.ok (1, t'))

variable {t t' t'' : Translator} {b : Block} {outer loops rest : List Block} {m n i : Nat}

theorem Leaves.refl (blocks : t.blocks = outer) : t.Leaves t outer 0 :=
  ⟨blocks, (List.append_nil _).symm, rfl, rfl⟩

theorem Leaves.trans (first : t.Leaves t' outer m) (second : t'.Leaves t'' rest n) :
    t.Leaves t'' rest (m + n) := by
  refine ⟨second.blocks, ?_, second.symbols.trans first.symbols,
    second.prototypes.trans first.prototypes⟩
  rw [second.lines, first.lines, List.append_assoc, List.replicate_append_replicate]

theorem leaves_closeBlock (t : Translator) (b : Block) (outer : List Block) :
    t.Leaves (t.closeBlock b outer) outer 1 := ⟨rfl, rfl, rfl, rfl⟩

theorem leaves_closeBrace (t : Translator) (b : Block) (outer : List Block) :
    t.Leaves (t.closeBrace b outer) ({ b with braceClosed := true } :: outer) 0 :=
  ⟨rfl, (List.append_nil _).symm, rfl, rfl⟩

/-- Lines that were emitted before the brace count with those that it emits. -/
theorem Leaves.applies (first : t.Leaves t' outer m) {step : Step} (second : t'.Applies n i rest step) :
    t.Applies (m + n) i rest step := by
  cases second with
  | unexpected leaves => exact .unexpected (first.trans leaves)
  | loop isLoop leaves => exact .loop isLoop (first.trans leaves)
  | block notLoop leaves => exact .block notLoop (first.trans leaves)

/-- What is left of a brace once the loops above `rest` are closed. -/
theorem Leaves.applyClose (leaves : t.Leaves t' rest n) (i : Nat) :
    t.Applies n i rest (blockClose.applyClose i t' rest) := by
  cases rest with
  | nil => exact .unexpected leaves
  | cons b outer =>
      rw [blockClose.applyClose]
      split
      · rename_i isLoop
        exact .loop isLoop (leaves.trans (leaves_closeBrace t' b outer))
      · rename_i notLoop
        exact .block notLoop (leaves.trans (leaves_closeBlock t' b outer))

/-- With no loop to close first, the brace applies to the innermost block. -/
theorem blockClose_of_open (stops : ∀ b ∈ t.blocks.head?, b.isClosedLoop = false) (i : Nat) :
    t.Applies 0 i t.blocks (t.blockClose i) := by
  have settled : t.settle = t := by
    cases blocks : t.blocks with
    | nil => simp only [settle, blocks]
    | cons b outer =>
        have unclosed := stops b (by rw [blocks, List.head?_cons, Option.mem_some])
        exact settle_of_open blocks (by simp [unclosed])
  rw [applyClose_settle, settled]
  exact (Leaves.refl rfl).applyClose i

/-- One loop is closed on the way to the block below, whatever that is. -/
theorem blockClose_of_closed (blocks : t.blocks = b :: outer) (closed : b.isClosedLoop = true) (i : Nat) :
    t.Applies 1 i outer (t.blockClose i) := by
  rw [applyClose_settle, settle_of_closed blocks closed]
  exact (leaves_closeBlock t b outer).applyClose i

/-- Of several loops the topmost is closed. The one below stays as it is: its brace was read before. -/
theorem blockClose_of_several (blocks : t.blocks = loops ++ rest)
    (closed : ∀ b ∈ loops, b.isClosedLoop = true) (several : 2 ≤ loops.length) (i : Nat) :
    ∃ t', t.blockClose i = .ok (1, t') ∧ t.Leaves t' (loops.tail ++ rest) 1 := by
  rcases loops with _ | ⟨b, _ | ⟨b', loops⟩⟩
  · exact absurd several (by simp)
  · exact absurd several (by simp)
  · have applies := blockClose_of_closed blocks (closed b List.mem_cons_self) i
    have second := closed b' (List.mem_cons_of_mem _ List.mem_cons_self)
    rw [Block.isClosedLoop, Bool.and_eq_true, decide_eq_true_eq] at second
    obtain ⟨isLoop, marked⟩ := second
    generalize t.blockClose i = step at applies
    cases applies with
    | loop isLoop leaves =>
        rw [← marked] at leaves
        exact ⟨_, rfl, leaves⟩
    | block notLoop leaves => exact absurd isLoop notLoop

end Translator

open Translator (Leaves Applies)

def Atom.IsBrace (a : Atom) : Prop := a.kind ≠ .word ∧ a.is "\x7d" = true

instance (a : Atom) : Decidable a.IsBrace := inferInstanceAs (Decidable (_ ∧ _))

theorem Translator.construct_brace {a : Atom} (brace : a.IsBrace) (t : Translator)
    (previous : Option Atom) (i : Nat) (atoms : List Atom) :
    t.construct previous i a atoms = t.blockClose i := by
  rw [construct, if_pos brace.1, if_pos brace.2]

namespace Cursor

variable {atoms braces more : List Atom} {c : Cursor} {loops rest : List Block}

/-- As long as a further closed loop is below, every brace closes one. -/
theorem runs_braces (here : atoms.drop c.index = braces ++ more) (all : ∀ a ∈ braces, a.IsBrace)
    (blocks : c.state.blocks = loops ++ rest) (closed : ∀ b ∈ loops, b.isClosedLoop = true)
    (enough : braces.length < loops.length) :
    ∃ d, Runs atoms c d ∧ d.index = c.index + braces.length ∧
      c.state.Leaves d.state (loops.drop braces.length ++ rest) braces.length := by
  induction braces generalizing c loops with
  | nil => exact ⟨c, .refl, rfl, .refl blocks⟩
  | cons a braces ih =>
      rw [List.length_cons] at enough
      obtain ⟨t, accepted, leaves⟩ :=
        Translator.blockClose_of_several blocks closed (by omega) c.index
      have step : Next atoms c ⟨c.index + 1, t⟩ := by
        apply Next.of_construct here
        rw [Translator.construct_brace (all a List.mem_cons_self), accepted]
      have fewer : braces.length < loops.tail.length := by
        rw [List.length_tail]
        omega
      obtain ⟨d, runs, index, leaves'⟩ := @ih ⟨c.index + 1, t⟩ loops.tail (drop_succ here)
        (fun x member => all x (List.mem_cons_of_mem _ member)) leaves.blocks
        (fun x member => closed x (List.mem_of_mem_tail member)) fewer
      refine ⟨d, runs.head step, ?_, ?_⟩
      · rw [index, List.length_cons, Nat.add_right_comm, Nat.add_assoc]
      · have both := leaves.trans leaves'
        rw [List.drop_tail, Nat.add_comm 1] at both
        exact both

end Cursor

/-- A closing brace where the stack has `loops` on top, whose own braces were read, and `rest` below.
- With at most one such loop, all of them are closed, and the brace applies to the block below.
- With more, the topmost is closed and nothing else happens.
- So in a row of as many braces as there are loops, the last one does what the rule has the first do. -/
theorem brace_passes_one_closed_loop {atoms : List Atom} {c : Cursor} {loops rest : List Block}
    (blocks : c.state.blocks = loops ++ rest) (closed : ∀ b ∈ loops, b.isClosedLoop = true)
    (stops : ∀ b ∈ rest.head?, b.isClosedLoop = false) :
    (loops.length ≤ 1 → c.state.Applies loops.length c.index rest (c.state.blockClose c.index)) ∧
    (2 ≤ loops.length → ∃ t, c.state.blockClose c.index = .ok (1, t) ∧
      c.state.Leaves t (loops.tail ++ rest) 1) ∧
    ∀ braces more, atoms.drop c.index = braces ++ more → (∀ a ∈ braces, a.IsBrace) →
      braces.length + 1 = loops.length →
      ∃ d, Cursor.Runs atoms c d ∧ d.index = c.index + braces.length ∧
        c.state.Applies loops.length d.index rest (d.state.blockClose d.index) := by
  refine ⟨?_, ?_, ?_⟩
  · intro few
    rcases Nat.le_one_iff_eq_zero_or_eq_one.mp few with none | one
    · obtain rfl := List.length_eq_zero_iff.mp none
      rw [List.nil_append] at blocks
      rw [← blocks] at stops ⊢
      exact Translator.blockClose_of_open stops c.index
    · obtain ⟨b, rfl⟩ := List.length_eq_one_iff.mp one
      exact Translator.blockClose_of_closed blocks (closed b List.mem_cons_self) c.index
  · intro several
    exact Translator.blockClose_of_several blocks closed several c.index
  · intro braces more here all count
    obtain ⟨d, runs, index, leaves⟩ :=
      Cursor.runs_braces here all blocks closed (Nat.lt_of_succ_le (Nat.le_of_eq count))
    obtain ⟨b, last⟩ : ∃ b, loops.drop braces.length = [b] := by
      apply List.length_eq_one_iff.mp
      rw [List.length_drop]
      omega
    have member : b ∈ loops := List.mem_of_mem_drop (last ▸ List.mem_cons_self)
    rw [last] at leaves
    have applies := leaves.applies
      (Translator.blockClose_of_closed leaves.blocks (closed b member) d.index)
    rw [count] at applies
    exact ⟨d, runs, index, applies⟩

/-- A function with two loops in a row that no `then end` ends, and the lines after them. -/
def loopsInRow (after : List String) : List Atom :=
  lex "t.dawn" ((["function f() \x7b", "for i from 1 to 2 \x7b", "\x7d", "for j from 1 to 2 \x7b",
    "\x7d"] ++ after).map Utf8.encode)

def afterLoops : Cursor where
  index := 17
  state := {
    symbols := .ofList [("f", .function), ("i", .int), ("j", .int)]
    prototypes := ["void f();"]
    lines := ["void f()\x7b", "for(int i = 1; i <= 2; i++)\x7b", "for(int j = 1; j <= 2; j++)\x7b"]
    blocks := [⟨.loop, 10, true⟩, ⟨.loop, 3, true⟩, ⟨.function, 0, false⟩] }

/-- The brace of the function closes one of the two loops, and a second one is needed to close the other
and the function. -/
theorem brace_passes_one_closed_loop_two :
    ∃ t d, afterLoops.state.blockClose 17 = .ok (1, t) ∧
      afterLoops.state.Leaves t [⟨.loop, 3, true⟩, ⟨.function, 0, false⟩] 1 ∧
      Cursor.Runs (loopsInRow ["\x7d", "\x7d"]) afterLoops d ∧ d.index = 18 ∧
      afterLoops.state.Applies 2 18 [⟨.function, 0, false⟩] (d.state.blockClose 18) := by
  have all := @brace_passes_one_closed_loop (loopsInRow ["\x7d", "\x7d"]) afterLoops
    [⟨.loop, 10, true⟩, ⟨.loop, 3, true⟩] [⟨.function, 0, false⟩] rfl (by decide) (by decide)
  obtain ⟨t, closes, leaves⟩ := all.2.1 (by decide)
  obtain ⟨d, runs, index, applies⟩ := all.2.2 (((loopsInRow ["\x7d", "\x7d"]).drop 17).take 1) _
    (List.take_append_drop 1 _).symm (by decide) (by decide)
  rw [index] at applies
  exact ⟨t, d, closes, leaves, runs, index, applies⟩

/-- The rule is broken where two loops lie on top of each other, which a program can bring about: the
function around them is then not closed by its brace. -/
theorem second_closed_loop_stays_open :
    ∃ u, ({ file := "t.dawn", atoms := loopsInRow ["\x7d"] } : CompilationUnit).analyze = .ok u ∧
      Cursor.Runs (loopsInRow ["\x7d"]) ⟨0, u.translator⟩ afterLoops ∧
      (∃ a, (loopsInRow ["\x7d"]).drop afterLoops.index = [a] ∧ a.IsBrace) ∧
      ¬ afterLoops.state.Applies 2 afterLoops.index [⟨.function, 0, false⟩]
        (afterLoops.state.blockClose afterLoops.index) ∧
      ∀ v, u.translate ≠ .ok v := by
  let f : SymbolTable := .ofList [("f", .function)]
  let fi : SymbolTable := .ofList [("f", .function), ("i", .int)]
  let head := "void f()\x7b"
  let line := "for(int i = 1; i <= 2; i++)\x7b"
  let u : CompilationUnit :=
    { file := "t.dawn", atoms := loopsInRow ["\x7d"], symbols := f, phase := .importScan }
  let around : Block := ⟨.function, 0, false⟩
  let c₁ : Cursor := ⟨3, ⟨f, ["void f();"], [head], [around], none⟩⟩
  let c₂ : Cursor := ⟨9, ⟨fi, ["void f();"], [head, line], [⟨.loop, 3, false⟩, around], none⟩⟩
  let c₃ : Cursor := ⟨10, ⟨fi, ["void f();"], [head, line], [⟨.loop, 3, true⟩, around], none⟩⟩
  let c₄ : Cursor := ⟨16, { afterLoops.state with
    blocks := [⟨.loop, 10, false⟩, ⟨.loop, 3, true⟩, around] }⟩
  have first : Cursor.Next u.atoms ⟨0, u.translator⟩ c₁ := by decide
  have second : Cursor.Next u.atoms c₁ c₂ := by decide
  have third : Cursor.Next u.atoms c₂ c₃ := by decide
  have fourth : Cursor.Next u.atoms c₃ c₄ := by decide
  have fifth : Cursor.Next u.atoms c₄ afterLoops := by decide
  have refused : u.translate.toOption.isNone = true := by decide
  refine ⟨u, rfl, ((((Relation.ReflTransGen.single first).tail second).tail third).tail fourth).tail fifth,
    ⟨_, rfl, by decide⟩, ?_, ?_⟩
  · intro applies
    have closes : afterLoops.state.blockClose afterLoops.index = .ok (1, { afterLoops.state with
      blocks := [⟨.loop, 3, true⟩, around]
      lines := afterLoops.state.lines ++ [closingLine] }) := by decide
    rw [closes] at applies
    cases applies with
    | loop isLoop leaves => exact absurd isLoop (by decide)
    | block notLoop leaves => exact absurd leaves.blocks (by decide)
  · intro v translated
    rw [translated] at refused
    cases refused

end DawnC
