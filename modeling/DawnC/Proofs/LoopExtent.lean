import DawnC.Atom.Lexer
import DawnC.Proofs.BlockStack

set_option autoImplicit false

namespace DawnC

/-- The atom ends an innermost loop that its brace did not. -/
def Atom.EndsLoop (a : Atom) : Prop := a.IsWord "then" ∨ a.kind ≠ .word ∧ a.is "\x7d" = true

namespace Translator

variable {t t' : Translator} {previous : Option Atom} {i n : Nat} {a : Atom} {rest : List Atom}

theorem settle_blocks (t : Translator) : t.settle.blocks <:+ t.blocks := by
  cases blocks : t.blocks with
  | nil => simp only [settle, blocks, List.suffix_refl]
  | cons b outer =>
      by_cases closed : b.isClosedLoop = true
      · rw [settle_of_closed blocks closed]
        exact List.suffix_cons b outer
      · simp only [settle_of_open blocks closed, blocks, List.suffix_refl]

theorem Shape.lines (shape : Shape t previous i a rest n t') : t.lines <+: t'.lines := by
  have settled : t.lines <+: t.settle.lines := by
    rcases t.settle_lines with same | closed
    · simp only [same, List.prefix_refl]
    · rw [closed]
      exact List.prefix_append _ _
  cases shape with
  | closeBrace notWord brace blocks isLoop => exact settled
  | closeBlock notWord brace blocks notLoop => exact settled.trans (List.prefix_append _ _)
  | directive => exact List.prefix_refl _
  | _ => exact List.prefix_append _ _

/-- A block that a construct leaves open was open before, or starts at the construct. -/
theorem Shape.openers (shape : Shape t previous i a rest n t') :
    ∀ b ∈ t'.blocks, b.opener = i ∨ b.opener ∈ t.blocks.map Block.opener := by
  have kept {b : Block} (old : b ∈ t.blocks) : b.opener ∈ t.blocks.map Block.opener :=
    List.mem_map_of_mem old
  have pushed {kind : BlockKind} (b : Block)
      (member : b ∈ ({ kind, opener := i } : Block) :: t.blocks) :
      b.opener = i ∨ b.opener ∈ t.blocks.map Block.opener := by
    rcases List.mem_cons.mp member with rfl | old
    · exact Or.inl rfl
    · exact Or.inr (kept old)
  have settled {b : Block} {outer : List Block} (blocks : t.settle.blocks = b :: outer) {x : Block}
      (member : x ∈ b :: outer) : x ∈ t.blocks :=
    t.settle_blocks.subset (blocks ▸ member)
  cases shape with
  | plain complete => exact fun b old => Or.inr (kept old)
  | head control heads => exact pushed
  | elseIf afterBrace afterIf shape isIf single => exact fun b old => Or.inr (kept old)
  | otherwise afterBrace afterIf => exact pushed
  | mainFunction atTop => exact pushed
  | namedFunction atTop => exact pushed
  | thenEnd word blocks isLoop =>
      exact fun b old => Or.inr (kept (blocks ▸ List.mem_cons_of_mem _ old))
  | @closeBrace b outer notWord brace blocks isLoop =>
      intro x member
      rcases List.mem_cons.mp member with rfl | old
      · have here : b ∈ t.blocks := settled blocks List.mem_cons_self
        exact Or.inr (kept (b := b) here)
      · exact Or.inr (kept (settled blocks (List.mem_cons_of_mem _ old)))
  | closeBlock notWord brace blocks notLoop =>
      exact fun b old => Or.inr (kept (settled blocks (List.mem_cons_of_mem _ old)))
  | directive => exact fun b old => Or.inr (kept old)

end Translator

namespace Cursor

variable {atoms : List Atom} {start c d : Cursor}

theorem Next.lines (step : Next atoms c d) : c.state.lines <+: d.state.lines := by
  obtain ⟨a, rest, n, here, index, effect⟩ := step
  exact effect.shape.lines

theorem Runs.lines (runs : Runs atoms c d) : c.state.lines <+: d.state.lines := by
  induction runs with
  | refl => exact List.prefix_refl _
  | tail _ step ih => exact ih.trans step.lines

theorem Runs.length_le (runs : Runs atoms c d) : c.state.lines.length ≤ d.state.lines.length :=
  (Runs.lines runs).length_le

theorem Runs.openers (runs : Runs atoms start c) (fresh : start.state.blocks = []) :
    ∀ b ∈ c.state.blocks, b.opener < c.index := by
  induction runs with
  | refl =>
      rw [fresh]
      exact fun b member => absurd member List.not_mem_nil
  | tail _ step ih =>
      intro b member
      have forward := step.index_lt
      obtain ⟨a, rest, n, here, index, effect⟩ := step
      rcases effect.shape.openers b member with opener | old
      · omega
      · obtain ⟨b', member', same⟩ := List.mem_map.mp old
        have earlier := ih b' member'
        omega

/-- A block that is gone does not come back. -/
theorem Runs.gone {i : Nat} (runs : Runs atoms c d) (past : i < c.index)
    (gone : ∀ b ∈ c.state.blocks, b.opener ≠ i) : ∀ b ∈ d.state.blocks, b.opener ≠ i := by
  induction runs with
  | refl => exact gone
  | tail before step ih =>
      have forward := Runs.index_le before
      obtain ⟨a, rest, n, here, index, effect⟩ := step
      intro b member
      rcases effect.shape.openers b member with opener | old
      · omega
      · obtain ⟨b', member', same⟩ := List.mem_map.mp old
        exact same ▸ ih b' member'

end Cursor

/-- The loop that starts at `head` is open, with the blocks `inner` in it; around it is what was open
at `head`. -/
structure OpenLoop (head : Cursor) (inner : List Block) (b : Block) (t : Translator) : Prop where
  blocks : t.blocks = inner ++ b :: head.state.blocks
  isLoop : b.kind = .loop
  opener : b.opener = head.index
  inside : ∀ x ∈ inner, head.index < x.opener

/-- What stands at the cursor ends the loop that starts at `head`: an atom that finds the loop
innermost, or the end of the program. -/
def LoopEnds (atoms : List Atom) (head c : Cursor) : Prop :=
  atoms.drop c.index = [] ∨
    (∃ b, c.state.blocks = b :: head.state.blocks ∧ b.opener = head.index) ∧
      ∃ a rest, atoms.drop c.index = a :: rest ∧ a.EndsLoop

namespace OpenLoop

variable {atoms : List Atom} {head c d : Cursor} {inner : List Block} {b : Block} {t : Translator}

theorem cons_inner {x : Block} (loop : OpenLoop head (x :: inner) b t) {t' : Translator}
    (blocks : t'.blocks = inner ++ b :: head.state.blocks) : OpenLoop head inner b t' :=
  ⟨blocks, loop.isLoop, loop.opener, fun y member => loop.inside y (List.mem_cons_of_mem _ member)⟩

theorem push (loop : OpenLoop head inner b t) {x : Block} (later : head.index < x.opener)
    {t' : Translator} (blocks : t'.blocks = x :: t.blocks) : OpenLoop head (x :: inner) b t' := by
  refine ⟨by rw [blocks, loop.blocks, List.cons_append], loop.isLoop, loop.opener, ?_⟩
  intro y member
  rcases List.mem_cons.mp member with rfl | old
  · exact later
  · exact loop.inside y old

/-- Closing what a brace closes on the way leaves the loop open, or closes it and nothing else. -/
theorem settle (loop : OpenLoop head inner b t) :
    (∃ inner', OpenLoop head inner' b t.settle) ∨
      inner = [] ∧ t.settle.blocks = head.state.blocks := by
  cases inner with
  | nil =>
      by_cases closed : b.isClosedLoop = true
      · rw [Translator.settle_of_closed loop.blocks closed]
        exact Or.inr ⟨rfl, rfl⟩
      · rw [Translator.settle_of_open loop.blocks closed]
        exact Or.inl ⟨[], loop⟩
  | cons x inner =>
      by_cases closed : x.isClosedLoop = true
      · rw [Translator.settle_of_closed loop.blocks closed]
        exact Or.inl ⟨inner, loop.cons_inner rfl⟩
      · rw [Translator.settle_of_open loop.blocks closed]
        exact Or.inl ⟨x :: inner, loop⟩

theorem closeBrace (loop : OpenLoop head inner b t) {x : Block} {outer : List Block}
    (blocks : t.blocks = x :: outer) :
    ∃ inner' b', OpenLoop head inner' b' (t.closeBrace x outer) ∧
      (b.braceClosed = true → b'.braceClosed = true) := by
  have whole := loop.blocks
  rw [blocks] at whole
  cases inner with
  | nil =>
      cases whole
      exact ⟨[], { b with braceClosed := true }, ⟨rfl, loop.isLoop, loop.opener, loop.inside⟩,
        fun _ => rfl⟩
  | cons y inner =>
      cases whole
      refine ⟨{ x with braceClosed := true } :: inner, b,
        ⟨rfl, loop.isLoop, loop.opener, fun y member => ?_⟩, fun closed => closed⟩
      rcases List.mem_cons.mp member with rfl | old
      · exact loop.inside x List.mem_cons_self
      · exact loop.inside y (List.mem_cons_of_mem _ old)

/-- A construct leaves an open loop open, unless it ends it; then only blocks around it are left. -/
theorem next (loop : OpenLoop head inner b c.state) (after : head.index < c.index)
    (step : Cursor.Next atoms c d) :
    (∃ inner' b', OpenLoop head inner' b' d.state ∧
      (b.braceClosed = true → b'.braceClosed = true)) ∨
    LoopEnds atoms head c ∧ ∀ x ∈ d.state.blocks, x.opener ∈ head.state.blocks.map Block.opener := by
  obtain ⟨a, rest, n, here, index, effect⟩ := step
  have shape := effect.shape
  generalize d.state = t' at shape
  have kept (same : t'.blocks = c.state.blocks) : ∃ inner' b', OpenLoop head inner' b' t' ∧
      (b.braceClosed = true → b'.braceClosed = true) :=
    ⟨inner, b, ⟨same.trans loop.blocks, loop.isLoop, loop.opener, loop.inside⟩, fun closed => closed⟩
  have pushed (kind : BlockKind)
      (blocks : t'.blocks = { kind, opener := c.index } :: c.state.blocks) :
      ∃ inner' b', OpenLoop head inner' b' t' ∧ (b.braceClosed = true → b'.braceClosed = true) :=
    ⟨_, b, loop.push after blocks, fun closed => closed⟩
  have ends (empty : inner = []) (endsLoop : a.EndsLoop) : LoopEnds atoms head c := by
    subst empty
    exact Or.inr ⟨⟨b, loop.blocks, loop.opener⟩, a, rest, here, endsLoop⟩
  cases shape with
  | plain complete => exact Or.inl (kept rfl)
  | head control heads => exact Or.inl (pushed _ rfl)
  | elseIf afterBrace afterIf shape isIf single => exact Or.inl (kept rfl)
  | otherwise afterBrace afterIf => exact Or.inl (pushed _ rfl)
  | mainFunction atTop => exact Or.inl (pushed _ rfl)
  | namedFunction atTop => exact Or.inl (pushed _ rfl)
  | directive => exact Or.inl (kept rfl)
  | thenEnd word blocks isLoop =>
      have whole := loop.blocks
      rw [blocks] at whole
      cases inner with
      | nil =>
          cases whole
          exact Or.inr ⟨ends rfl (Or.inl word), fun x member => List.mem_map_of_mem member⟩
      | cons x inner =>
          cases whole
          exact Or.inl ⟨inner, b, loop.cons_inner rfl, fun closed => closed⟩
  | closeBrace notWord brace blocks isLoop =>
      rcases loop.settle with ⟨inner', loop'⟩ | ⟨empty, settled⟩
      · exact Or.inl (loop'.closeBrace blocks)
      · refine Or.inr ⟨ends empty (Or.inr ⟨notWord, brace⟩), ?_⟩
        rw [settled] at blocks
        rw [blocks]
        intro x member
        rcases List.mem_cons.mp member with rfl | old
        · exact List.mem_cons_self
        · exact List.mem_cons_of_mem _ (List.mem_map_of_mem old)
  | closeBlock notWord brace blocks notLoop =>
      rcases loop.settle with ⟨inner', loop'⟩ | ⟨empty, settled⟩
      · have whole := loop'.blocks
        rw [blocks] at whole
        cases inner' with
        | nil =>
            cases whole
            exact absurd loop'.isLoop notLoop
        | cons x inner' =>
            cases whole
            exact Or.inl ⟨inner', b, loop'.cons_inner rfl, fun closed => closed⟩
      · refine Or.inr ⟨ends empty (Or.inr ⟨notWord, brace⟩), ?_⟩
        rw [settled] at blocks
        rw [blocks]
        exact fun x old => List.mem_cons_of_mem _ (List.mem_map_of_mem old)

/-- Where the loop is innermost and its brace was closed, what ends it emits its closing line. -/
theorem closes (loop : OpenLoop head [] b c.state) (closed : b.braceClosed = true)
    (step : Cursor.Next atoms c d) {a : Atom} {rest : List Atom}
    (here : atoms.drop c.index = a :: rest) (endsLoop : a.EndsLoop) :
    c.state.lines ++ [closingLine] <+: d.state.lines := by
  obtain ⟨a', rest', n, here', index, effect⟩ := step
  rw [here] at here'
  cases here'
  rcases endsLoop with word | ⟨notWord, -⟩
  · obtain ⟨x, outer, blocks, isLoop, after⟩ := effect.of_control.2.2 word.is
    rw [after]
    exact List.prefix_refl _
  · have isClosed : b.isClosedLoop = true := by simp [Block.isClosedLoop, loop.isLoop, closed]
    have settled := Translator.settle_of_closed loop.blocks isClosed
    obtain ⟨x, outer, blocks, ⟨-, after⟩ | ⟨-, after⟩⟩ := effect.of_not_word notWord
    · rw [after, settled]
      exact List.prefix_refl _
    · rw [after, settled]
      exact List.prefix_append _ _

end OpenLoop

/-- A loop of a run whose brace is closed: the `for` stands at `head`, and the construct between
`brace` and `after` is the closing brace that the loop is marked with. -/
structure BraceEnded (atoms : List Atom) (start head body brace after : Cursor) : Prop where
  reached : Cursor.Runs atoms start head
  isFor : ∃ a rest, atoms.drop head.index = a :: rest ∧ a.IsWord "for"
  opens : Cursor.Next atoms head body
  inside : Cursor.Runs atoms body brace
  closes : Cursor.Next atoms brace after
  marks : ∃ outer, brace.state.settle.blocks = ⟨.loop, head.index, false⟩ :: outer ∧
    after.state.blocks = ⟨.loop, head.index, true⟩ :: outer

namespace BraceEnded

variable {atoms : List Atom} {start head body brace after : Cursor}

theorem reached_body (loop : BraceEnded atoms start head body brace after) :
    Cursor.Runs atoms start body := loop.reached.tail loop.opens

theorem reached_brace (loop : BraceEnded atoms start head body brace after) :
    Cursor.Runs atoms start brace := loop.reached_body.trans loop.inside

theorem reached_after (loop : BraceEnded atoms start head body brace after) :
    Cursor.Runs atoms start after := loop.reached_brace.tail loop.closes

theorem opened (loop : BraceEnded atoms start head body brace after) :
    body.state.lines.length = head.state.lines.length + 1 ∧
      OpenLoop head [] ⟨.loop, head.index, false⟩ body.state := by
  obtain ⟨a, rest, here, word⟩ := loop.isFor
  obtain ⟨a', rest', n, here', index, effect⟩ := loop.opens
  rw [here] at here'
  cases here'
  obtain ⟨symbols, line, heads, opened⟩ := effect.of_control.1 word.is
  rw [opened]
  exact ⟨by simp, rfl, rfl, rfl, fun x member => absurd member List.not_mem_nil⟩

/-- The loop is open, or gone for good. -/
theorem open_or_gone (loop : BraceEnded atoms start head body brace after)
    (fresh : start.state.blocks = []) {c : Cursor} (runs : Cursor.Runs atoms body c) :
    (∃ inner b, OpenLoop head inner b c.state) ∨ ∀ x ∈ c.state.blocks, x.opener ≠ head.index := by
  have past : head.index < body.index := loop.opens.index_lt
  induction runs with
  | refl => exact Or.inl ⟨_, _, loop.opened.2⟩
  | @tail c d before step ih =>
      have forward := Cursor.Runs.index_le before
      have later : head.index < c.index := by omega
      rcases ih with ⟨inner, b, opened⟩ | gone
      · rcases opened.next later step with ⟨inner', b', opened', -⟩ | ⟨-, around⟩
        · exact Or.inl ⟨inner', b', opened'⟩
        · refine Or.inr fun x member same => ?_
          obtain ⟨y, member', opener⟩ := List.mem_map.mp (around x member)
          have earlier := Cursor.Runs.openers loop.reached fresh y member'
          omega
      · exact Or.inr (Cursor.Runs.gone (.single step) later gone)

/-- After its brace the loop is innermost and known to be closed. -/
theorem closed_after (loop : BraceEnded atoms start head body brace after)
    (fresh : start.state.blocks = []) :
    OpenLoop head [] ⟨.loop, head.index, true⟩ after.state := by
  obtain ⟨outer, -, marked⟩ := loop.marks
  rcases loop.open_or_gone fresh (loop.inside.tail loop.closes) with ⟨inner, b, opened⟩ | gone
  · have whole := opened.blocks
    rw [marked] at whole
    cases inner with
    | nil =>
        cases whole
        exact ⟨marked, rfl, rfl, opened.inside⟩
    | cons x inner =>
        cases whole
        exact absurd (opened.inside _ List.mem_cons_self) (lt_irrefl _)
  · exact absurd rfl (gone _ (marked ▸ List.mem_cons_self))

end BraceEnded

/-- A closed loop ends somewhere before the run does, and until then it stays open. -/
theorem OpenLoop.exists_end {atoms : List Atom} {head c last : Cursor} {inner : List Block}
    {b : Block} (loop : OpenLoop head inner b c.state) (closed : b.braceClosed = true)
    (after : head.index < c.index) (runs : Cursor.Runs atoms c last)
    (used : atoms.drop last.index = []) :
    ∃ close inner' b', Cursor.Runs atoms c close ∧ Cursor.Runs atoms close last ∧
      OpenLoop head inner' b' close.state ∧ b'.braceClosed = true ∧ LoopEnds atoms head close ∧
      ∀ d, Cursor.Runs atoms c d → LoopEnds atoms head d → Cursor.Runs atoms close d := by
  induction runs using Relation.ReflTransGen.head_induction_on generalizing inner b with
  | refl =>
      exact ⟨last, inner, b, .refl, .refl, loop, closed, Or.inl used, fun d runs _ => runs⟩
  | @head c d step rest ih =>
      by_cases ends : LoopEnds atoms head c
      · exact ⟨c, inner, b, .refl, .head step rest, loop, closed, ends, fun d runs _ => runs⟩
      · rcases loop.next after step with ⟨inner', b', loop', stays⟩ | ⟨ends', -⟩
        · obtain ⟨close, inner'', b'', runs, later, opened, marked, here, first⟩ :=
            ih loop' (stays closed) (Nat.lt_trans after step.index_lt)
          refine ⟨close, inner'', b'', .head step runs, later, opened, marked, here, ?_⟩
          intro e reached atEnd
          rcases Relation.ReflTransGen.cases_head reached with rfl | ⟨d', step', reached'⟩
          · exact absurd atEnd ends
          · cases Cursor.rightUnique_next atoms step step'
            exact first e reached' atEnd
        · exact absurd ends' ends

/-- Closing what is left adds a closing line for each open block. -/
theorem Translator.closeRemaining_lines {t t' : Translator}
    (closed : t.closeRemaining t.blocks = .ok t') :
    t'.lines = t.lines ++ List.replicate t.blocks.length closingLine := by
  obtain ⟨⟨k, count, lines⟩, empty⟩ := closeRemaining_induction
    (P := fun x => ∃ k, k + x.blocks.length = t.blocks.length ∧
      x.lines = t.lines ++ List.replicate k closingLine)
    (fun x b outer blocks _ holds => by
      obtain ⟨k, count, lines⟩ := holds
      rw [blocks, List.length_cons] at count
      refine ⟨k + 1, by simp only [closeBlock]; omega, ?_⟩
      rw [closeBlock_lines, lines, List.replicate_succ', List.append_assoc])
    ⟨0, by simp, by simp⟩ closed
  rw [empty, List.length_nil, Nat.add_zero] at count
  rw [lines, count]

/-- In the stack of open lines the loop's line is where the loop is in the stack of blocks. -/
theorem OpenLoop.position {atoms : List Atom} {start head : Cursor} {inner : List Block} {b : Block}
    {t : Translator} (loop : OpenLoop head inner b t) (reached : Cursor.Runs atoms start head)
    (mirrored : Mirrored atoms start t) :
    ∃ stack outer, unmatched t.lines = some stack ∧ inner.length ≤ stack.length ∧
      stack.drop inner.length = head.state.lines.length :: outer := by
  obtain ⟨stack, known, opened⟩ := mirrored
  have sizes := opened.length_eq
  have around := List.forall₂_drop inner.length opened
  rw [loop.blocks, List.drop_left] at around
  rw [loop.blocks, List.length_append] at sizes
  cases left : stack.drop inner.length with
  | nil =>
      rw [left] at around
      cases around
  | cons k outer =>
      rw [left] at around
      cases around with
      | cons here others =>
          obtain ⟨c, d, runs, step, index, length, -⟩ := here.origin
          cases Cursor.Runs.eq_of_index runs reached (index.trans loop.opener)
          exact ⟨stack, outer, known, by omega, by rw [left, length]⟩

/-- The closing line of a loop that ends at `close`: the next line there, or one of the lines that
close what is left at the end. -/
theorem OpenLoop.matches_end {atoms : List Atom} {start head close last : Cursor}
    {inner : List Block} {b : Block} {t : Translator} (loop : OpenLoop head inner b close.state)
    (marked : b.braceClosed = true) (ends : LoopEnds atoms head close)
    (reached : Cursor.Runs atoms start head) (mirrored : Mirrored atoms start close.state)
    (rest : Cursor.Runs atoms close last) (used : atoms.drop last.index = [])
    (closed : last.state.closeRemaining last.state.blocks = .ok t) :
    ∃ line, Matches t.lines head.state.lines.length line ∧ close.state.lines.length ≤ line ∧
      (atoms.drop close.index ≠ [] → line = close.state.lines.length) := by
  obtain ⟨stack, outer, known, enough, position⟩ := loop.position reached mirrored
  have finished := Translator.closeRemaining_lines closed
  rcases ends with used' | ⟨⟨b', innermost, -⟩, a, tail, here, endsLoop⟩
  · cases Cursor.Runs.eq_of_used rest used'
    have innermost : unmatched (close.state.lines ++ List.replicate inner.length closingLine) =
        some (head.state.lines.length :: outer) := by
      rw [unmatched_replicate known enough, position]
    refine ⟨_, .of_unmatched innermost ?_, by simp, fun more => absurd used' more⟩
    rw [finished, loop.blocks, List.length_append, List.length_cons, List.append_assoc,
      List.prefix_append_right_inj, ← List.replicate_succ', List.prefix_replicate_iff]
    simp
  · have empty : inner = [] := by
      have sizes := congrArg List.length (loop.blocks.symm.trans innermost)
      simp only [List.length_append, List.length_cons] at sizes
      exact List.length_eq_zero_iff.mp (by omega)
    subst empty
    rcases Relation.ReflTransGen.cases_head rest with rfl | ⟨d, step, later⟩
    · rw [used] at here
      cases here
    · have emitted := loop.closes marked step here endsLoop
      have whole : close.state.lines ++ [closingLine] <+: t.lines := by
        rw [finished]
        exact (emitted.trans (Cursor.Runs.lines later)).trans (List.prefix_append _ _)
      rw [List.length_nil, List.drop_zero] at position
      rw [position] at known
      exact ⟨_, .of_unmatched known whole, Nat.le_refl _, fun _ => rfl⟩

/-- The loop that starts at `head` and whose brace is closed before `after` ends at `close`, and the
line `last` closes it. -/
structure LoopExtent (atoms : List Atom) (start head after : Cursor) (lines : List String)
    (close : Cursor) (last : Nat) : Prop where
  reached : Cursor.Runs atoms after close
  ends : LoopEnds atoms head close
  /-- `close` is the first place where the loop can end -/
  first : ∀ c, Cursor.Runs atoms after c → LoopEnds atoms head c → Cursor.Runs atoms close c
  closing : ∀ line, Matches lines head.state.lines.length line ↔ line = last
  /-- the lines in the loop are those of the constructs between its `for` and its end -/
  encloses : ∀ c d line, Cursor.Runs atoms start c → Cursor.Next atoms c d →
    c.state.lines.length ≤ line → line < d.state.lines.length →
    (head.state.lines.length < line ∧ line < last ↔ head.index < c.index ∧ c.index < close.index)

/-- A loop whose brace was closed ends at the first place after the brace where a `then end` or a
further brace finds it innermost, or at the end of the program. It encloses the lines of all
constructs up to there, and no others. -/
theorem brace_closed_loop_extent (file : String) (source : List Bytes) (u v : CompilationUnit)
    (analyzed : ({ file, atoms := lex file source } : CompilationUnit).analyze = .ok u)
    (translated : u.translate = .ok v) (head body brace after : Cursor)
    (loop : BraceEnded (lex file source) ⟨0, u.translator⟩ head body brace after) :
    ∃ close last,
      LoopExtent (lex file source) ⟨0, u.translator⟩ head after v.lines close last := by
  obtain ⟨same, lines, -, -⟩ := analyze_eq_ok analyzed
  obtain ⟨finish, t, runs, used, closed, rfl⟩ := CompilationUnit.translate_eq_ok.mp translated
  rw [same] at runs used
  have fresh : (⟨0, u.translator⟩ : Cursor).state.blocks = [] := rfl
  have past : head.index < after.index :=
    Nat.lt_of_lt_of_le loop.opens.index_lt
      (Cursor.Runs.index_le (loop.inside.tail loop.closes))
  have toFinish := Cursor.Runs.to_end loop.reached_after runs used
  obtain ⟨close, inner, b, toClose, rest, opened, marked, ends, first⟩ :=
    (loop.closed_after fresh).exists_end rfl past toFinish used
  have reached := loop.reached_after.trans toClose
  have mirrored : Mirrored (lex file source) ⟨0, u.translator⟩ close.state :=
    (Mirrored.fresh lines rfl).runs reached
  obtain ⟨last, matching, later, closesNext⟩ :=
    opened.matches_end marked ends loop.reached mirrored rest used closed
  refine ⟨close, last, toClose, ends, first, ?_, ?_⟩
  · intro line
    constructor
    · exact fun found => found.unique matching
    · rintro rfl
      exact matching
  · intro c d line toC step low high
    have opens := loop.opened.1
    have order : head.index < close.index := Nat.lt_of_lt_of_le past (Cursor.Runs.index_le toClose)
    constructor
    · rintro ⟨afterHead, beforeLast⟩
      constructor
      · by_contra notAfter
        rcases Nat.lt_or_eq_of_le (Nat.not_lt.mp notAfter) with before | here
        · have bound := Cursor.Runs.length_le (Cursor.Runs.of_next toC step loop.reached before)
          omega
        · cases Cursor.Runs.eq_of_index toC loop.reached here
          cases Cursor.rightUnique_next _ step loop.opens
          omega
      · by_contra notBefore
        have beyond := Cursor.Runs.length_le
          (Cursor.Runs.of_index_le reached toC (Nat.not_lt.mp notBefore))
        by_cases atEnd : (lex file source).drop close.index = []
        · cases Cursor.Runs.eq_of_used (Cursor.Runs.of_index_le reached (toC.tail step)
            (Nat.le_trans (Nat.not_lt.mp notBefore) (Nat.le_of_lt step.index_lt))) atEnd
          exact notBefore step.index_lt
        · rw [closesNext atEnd] at beforeLast
          omega
    · rintro ⟨afterHead, beforeClose⟩
      have enters := Cursor.Runs.length_le
        (Cursor.Runs.of_next loop.reached loop.opens toC afterHead)
      have bound := Cursor.Runs.length_le (Cursor.Runs.of_next toC step reached beforeClose)
      omega

/-- The brace is not where a loop ends: the statement after it is enclosed all the same. -/
theorem statement_after_brace_enclosed :
    let atoms := lex "a.dawn" (["for i from 1 to 2 \x7b", "\x7d", "print(\"x\")"].map Utf8.encode)
    ∃ u, ({ file := "a.dawn", atoms } : CompilationUnit).analyze = .ok u ∧
      ∃ v, u.translate = .ok v ∧
      ∃ head body brace after d,
        BraceEnded atoms ⟨0, u.translator⟩ head body brace after ∧
        Cursor.Runs atoms ⟨0, u.translator⟩ after ∧ Cursor.Next atoms after d ∧
        brace.index < after.index ∧ Matches v.lines head.state.lines.length 2 ∧
        after.state.lines.length ≤ 1 ∧ 1 < d.state.lines.length ∧
        head.state.lines.length < 1 := by
  intro atoms
  let line := "for(int i = 1; i <= 2; i++)\x7b"
  let i : SymbolTable := .ofList [("i", .int)]
  let u : CompilationUnit :=
    { file := "a.dawn", atoms, headers := ["<stdio.h>"], phase := .importScan }
  let body : Cursor := ⟨6, ⟨i, [], [line], [⟨.loop, 0, false⟩], none⟩⟩
  let after : Cursor := ⟨7, ⟨i, [], [line], [⟨.loop, 0, true⟩], none⟩⟩
  let d : Cursor := ⟨10, ⟨i, [], [line, "printf(\"x\");"], [⟨.loop, 0, true⟩], none⟩⟩
  have loop : BraceEnded atoms ⟨0, u.translator⟩ ⟨0, u.translator⟩ body body after :=
    ⟨.refl, ⟨_, _, rfl, rfl, rfl⟩, by decide, .refl, by decide, [], rfl, rfl⟩
  obtain ⟨v, translated, emitted⟩ :
      ∃ v, u.translate = .ok v ∧ v.lines = [line, "printf(\"x\");", "\x7d"] :=
    toOption_map_eq_some.mp (by decide)
  refine ⟨u, rfl, v, translated, _, body, body, after, d, loop, loop.reached_after, by decide,
    by decide, ?_, by decide, by decide, by decide⟩
  rw [emitted]
  exact ⟨rfl, [], by decide⟩

/-- With a `then end` further on the loop extends up to it, past a statement after the brace, and the
statement after `then end` is outside. -/
theorem brace_closed_loop_extent_then_end :
    let atoms := lex "a.dawn" (["for i from 1 to 2 \x7b", "\x7d", "print(\"x\")", "then end",
      "print(\"y\")"].map Utf8.encode)
    ∃ u, ({ file := "a.dawn", atoms } : CompilationUnit).analyze = .ok u ∧
      ∃ v, u.translate = .ok v ∧
      ∃ head body brace after close,
        BraceEnded atoms ⟨0, u.translator⟩ head body brace after ∧
        LoopExtent atoms ⟨0, u.translator⟩ head after v.lines close 2 ∧
        after.index < close.index ∧ close.index < 12 := by
  intro atoms
  let line := "for(int i = 1; i <= 2; i++)\x7b"
  let i : SymbolTable := .ofList [("i", .int)]
  let u : CompilationUnit :=
    { file := "a.dawn", atoms, headers := ["<stdio.h>"], phase := .importScan }
  let body : Cursor := ⟨6, ⟨i, [], [line], [⟨.loop, 0, false⟩], none⟩⟩
  let after : Cursor := ⟨7, ⟨i, [], [line], [⟨.loop, 0, true⟩], none⟩⟩
  let d : Cursor := ⟨10, ⟨i, [], [line, "printf(\"x\");"], [⟨.loop, 0, true⟩], none⟩⟩
  have loop : BraceEnded atoms ⟨0, u.translator⟩ ⟨0, u.translator⟩ body body after :=
    ⟨.refl, ⟨_, _, rfl, rfl, rfl⟩, by decide, .refl, by decide, [], rfl, rfl⟩
  obtain ⟨v, translated, emitted⟩ :
      ∃ v, u.translate = .ok v ∧
        v.lines = [line, "printf(\"x\");", "\x7d", "printf(\"y\");"] :=
    toOption_map_eq_some.mp (by decide)
  obtain ⟨close, last, extent⟩ :=
    brace_closed_loop_extent "a.dawn" _ u v rfl translated _ body body after loop
  have closing : Matches v.lines 0 2 := by
    rw [emitted]
    exact ⟨rfl, [], by decide⟩
  obtain rfl := (extent.closing 2).mp closing
  have step : Cursor.Next atoms after d := by decide
  have inside := (extent.encloses after d 1 loop.reached_after step (by decide) (by decide)).mp
    (by decide)
  have ends : LoopEnds atoms ⟨0, u.translator⟩ d :=
    Or.inr ⟨⟨_, rfl, rfl⟩, _, _, rfl, Or.inl ⟨rfl, rfl⟩⟩
  have before := Cursor.Runs.index_le (extent.first d (.single step) ends)
  exact ⟨u, rfl, v, translated, _, body, body, after, close, loop, extent, inside.2,
    Nat.lt_of_le_of_lt before (by decide)⟩

end DawnC
