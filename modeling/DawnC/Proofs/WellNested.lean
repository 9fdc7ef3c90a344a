import DawnC.Proofs.BlockStack

set_option autoImplicit false

namespace DawnC

def EndsIf (lines : List String) : Prop :=
  ∃ first line, Matches lines first (lines.length - 1) ∧ lines[first]? = some line ∧
    isIfLine line = true

/-- What holds of all emitted lines, and of the prototypes beside them. -/
structure WellNested (lines prototypes : List String) : Prop where
  /-- functions are opened where nothing is open -/
  functions : ∀ k line, lines[k]? = some line → isFunctionLine line = true →
    unmatched (lines.take k) = some []
  /-- an alternative follows the closing line of an `if` -/
  alternatives : ∀ k line, lines[k]? = some line → isElseLine line = true → EndsIf (lines.take k)
  /-- a bare `else` is followed by an `if` -/
  continued : ∀ k next, lines[k]? = some "else" → lines[k + 1]? = some next → isIfLine next = true
  declared : (lines.filter isVoidLine).map prototypeOf = prototypes

theorem WellNested.nil : WellNested [] [] :=
  ⟨fun _ _ found => by simp at found, fun _ _ found => by simp at found,
    fun _ _ found => by simp at found, rfl⟩

/-- Lines stay well nested when a line is added in a place where it may stand. -/
theorem WellNested.concat {lines prototypes : List String} (nested : WellNested lines prototypes)
    (line : String)
    (function : isFunctionLine line = true → unmatched lines = some [])
    (alternative : isElseLine line = true → EndsIf lines)
    (continues : lines.getLast? = some "else" → isIfLine line = true) :
    WellNested (lines ++ [line])
      (prototypes ++ if isVoidLine line then [prototypeOf line] else []) := by
  have old {k : Nat} (inside : k < lines.length) :
      (lines ++ [line])[k]? = lines[k]? ∧ (lines ++ [line]).take k = lines.take k :=
    ⟨List.getElem?_append_left inside, List.take_append_of_le_length (by omega)⟩
  have new {k : Nat} {text : String} (outside : ¬ k < lines.length)
      (found : (lines ++ [line])[k]? = some text) :
      text = line ∧ (lines ++ [line]).take k = lines := by
    have bound := (List.getElem?_eq_some_iff.mp found).1
    simp only [List.length_append, List.length_singleton] at bound
    have last : k = lines.length := by omega
    subst last
    simp only [List.getElem?_concat_length, Option.some.injEq] at found
    exact ⟨found.symm, List.take_left⟩
  refine ⟨?_, ?_, ?_, ?_⟩
  · intro k text found isFunction
    by_cases inside : k < lines.length
    · rw [(old inside).1] at found
      rw [(old inside).2]
      exact nested.functions k text found isFunction
    · obtain ⟨rfl, taken⟩ := new inside found
      rw [taken]
      exact function isFunction
  · intro k text found isElse
    by_cases inside : k < lines.length
    · rw [(old inside).1] at found
      rw [(old inside).2]
      exact nested.alternatives k text found isElse
    · obtain ⟨rfl, taken⟩ := new inside found
      rw [taken]
      exact alternative isElse
  · intro k next found following
    by_cases inside : k + 1 < lines.length
    · rw [(old (by omega)).1] at found
      rw [(old inside).1] at following
      exact nested.continued k next found following
    · obtain ⟨rfl, -⟩ := new inside following
      have bound := (List.getElem?_eq_some_iff.mp following).1
      simp only [List.length_append, List.length_singleton] at bound
      rw [(old (by omega)).1] at found
      apply continues
      rw [List.getLast?_eq_getElem?, show lines.length - 1 = k by omega, found]
  · rw [List.filter_append, List.map_append, nested.declared]
    congr 1
    cases voids : isVoidLine line with
    | false => simp [voids]
    | true => simp [voids]

theorem EndsIf.concat {lines : List String} {first : Nat} {outer : List Nat} {line : String}
    (innermost : unmatched lines = some (first :: outer)) (found : lines[first]? = some line)
    (isIf : isIfLine line = true) : EndsIf (lines ++ [closingLine]) := by
  have last : (lines ++ [closingLine]).length - 1 = lines.length := by simp
  refine ⟨first, line, ?_, ?_, isIf⟩
  · rw [last]
    exact ⟨List.getElem?_concat_length, outer, by rw [List.take_left, innermost]⟩
  · rw [List.getElem?_append_left (List.getElem?_eq_some_iff.mp found).1, found]

theorem isFunctionLine_of_isVoidLine {line : String} (isVoid : isVoidLine line = true) :
    isFunctionLine line = true := by
  rw [isFunctionLine, isVoid, Bool.or_true]

theorem not_isVoidLine {line : String} (opens : opensBlock line = false) : isVoidLine line = false := by
  simp [isVoidLine, opensWith, opens]

theorem not_isFunctionLine {line : String} (opens : opensBlock line = false) :
    isFunctionLine line = false := by
  rw [isFunctionLine, not_isVoidLine opens, Bool.or_false, decide_eq_false_iff_not]
  rintro rfl
  exact absurd opens (by decide)

theorem prototypeOf_append (signature : String) :
    prototypeOf (signature ++ "\x7b") = signature ++ ";" := by
  simp [prototypeOf, String.toList_append, String.ofList_append]

theorem heads_of_isElseLine {line : String} (opens : opensBlock line = true)
    (isElse : isElseLine line = true) : BlockKind.alternative.heads line = true := by
  simp only [isElseLine, Bool.or_eq_true, decide_eq_true_eq] at isElse
  rcases isElse with rfl | rfl
  · exact absurd opens (by decide)
  · decide

namespace WellNested

variable {lines prototypes : List String} {line : String}

theorem concat_plain (nested : WellNested lines prototypes) (complete : IsPlainLine line)
    (continues : lines.getLast? ≠ some "else") : WellNested (lines ++ [line]) prototypes := by
  have added := nested.concat line
    (fun isFunction => by rw [not_isFunctionLine complete.opensBlock] at isFunction; cases isFunction)
    (fun isElse => by
      simp only [isElseLine, Bool.or_eq_true, decide_eq_true_eq] at isElse
      exact (isElse.elim (complete.ne (by decide)) (complete.ne (by decide))).elim)
    (fun last => absurd last continues)
  rwa [not_isVoidLine complete.opensBlock, if_neg Bool.false_ne_true, List.append_nil] at added

theorem concat_closing (nested : WellNested lines prototypes)
    (continues : lines.getLast? ≠ some "else") :
    WellNested (lines ++ [closingLine]) prototypes := by
  have added := nested.concat closingLine (fun isFunction => absurd isFunction (by decide))
    (fun isElse => absurd isElse (by decide)) (fun last => absurd last continues)
  rwa [if_neg (by decide), List.append_nil] at added

/-- A line that opens anything but a function may stand where its kind of block may. -/
theorem concat_head {kind : BlockKind} (nested : WellNested lines prototypes)
    (heads : kind.heads line = true) (notFunction : kind ≠ .function)
    (alternative : kind = .alternative → EndsIf lines)
    (continues : lines.getLast? = some "else" → isIfLine line = true) :
    WellNested (lines ++ [line]) prototypes := by
  have other : isFunctionLine line = false := by
    cases isFunction : BlockKind.function.heads line with
    | false => exact isFunction
    | true => exact absurd (heads_unique heads isFunction) notFunction
  have notVoid : isVoidLine line = false := by
    cases isVoid : isVoidLine line with
    | false => rfl
    | true =>
        rw [isFunctionLine_of_isVoidLine isVoid] at other
        cases other
  have added := nested.concat line
    (fun isFunction => by rw [other] at isFunction; cases isFunction)
    (fun isElse => alternative (heads_unique heads
      (heads_of_isElseLine (opensBlock_of_heads heads) isElse)))
    continues
  rwa [notVoid, if_neg Bool.false_ne_true, List.append_nil] at added

theorem concat_function (nested : WellNested lines prototypes)
    (heads : BlockKind.function.heads line = true) (atTop : unmatched lines = some [])
    (continues : lines.getLast? ≠ some "else") :
    WellNested (lines ++ [line])
      (prototypes ++ if isVoidLine line then [prototypeOf line] else []) := by
  refine nested.concat line (fun _ => atTop) (fun isElse => ?_) (fun last => absurd last continues)
  have isAlternative := heads_of_isElseLine (opensBlock_of_heads heads) isElse
  cases heads_unique heads isAlternative

end WellNested

/-- The invariant of a run: the stack and the lines are in step, the lines are well nested, and what
the next atoms may find is right for them. -/
structure Nested (atoms : List Atom) (start c : Cursor) : Prop where
  mirrored : Mirrored atoms start c.state
  lines : WellNested c.state.lines c.state.prototypes
  /-- after a bare `else` the next construct is an `if` -/
  pending : c.state.lines.getLast? = some "else" →
    ∃ a rest, atoms.drop c.index = a :: rest ∧ a.is "if" = true
  /-- the two things that an `else` looks back at are about the line before it -/
  afterIf : (Cursor.before atoms c.index).any (·.is "\x7d") = true →
    c.state.closed = some .conditional → EndsIf c.state.lines
  /-- no variable is called like a brace -/
  noBrace : c.state.symbols.classOf "\x7d" ≠ .int

namespace Nested

variable {atoms : List Atom} {start c d : Cursor}

theorem noBrace_next {old new : SymbolTable} (noBrace : old.classOf "\x7d" ≠ .int)
    (grows : old.Grows IsVariableName new) : new.classOf "\x7d" ≠ .int := by
  rw [Ne, SymbolTable.classOf_eq (by decide)] at noBrace ⊢
  intro found
  rcases grows.adds _ _ found with kept | added
  · exact noBrace kept
  · exact absurd added.1 (by decide)

theorem unmatched_of_atTop (nested : Nested atoms start c) (atTop : c.state.blocks = []) :
    unmatched c.state.lines = some [] := by
  obtain ⟨stack, known, opened⟩ := nested.mirrored
  rw [atTop] at opened
  cases opened
  exact known

/-- A closing brace that closes an `if` leaves the lines ready for an `else`. -/
theorem afterIf_next (nested : Nested atoms start c) (step : Cursor.Next atoms c d)
    (noInclude : ∀ a ∈ atoms, a.isInclude = false)
    (brace : (Cursor.before atoms d.index).any (·.is "\x7d") = true)
    (closed : d.state.closed = some .conditional) : EndsIf d.state.lines := by
  obtain ⟨a, rest, n, here, index, effect⟩ := step
  have member : a ∈ atoms := List.mem_of_mem_drop (here ▸ List.mem_cons_self)
  obtain ⟨last, found, notWord⟩ := effect.last (noInclude a member) nested.noBrace
  rw [index, Cursor.before_add here effect.pos found, Option.any_some] at brace
  obtain ⟨b, outer, blocks, ⟨-, after⟩ | ⟨-, after⟩⟩ := effect.of_not_word (notWord brace)
  · rw [after] at closed
    cases closed
  · rw [after] at closed ⊢
    obtain ⟨stack, known, opened⟩ := nested.mirrored.settle
    rw [blocks] at opened
    cases opened with
    | cons here around =>
        obtain ⟨line, found, heads⟩ := here.heads
        have isIf : b.kind = .conditional := by
          simpa [Translator.closeBlock] using closed
        rw [isIf] at heads
        exact EndsIf.concat known found heads

theorem settle_lines (nested : Nested atoms start c) (continues : c.state.lines.getLast? ≠ some "else") :
    WellNested c.state.settle.lines c.state.settle.prototypes ∧
      c.state.settle.lines.getLast? ≠ some "else" := by
  rw [Translator.settle_prototypes]
  rcases c.state.settle_lines with same | closed
  · rw [same]
    exact ⟨nested.lines, continues⟩
  · rw [closed]
    exact ⟨nested.lines.concat_closing continues, by simp [closingLine]⟩

theorem getLast?_ne_else {lines : List String} {line : String} (opens : opensBlock line = true) :
    (lines ++ [line]).getLast? ≠ some "else" := by
  rw [List.getLast?_concat]
  intro same
  cases same
  exact absurd opens (by decide)

/-- The lines after a construct, and what is pending then. The construct after a bare `else` starts
with the word `if`, so it opens the block that is pending. -/
theorem lines_next (nested : Nested atoms start c) (step : Cursor.Next atoms c d) :
    WellNested d.state.lines d.state.prototypes ∧
      (d.state.lines.getLast? = some "else" →
        ∃ a rest, atoms.drop d.index = a :: rest ∧ a.is "if" = true) := by
  obtain ⟨a, rest, n, here, index, effect⟩ := step
  by_cases pending : c.state.lines.getLast? = some "else"
  · obtain ⟨a', rest', here', isIf⟩ := nested.pending pending
    rw [here] at here'
    cases here'
    obtain ⟨line, heads, after⟩ := effect.of_control.2.1 isIf
    rw [after]
    exact ⟨nested.lines.concat_head heads (by decide) (fun impossible => by cases impossible)
      (fun _ => heads), fun last => absurd last (getLast?_ne_else (opensBlock_of_heads heads))⟩
  · have shape := effect.shape
    generalize d.state = t' at shape
    cases shape with
    | plain complete =>
        refine ⟨nested.lines.concat_plain complete pending, fun last => ?_⟩
        simp only [Translator.emit_lines, List.getLast?_concat, Option.some.injEq] at last
        exact absurd last (complete.ne (by decide))
    | head control heads =>
        refine ⟨nested.lines.concat_head heads ?_ ?_ (fun last => absurd last pending),
          fun last => absurd last (getLast?_ne_else (opensBlock_of_heads heads))⟩
        · rcases control with rfl | rfl <;> decide
        · rintro rfl
          rcases control with same | same <;> cases same
    | @elseIf next tail afterBrace afterIf shape isIf single =>
        have added := nested.lines.concat "else" (fun isFunction => absurd isFunction (by decide))
          (fun _ => nested.afterIf afterBrace afterIf) (fun last => absurd last pending)
        rw [if_neg (by decide), List.append_nil] at added
        refine ⟨added, fun _ => ⟨next, tail, ?_, isIf⟩⟩
        rw [index, single, Cursor.drop_succ here, shape]
    | otherwise afterBrace afterIf =>
        have heads : BlockKind.alternative.heads "else\x7b" = true := by decide
        exact ⟨nested.lines.concat_head heads (by decide)
          (fun _ => nested.afterIf afterBrace afterIf) (fun last => absurd last pending),
          fun last => absurd last (getLast?_ne_else (by decide))⟩
    | mainFunction atTop =>
        have heads : BlockKind.function.heads "int main()\x7b" = true := by decide
        have added := nested.lines.concat_function heads (nested.unmatched_of_atTop atTop) pending
        rw [if_neg (by decide), List.append_nil] at added
        exact ⟨added, fun last => absurd last (getLast?_ne_else (by decide))⟩
    | @namedFunction symbols name parameters atTop =>
        have isVoid := isVoidLine_signature name parameters
        have heads : BlockKind.function.heads _ = true := isFunctionLine_of_isVoidLine isVoid
        have added := nested.lines.concat_function heads (nested.unmatched_of_atTop atTop) pending
        rw [if_pos isVoid, prototypeOf_append] at added
        exact ⟨added, fun last => absurd last (getLast?_ne_else (opensBlock_of_heads heads))⟩
    | thenEnd word blocks isLoop =>
        exact ⟨nested.lines.concat_closing pending, fun last => absurd last (by simp [closingLine])⟩
    | closeBrace notWord brace blocks isLoop =>
        obtain ⟨lines, last⟩ := nested.settle_lines pending
        exact ⟨lines, fun last' => absurd last' last⟩
    | closeBlock notWord brace blocks notLoop =>
        obtain ⟨lines, last⟩ := nested.settle_lines pending
        exact ⟨lines.concat_closing last, fun last' => absurd last' (by simp [closingLine])⟩
    | directive => exact ⟨nested.lines, fun last => absurd last pending⟩

theorem next (nested : Nested atoms start c) (runs : Cursor.Runs atoms start c)
    (step : Cursor.Next atoms c d) (noInclude : ∀ a ∈ atoms, a.isInclude = false) :
    Nested atoms start d := by
  obtain ⟨lines, pending⟩ := nested.lines_next step
  refine ⟨nested.mirrored.next runs step, lines, pending, nested.afterIf_next step noInclude, ?_⟩
  obtain ⟨a, rest, n, here, index, effect⟩ := step
  exact noBrace_next nested.noBrace effect.grows

/-- The invariant holds all along a run. -/
theorem runs (initial : Nested atoms start start) (noInclude : ∀ a ∈ atoms, a.isInclude = false)
    (reached : Cursor.Runs atoms start c) : Nested atoms start c := by
  induction reached with
  | refl => exact initial
  | tail before step ih => exact ih.next before step noInclude

end Nested

theorem Nested.start {file : String} {atoms : List Atom} {u : CompilationUnit}
    (analyzed : ({ file, atoms } : CompilationUnit).analyze = .ok u) :
    Nested atoms ⟨0, u.translator⟩ ⟨0, u.translator⟩ := by
  obtain ⟨-, lines, prototypes, grows⟩ := analyze_eq_ok analyzed
  refine ⟨.fresh lines rfl, ?_, ?_, ?_, ?_⟩
  · simp only [CompilationUnit.translator, lines, prototypes]
    exact .nil
  · intro last
    simp [CompilationUnit.translator, lines] at last
  · intro brace
    simp [Cursor.before_zero] at brace
  · rw [Ne, SymbolTable.classOf_eq (by decide)]
    intro found
    rcases grows.adds _ _ found with kept | added
    · cases kept
    · cases added

/-- Closing what is left of a finished run adds closing lines only. -/
theorem Nested.closeRemaining {atoms : List Atom} {start c : Cursor} {t : Translator}
    (nested : Nested atoms start c) (used : atoms.drop c.index = [])
    (closed : c.state.closeRemaining c.state.blocks = .ok t) :
    unmatched t.lines = some [] ∧ WellNested t.lines t.prototypes ∧
      t.lines.getLast? ≠ some "else" := by
  have complete : c.state.lines.getLast? ≠ some "else" := by
    intro last
    obtain ⟨a, rest, here, -⟩ := nested.pending last
    rw [used] at here
    cases here
  obtain ⟨⟨mirrored, lines, last⟩, empty⟩ := Translator.closeRemaining_induction
    (P := fun t => Mirrored atoms start t ∧ WellNested t.lines t.prototypes ∧
      t.lines.getLast? ≠ some "else")
    (fun t b outer blocks _ holds => ⟨holds.1.closeBlock blocks,
      holds.2.1.concat_closing holds.2.2, by simp [closingLine]⟩)
    ⟨nested.mirrored, nested.lines, complete⟩ closed
  obtain ⟨stack, known, opened⟩ := mirrored
  rw [empty] at opened
  cases opened
  exact ⟨known, lines, last⟩

theorem count_closing_le {lines : List String} {stack : List Nat}
    (whole : unmatched lines = some stack) (k : Nat) :
    (lines.take k).count closingLine ≤ (lines.take k).countP opensBlock := by
  obtain ⟨before, known⟩ := unmatched_take whole k
  rw [countP_opensBlock known]
  exact Nat.le_add_right _ _

/-- Emitted code is well nested. Between any two constructs, also of a run that fails later, the open
blocks are the unmatched opening lines, and no closing line stood where nothing was open; the lines
of a translated program leave nothing open, keep functions at the top, `else` right after the block
of an `if` and a bare `else` right before an `if`, and declare each function that they define. -/
theorem emitted_lines_nest (file : String) (atoms : List Atom)
    (noInclude : ∀ a ∈ atoms, a.isInclude = false) (u : CompilationUnit)
    (analyzed : ({ file, atoms } : CompilationUnit).analyze = .ok u) :
    (∀ c, Cursor.Runs atoms ⟨0, u.translator⟩ c →
      Mirrored atoms ⟨0, u.translator⟩ c.state ∧
      ∀ k, (c.state.lines.take k).count closingLine ≤ (c.state.lines.take k).countP opensBlock) ∧
    ∀ v, u.translate = .ok v →
      unmatched v.lines = some [] ∧
      (∀ k line, v.lines[k]? = some line → isFunctionLine line = true →
        unmatched (v.lines.take k) = some []) ∧
      (∀ k line, v.lines[k]? = some line → isElseLine line = true → EndsIf (v.lines.take k)) ∧
      (∀ k, v.lines[k]? = some "else" →
        ∃ next, v.lines[k + 1]? = some next ∧ isIfLine next = true) ∧
      (v.lines.filter isVoidLine).map prototypeOf = v.prototypes := by
  have same := (analyze_eq_ok analyzed).1
  constructor
  · intro c runs
    have nested := (Nested.start analyzed).runs noInclude runs
    obtain ⟨stack, known, -⟩ := nested.mirrored
    exact ⟨nested.mirrored, count_closing_le known⟩
  · intro v translated
    obtain ⟨c, t, runs, used, closed, rfl⟩ := CompilationUnit.translate_eq_ok.mp translated
    rw [same] at runs used
    obtain ⟨known, lines, last⟩ :=
      ((Nested.start analyzed).runs noInclude runs).closeRemaining used closed
    refine ⟨known, lines.functions, lines.alternatives, ?_, lines.declared⟩
    intro k found
    have inside : k + 1 < t.lines.length := by
      have bound := (List.getElem?_eq_some_iff.mp found).1
      by_contra outside
      apply last
      rw [List.getLast?_eq_getElem?]
      have here : t.lines.length - 1 = k := by
        change k < t.lines.length at bound
        omega
      rw [here]
      exact found
    exact ⟨t.lines[k + 1], List.getElem?_eq_getElem inside,
      lines.continued k _ found (List.getElem?_eq_getElem inside)⟩

/-- A function whose body is a conditional with an alternative in it: the `else` stands after the
closing line of the `if` in the function, two blocks deep. -/
theorem emitted_lines_nest_alternative :
    let atom (kind : AtomKind) (text : String) (stmt : Nat) : Atom :=
      { text, kind, file := "a.dawn", line := 1, stmt }
    let atoms := [atom .word "function" 1, atom .word "f" 1, atom .word "int" 1, atom .word "n" 1,
      atom .punct ")" 1, atom .word "if" 2, atom .word "n" 2, atom .punct "\x7d" 3,
      atom .word "else" 4, atom .punct "\x7d" 5, atom .punct "\x7d" 6]
    let lines := ["void f(int n)\x7b", "if(n)\x7b", "\x7d", "else\x7b", "\x7d", "\x7d"]
    ∃ u, ({ file := "a.dawn", atoms } : CompilationUnit).analyze = .ok u ∧
      ∃ v, u.translate = .ok v ∧ v.lines = lines ∧
        unmatched lines = some [] ∧ EndsIf (lines.take 3) ∧
        (lines.filter isVoidLine).map prototypeOf = v.prototypes := by
  intro atom atoms lines
  have accepted : ∃ u, ({ file := "a.dawn", atoms } : CompilationUnit).analyze = .ok u ∧
      ∃ v, u.translate = .ok v ∧ v.lines = lines :=
    ⟨_, rfl, toOption_map_eq_some.mp (by decide)⟩
  obtain ⟨u, analyzed, v, translated, emitted⟩ := accepted
  obtain ⟨closed, -, alternatives, -, declared⟩ :=
    (emitted_lines_nest "a.dawn" atoms (by decide) u analyzed).2 v translated
  rw [emitted] at closed alternatives declared
  exact ⟨u, analyzed, v, translated, emitted, closed, alternatives 3 _ rfl (by decide), declared⟩

end DawnC
