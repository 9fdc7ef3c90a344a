import DawnC.Proofs.CallByName
import DawnC.Proofs.Headers

set_option autoImplicit false

namespace DawnC

namespace Translator

theorem toList_loopLine (name low high : String) : (loopLine name low high).toList =
    "for(int".toList ++ ' ' :: (name.toList ++ ' ' :: ("=".toList ++ ' ' :: ((low.toList ++ [';']) ++ ' ' ::
      (name.toList ++ ' ' :: ("<=".toList ++ ' ' :: ((high.toList ++ [';']) ++ ' ' ::
        (name.toList ++ "++)\x7b".toList))))))) := by
  have start : "for(int ".toList = "for(int".toList ++ [' '] := by decide
  have equals : " = ".toList = ' ' :: ("=".toList ++ [' ']) := by decide
  have stop : "; ".toList = [';', ' '] := by decide
  have least : " <= ".toList = ' ' :: ("<=".toList ++ [' ']) := by decide
  unfold loopLine
  simp only [String.toList_append]
  rw [start, equals, stop, least]
  -- the texts between are as good as variables from here on
  generalize "for(int".toList = first, "=".toList = second, "<=".toList = third, "++)\x7b".toList = fourth
  simp only [List.append_assoc, List.cons_append, List.nil_append]

theorem cut_loopLine {name low high : String} (nameWord : ' ' ∉ name.toList)
    (lowWord : ' ' ∉ low.toList) (highWord : ' ' ∉ high.toList) :
    Text.cut ' ' (loopLine name low high).toList =
      ["for(int".toList, name.toList, "=".toList, low.toList ++ [';'], name.toList, "<=".toList,
        high.toList ++ [';'], name.toList ++ "++)\x7b".toList] := by
  have ended {text : List Char} (word : ' ' ∉ text) : ' ' ∉ text ++ [';'] := by
    simpa using word
  have last : ' ' ∉ name.toList ++ "++)\x7b".toList := by
    rw [List.mem_append, not_or]
    exact ⟨nameWord, by decide⟩
  rw [toList_loopLine, Text.cut_append (by decide), Text.cut_append nameWord, Text.cut_append (by decide),
    Text.cut_append (ended lowWord), Text.cut_append nameWord, Text.cut_append (by decide),
    Text.cut_append (ended highWord), Text.cut_self last]

theorem count_blank_loopLine (name low high : String) :
    (loopLine name low high).toList.count ' ' =
      7 + 3 * name.toList.count ' ' + low.toList.count ' ' + high.toList.count ' ' := by
  have start : "for(int".toList.count ' ' = 0 := by decide
  have equals : "=".toList.count ' ' = 0 := by decide
  have upTo : "<=".toList.count ' ' = 0 := by decide
  have stop : "++)\x7b".toList.count ' ' = 0 := by decide
  rw [toList_loopLine]
  simp only [List.count_append, List.count_cons_self, start, equals, upTo, stop]
  rw [show [';'].count ' ' = 0 by decide]
  omega

/-- A line shows the variable and the bounds of the loop that it heads. -/
theorem loopLine_inj {name low high name' low' high' : String} (nameWord : ' ' ∉ name.toList)
    (lowWord : ' ' ∉ low.toList) (highWord : ' ' ∉ high.toList)
    (same : loopLine name' low' high' = loopLine name low high) :
    name' = name ∧ low' = low ∧ high' = high := by
  have blanks := congrArg (fun line => line.toList.count ' ') same
  simp only [count_blank_loopLine, List.count_eq_zero_of_not_mem nameWord,
    List.count_eq_zero_of_not_mem lowWord, List.count_eq_zero_of_not_mem highWord] at blanks
  -- both lines have as many blanks, and in the one all of them stand between the words
  have nameWord' : ' ' ∉ name'.toList := List.count_eq_zero.mp (by omega)
  have lowWord' : ' ' ∉ low'.toList := List.count_eq_zero.mp (by omega)
  have highWord' : ' ' ∉ high'.toList := List.count_eq_zero.mp (by omega)
  have words := congrArg (fun line => Text.cut ' ' line.toList) same
  simp only [cut_loopLine nameWord lowWord highWord, cut_loopLine nameWord' lowWord' highWord',
    List.cons.injEq, List.append_cancel_right_eq, String.toList_inj] at words
  exact ⟨words.2.1, words.2.2.2.1, words.2.2.2.2.2.2.1⟩

end Translator

theorem blank_not_mem {text : String} (word : isWordText text = true) : ' ' ∉ text.toList := by
  intro member
  rw [isWordText, Bool.and_eq_true, List.all_eq_true] at word
  exact isWordChar_plain (word.2 ' ' member) (by decide)

theorem not_isDigit_of_isStart {c : Char} (isStart : isIdentifier.isStart c = true) :
    c.isDigit = false := by
  simp only [isIdentifier.isStart, Bool.or_eq_true, decide_eq_true_eq] at isStart
  rcases isStart with rfl | alpha
  · decide
  · change (decide ('A'.val ≤ c.val ∧ c.val ≤ 'Z'.val) ||
      decide ('a'.val ≤ c.val) && decide (c.val ≤ 'z'.val)) = true at alpha
    change (decide ('0'.val ≤ c.val) && decide (c.val ≤ '9'.val)) = false
    simp only [Bool.or_eq_true, Bool.and_eq_true, decide_eq_true_eq, UInt32.le_iff_toNat_le,
      Bool.and_eq_false_iff, decide_eq_false_iff_not] at alpha ⊢
    have nine : '9'.val.toNat = 57 := rfl
    have upper : 'A'.val.toNat = 65 := rfl
    have lower : 'a'.val.toNat = 97 := rfl
    omega

theorem not_isInteger {text : String} (isName : isIdentifier text = true) : isInteger text = false := by
  unfold isIdentifier at isName
  split at isName
  · cases isName
  · rename_i c rest chars
    rw [Bool.and_eq_true] at isName
    have notDigit := not_isDigit_of_isStart isName.1
    rw [isInteger, chars]
    split
    · rfl
    · rename_i same
      cases same
      exact absurd isName.1 (by decide)
    · rw [List.all_cons, notDigit, Bool.false_and]

namespace Cursor

variable {atoms : List Atom} {start e : Cursor}

/-- Every line that a run adds, at its place: a closing brace, or what a construct writes when the lines
before it are there. -/
theorem Runs.writer (runs : Runs atoms start e) {k : Nat} {line : String}
    (there : e.state.lines[k]? = some line) (new : start.state.lines.length ≤ k) :
    line = closingLine ∨ ∃ c d a rest parts, Runs atoms start c ∧ Next atoms c d ∧
      atoms.drop c.index = a :: rest ∧ c.state.Writes a rest parts ∧
      d.state.lines = c.state.lines ++ [lineOf parts] ∧ line = lineOf parts ∧
      c.state.lines.length = k ∧ c.state.lines <+: e.state.lines := by
  induction runs with
  | refl =>
      have outside := (List.getElem?_eq_some_iff.mp there).1
      omega
  | @tail c d runs next ih =>
      by_cases old : k < c.state.lines.length
      · obtain ⟨after, whole⟩ := next.lines
        rw [← whole, List.getElem?_append_left old] at there
        refine (ih there).imp_right ?_
        rintro ⟨c', d', a, rest, parts, runs', next', here, writes, lines, shape, place, before⟩
        exact ⟨c', d', a, rest, parts, runs', next', here, writes, lines, shape, place,
          before.trans next.lines⟩
      · have step := next
        obtain ⟨a, rest, n, here, index, effect⟩ := next
        rcases effect.writes with ⟨closing, lines, all⟩ | ⟨parts, writes, lines⟩
        · rw [lines, List.getElem?_append_right (by omega)] at there
          exact Or.inl (all line (List.mem_of_getElem? there))
        · rw [lines, List.getElem?_append_right (by omega), List.getElem?_singleton] at there
          split at there
          · rename_i place
            refine Or.inr ⟨c, d, a, rest, parts, runs, step, here, writes, lines,
              (Option.some.inj there).symm, by omega, ?_⟩
            exact step.lines
          · cases there

/-- Only a `for` writes a line that starts like a loop. -/
theorem Emits.of_for {file : String} {lines : List Bytes} {a : Atom} {parts : List LinePart}
    (emits : Emits (lex file lines) start a parts)
    (starts : "for(".toList <+: (lineOf parts).toList) : a.IsWord "for" := by
  have keywords : ∀ entry ∈ lineStarts, (entry.2.toList <+: "for".toList ++ ['('] ∨
      "for".toList ++ ['('] <+: entry.2.toList) → entry.1 = "for" := by decide
  obtain ⟨-, ⟨entry, listed, isWord, either⟩ | ⟨-, free, -⟩⟩ :=
    emits.of_start (show "for".toList.all isPlainChar = true by decide)
      (show isPlainChar '(' = false by decide) (by decide) starts
  · rw [← keywords entry listed either]
    exact isWord
  · exact absurd free (by decide)

end Cursor

open Cursor Translator in
/-- A line that heads a loop is written for a `for` with that variable and those bounds, when the lines
before it are there. -/
theorem forLoop_of_line {file : String} {lines : List Bytes} {u v : CompilationUnit}
    (analyzed : ({ file, atoms := lex file lines } : CompilationUnit).analyze = .ok u)
    (translated : u.translate = .ok v) {k : Nat} {name low high : String}
    (there : v.lines[k]? = some (loopLine name low high)) :
    ∃ c a name' start low' stop high' tail, Runs (lex file lines) ⟨0, u.translator⟩ c ∧
      (lex file lines).drop c.index = a :: name' :: start :: low' :: stop :: high' :: tail ∧
      a.IsWord "for" ∧ start.is "from" = true ∧ stop.is "to" = true ∧
      (name'.text = name ∧ low'.text = low ∧ high'.text = high) ∧ name'.IsName ∧
      low'.IsBound c.state.symbols ∧ high'.IsBound c.state.symbols ∧ c.state.lines = v.lines.take k := by
  obtain ⟨sameAtoms, fresh, -, -⟩ := analyze_eq_ok analyzed
  obtain ⟨e, t, runs, -, closed, rfl⟩ := CompilationUnit.translate_eq_ok.mp translated
  rw [sameAtoms] at runs
  have opens := opensWith_iff.mp (isLoopLine_loopLine name low high)
  have notClosing : loopLine name low high ≠ closingLine := by
    intro same
    rw [same] at opens
    exact absurd opens.2 (by decide)
  -- what is closed at the end heads no loop
  have inside : e.state.lines[k]? = some (loopLine name low high) := by
    have there : t.lines[k]? = some (loopLine name low high) := there
    rw [closeRemaining_lines closed] at there
    by_cases before : k < e.state.lines.length
    · rwa [List.getElem?_append_left before] at there
    · rw [List.getElem?_append_right (by omega)] at there
      exact absurd (List.eq_of_mem_replicate (List.mem_of_getElem? there)) notClosing
  have first : (⟨0, u.translator⟩ : Cursor).state.lines.length ≤ k := by
    simp [CompilationUnit.translator, fresh]
  obtain ⟨c, d, a, rest, parts, reached, next, here, writes, emitted, shape, place, kept⟩ :=
    (runs.writer inside first).resolve_left notClosing
  have emits : Emits (lex file lines) ⟨0, u.translator⟩ a parts :=
    ⟨c, d, rest, reached, next, here, writes, emitted⟩
  have word := emits.of_for (by rw [← shape]; exact opens.1)
  obtain ⟨n, -, effect⟩ := next.effect here
  obtain ⟨name', start, low', stop, high', tail, rfl, isName, isFrom, lowBound, isTo, highBound, line⟩ :=
    effect.of_forLoop word
  have same : loopLine name low high = loopLine name'.text low'.text high'.text := by
    rw [emitted, ← shape] at line
    simpa using line
  have accounts := reached.accounts (accounts_of_analyze analyzed)
  have bound {b : Atom} (isBound : b.IsBound c.state.symbols) : ' ' ∉ b.text.toList := by
    rcases isBound.2 with isNumber | isInt
    · exact blank_not_mem (isWordText_of_isInteger isNumber)
    · exact blank_not_mem (isWordText_of_isIdentifier ((accounts.classOf_eq rfl).mp isInt).1)
  obtain ⟨rfl, rfl, rfl⟩ := loopLine_inj (blank_not_mem (isWordText_of_isIdentifier isName.2))
    (bound lowBound) (bound highBound) same
  have before : c.state.lines = t.lines.take k := by
    rw [closeRemaining_lines closed, ← place]
    exact List.prefix_iff_eq_take.mp (kept.trans (List.prefix_append _ _))
  exact ⟨c, a, name', start, low', stop, high', tail, reached, here, word, isFrom, isTo, ⟨rfl, rfl, rfl⟩,
    isName, lowBound, highBound, before⟩

open Cursor Translator in
/-- The bounds of a loop. A line that heads a loop is written for a `for` with that variable and those
bounds. Each bound is a number or a variable that an earlier line declares as int, and neither is the
loop's own variable if no earlier line declares it. -/
theorem loop_bounds_around (file : String) (lines : List Bytes) (u v : CompilationUnit)
    (analyzed : ({ file, atoms := lex file lines } : CompilationUnit).analyze = .ok u)
    (translated : u.translate = .ok v) (k : Nat) (name low high : String)
    (there : v.lines[k]? = some (loopLine name low high)) :
    (∃ c a name' start low' stop high' tail, Runs (lex file lines) ⟨0, u.translator⟩ c ∧
      (lex file lines).drop c.index = a :: name' :: start :: low' :: stop :: high' :: tail ∧
      a.IsWord "for" ∧ start.is "from" = true ∧ stop.is "to" = true ∧
      name'.text = name ∧ low'.text = low ∧ high'.text = high) ∧
    (∀ bound ∈ [low, high], isInteger bound = true ∨
      ∃ line ∈ v.lines.take k, Declares bound .int line) ∧
    ((∀ line ∈ v.lines.take k, ¬ Declares name .int line) → low ≠ name ∧ high ≠ name) := by
  obtain ⟨c, a, name', start, low', stop, high', tail, reached, here, word, isFrom, isTo, ⟨rfl, rfl, rfl⟩,
    isName, lowBound, highBound, before⟩ := forLoop_of_line analyzed translated there
  have accounts := reached.accounts (accounts_of_analyze analyzed)
  have declared {b : Atom} (isBound : b.IsBound c.state.symbols) :
      isInteger b.text = true ∨ ∃ line ∈ v.lines.take k, Declares b.text .int line := by
    rw [← before]
    exact isBound.2.imp_right fun isInt => ((accounts.classOf_eq rfl).mp isInt).2
  have other {b : Atom} (isBound : b.IsBound c.state.symbols)
      (undeclared : ∀ line ∈ v.lines.take k, ¬ Declares name'.text .int line) : b.text ≠ name'.text := by
    intro same
    rcases declared isBound with isNumber | ⟨line, member, declares⟩
    · rw [same, not_isInteger isName.2] at isNumber
      cases isNumber
    · rw [same] at declares
      exact undeclared line member declares
  refine ⟨⟨c, a, name', start, low', stop, high', tail, reached, here, word, isFrom, isTo, rfl, rfl, rfl⟩,
    ?_, fun undeclared => ⟨other lowBound undeclared, other highBound undeclared⟩⟩
  simp only [List.mem_cons, List.not_mem_nil, or_false]
  rintro bound (rfl | rfl)
  · exact declared lowBound
  · exact declared highBound

open Translator in
/-- A loop inside another, from the variable of the outer one to a number. -/
theorem loop_bounds_around_nested :
    let lines := ["int n = 4", "for i from 1 to n", "for j from i to 9", "then end", "then end"]
    let atoms := lex "a.dawn" (lines.map Utf8.encode)
    ∃ u v, ({ file := "a.dawn", atoms } : CompilationUnit).analyze = .ok u ∧ u.translate = .ok v ∧
      v.lines[2]? = some (loopLine "j" "i" "9") ∧
      ∃ line ∈ v.lines.take 2, Declares "i" .int line := by
  intro lines atoms
  let u : CompilationUnit := { file := "a.dawn", atoms, phase := .importScan }
  obtain ⟨v, translated, there⟩ := toOption_map_eq_some.mp
    (by decide : (u.translate.toOption.map fun v => v.lines[2]?) = some (some (loopLine "j" "i" "9")))
  obtain ⟨-, declared, -⟩ := loop_bounds_around "a.dawn" (lines.map Utf8.encode) u v rfl translated
    2 "j" "i" "9" there
  exact ⟨u, v, rfl, translated, there, (declared "i" (by decide)).resolve_left (by decide)⟩

open Translator in
/-- A variable is the upper bound of a loop that has a variable of the same name: the source counts up to
three, and the loop in C compares its own variable with itself. -/
theorem loop_variable_captures_bound :
    let lines := ["int i = 3", "for i from 1 to i", "then end"]
    let atoms := lex "t.dawn" (lines.map Utf8.encode)
    ∃ u v, ({ file := "t.dawn", atoms } : CompilationUnit).analyze = .ok u ∧ u.translate = .ok v ∧
      v.lines = ["int i = 3;", loopLine "i" "1" "i", "\x7d"] := by
  intro lines atoms
  let u : CompilationUnit := { file := "t.dawn", atoms, phase := .importScan }
  obtain ⟨v, translated, emitted⟩ := toOption_map_eq_some.mp
    (by decide : (u.translate.toOption.map fun v => v.lines) =
      some ["int i = 3;", loopLine "i" "1" "i", "\x7d"])
  exact ⟨u, v, rfl, translated, emitted⟩

end DawnC
