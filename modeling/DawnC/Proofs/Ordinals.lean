import DawnC.Proofs.Spelling

set_option autoImplicit false

namespace DawnC

theorem endsStatement_eq_false_iff (p : Char × Bool) : endsStatement p = false ↔
    (p.2 = false → p.1 ≠ ';' ∧ p.1 ≠ '\x7b') ∧ (p.2 = false → p.1 ≠ '\x7d') := by
  cases inside : p.2 with
  | true => simp [endsStatement, inside]
  | false => simp [endsStatement, inside, and_assoc]

theorem endsStatement_of_joins {p : Char × Bool} (joined : joins p = true) :
    endsStatement p = false := by
  rw [endsStatement_eq_false_iff]
  rcases (joins_iff p).mp joined with literal | ⟨notSeparator, notPunctuation⟩
  · simp [literal]
  · refine ⟨fun _ => ⟨?_, ?_⟩, fun _ => ?_⟩
    all_goals
      intro same
      rw [same] at notSeparator notPunctuation
    · cases notSeparator
    · cases notSeparator
    · cases notPunctuation

theorem statementEnds_cons (p : Char × Bool) (rest : List (Char × Bool)) :
    statementEnds (p :: rest) = statementEnds [p] + statementEnds rest :=
  statementEnds_append [p] rest

theorem statementEnds_eq_zero {chars : List (Char × Bool)} :
    statementEnds chars = 0 ↔ ∀ p ∈ chars, endsStatement p = false := by
  simp [statementEnds, List.countP_eq_zero]

namespace SpellsFrom

variable {stmt : Int} {chars : List (Char × Bool)}

/-- An atom stands where the statements before it add up to its ordinal. -/
theorem split {front back : List Atom} {a : Atom} (spelt : SpellsFrom stmt chars (front ++ a :: back)) :
    ∃ before after, chars = before ++ (marked a.text.toList ++ after) ∧ Spells before front ∧
      a.stmt = stmt + statementEnds before ∧
      SpellsFrom (a.stmt + statementEnds (marked a.text.toList)) after back := by
  generalize whole : front ++ a :: back = atoms at spelt
  induction spelt generalizing front with
  | nil => exact absurd whole (by simp)
  | @separator stmt c rest atoms separator _ ih =>
      obtain ⟨before, after, rfl, read, number, later⟩ := ih whole
      refine ⟨(c, false) :: before, after, rfl, .separator separator read, ?_, later⟩
      rw [number, statementEnds_cons _ before, Int.natCast_add, Int.add_assoc]
  | @punctuation stmt c rest b atoms punctuation text kind number next ih =>
      have mark : marked b.text.toList = [(c, false)] := by
        rw [text, String.toList_ofList, marked_singleton punctuation]
      cases front with
      | nil =>
          obtain ⟨rfl, rfl⟩ := List.cons.inj whole
          refine ⟨[], rest, by rw [mark]; rfl, .nil, by simp [number], ?_⟩
          rw [mark, number]
          exact next
      | cons b front =>
          obtain ⟨rfl, same⟩ := List.cons.inj whole
          obtain ⟨before, after, rfl, read, count, later⟩ := ih same
          refine ⟨(c, false) :: before, after, rfl, .punctuation punctuation text kind read, ?_, later⟩
          rw [count, statementEnds_cons _ before, Int.natCast_add, Int.add_assoc]
  | @lexeme stmt run rest b atoms nonempty all stop text kind number next ih =>
      have none : statementEnds run = 0 :=
        statementEnds_eq_zero.mpr fun p member => endsStatement_of_joins (all p member)
      cases front with
      | nil =>
          obtain ⟨rfl, rfl⟩ := List.cons.inj whole
          refine ⟨[], rest, by rw [text]; rfl, .nil, by simp [number], ?_⟩
          rw [text, none, number]
          exact (Int.add_zero stmt).symm ▸ next
      | cons b front =>
          obtain ⟨rfl, same⟩ := List.cons.inj whole
          obtain ⟨before, after, rfl, read, count, later⟩ := ih same
          refine ⟨run ++ before, after, by rw [List.append_assoc],
            .lexeme nonempty all ?_ text kind read, ?_, later⟩
          · intro p first
            refine stop p ?_
            rw [List.head?_append, Option.mem_def.mp first]
            rfl
          · rw [count, statementEnds_append, none, Nat.zero_add]

end SpellsFrom

namespace Spells

variable {chars : List (Char × Bool)} {atoms : List Atom}

/-- A character of punctuation stands outside literals if and only if it is an atom. -/
theorem mem_iff_is (spelt : Spells chars atoms) {c : Char} (punctuation : isPunctuation c = true) :
    (c, false) ∈ chars ↔ ∃ a ∈ atoms, a.is (String.ofList [c]) = true := by
  induction spelt with
  | nil => simp
  | @separator d rest atoms separator _ ih =>
      have other : c ≠ d := by
        rintro rfl
        rw [not_isPunctuation separator] at punctuation
        cases punctuation
      simp only [List.mem_cons, Prod.mk.injEq, and_true, ih, other, false_or]
  | @punctuation d rest a atoms _ text kind _ ih =>
      have here : a.is (String.ofList [c]) = true ↔ c = d := by
        simp [Atom.is, text, kind, eq_comm]
      simp only [List.mem_cons, exists_eq_or_imp, Prod.mk.injEq, and_true, ih, here]
  | @lexeme run rest a atoms _ all _ text _ _ ih =>
      have ends : joins (c, false) = false := by simp [joins, punctuation]
      have outside : (c, false) ∉ run := by
        intro member
        rw [all _ member] at ends
        cases ends
      have other : ¬ a.is (String.ofList [c]) = true := by
        intro same
        simp only [Atom.is, Bool.and_eq_true, decide_eq_true_eq] at same
        rw [same.2, String.toList_ofList, marked_singleton punctuation] at text
        exact outside (text ▸ List.mem_cons_self)
      simp only [List.mem_append, List.mem_cons, exists_eq_or_imp, ih, outside, other, false_or,
        Bool.false_eq_true]

/-- No statement ends in the characters if they have no `;` and no opening brace outside literals and
none of their atoms is a closing one. -/
theorem unbroken_iff (spelt : Spells chars atoms) : statementEnds chars = 0 ↔
    (∀ p ∈ chars, p.2 = false → p.1 ≠ ';' ∧ p.1 ≠ '\x7b') ∧ ∀ a ∈ atoms, a.is "\x7d" = false := by
  have close : (∀ p ∈ chars, p.2 = false → p.1 ≠ '\x7d') ↔ ∀ a ∈ atoms, a.is "\x7d" = false := by
    have found := not_congr (spelt.mem_iff_is (c := '\x7d') rfl)
    rw [show String.ofList ['\x7d'] = "\x7d" from rfl] at found
    simp only [not_exists, not_and, Bool.not_eq_true] at found
    rw [← found]
    exact ⟨fun all member => all _ member rfl rfl, fun absent p member outside same =>
      absent (by rw [← same, ← outside]; exact member)⟩
  rw [statementEnds_eq_zero, ← close, ← forall₂_and]
  exact forall₂_congr fun p _ => endsStatement_eq_false_iff p

theorem starts {a : Atom} (spelt : Spells (marked a.text.toList) [a]) (rest : List (Char × Bool)) :
    ∃ p ∈ (marked a.text.toList ++ rest).head?, (p.2 || !isSeparator p.1) = true := by
  rcases spelt.atom_cases List.mem_cons_self with ⟨-, c, punctuation, text⟩ | ⟨-, filled, all⟩
  · rw [text, String.toList_ofList, marked_singleton punctuation]
    exact ⟨_, rfl, by simp [not_isSeparator punctuation]⟩
  · cases chars : marked a.text.toList with
    | nil => exact absurd (String.toList_eq_nil_iff.mp (marked_inj chars)) filled
    | cons p more =>
        rw [chars] at all
        refine ⟨p, rfl, ?_⟩
        rcases (joins_iff p).mp (all p List.mem_cons_self) with literal | ⟨notSeparator, -⟩
        · rw [literal, Bool.true_or]
        · rw [notSeparator, Bool.not_false, Bool.or_true]

/-- Where an atom follows, the characters that spell the atoms before it are determined. -/
theorem append_inj {first first' rest rest' : List (Char × Bool)} (spelt : Spells first atoms)
    (spelt' : Spells first' atoms) (same : first ++ rest = first' ++ rest')
    (starts : ∃ p ∈ rest.head?, (p.2 || !isSeparator p.1) = true)
    (starts' : ∃ p ∈ rest'.head?, (p.2 || !isSeparator p.1) = true) : first = first' ∧ rest = rest' := by
  -- more characters, the first of them of an atom, would spell more text
  have short {first more rest : List (Char × Bool)} (spelt : Spells first atoms)
      (spelt' : Spells (first ++ more) atoms)
      (starts : ∃ p ∈ (more ++ rest).head?, (p.2 || !isSeparator p.1) = true) : more = [] := by
    have texts := spelt.texts.symm.trans spelt'.texts
    rw [List.filter_append, List.map_append, List.self_eq_append_right, List.map_eq_nil_iff,
      List.filter_eq_nil_iff] at texts
    cases more with
    | nil => rfl
    | cons p more =>
        obtain ⟨q, found, kept⟩ := starts
        cases found
        exact absurd kept (texts p List.mem_cons_self)
  rcases List.append_eq_append_iff.mp same with ⟨more, rfl, rfl⟩ | ⟨more, rfl, rfl⟩
  · obtain rfl := short spelt spelt' starts
    exact ⟨(List.append_nil _).symm, rfl⟩
  · obtain rfl := short spelt' spelt starts'
    exact ⟨List.append_nil _, rfl⟩

end Spells

/-- Two atoms of a line, and what stands between them. -/
theorem SpellsFrom.between {stmt : Int} {chars : List (Char × Bool)} {front middle back : List Atom}
    {a b : Atom} (spelt : SpellsFrom stmt chars (front ++ a :: (middle ++ b :: back))) :
    ∃ before gap after,
      chars = before ++ (marked a.text.toList ++ (gap ++ (marked b.text.toList ++ after))) ∧
      Spells before front ∧ Spells gap middle ∧ a.stmt ≤ b.stmt ∧
      (a.stmt = b.stmt ↔ (∀ p ∈ gap, p.2 = false → p.1 ≠ ';' ∧ p.1 ≠ '\x7b') ∧
        ∀ c ∈ a :: middle, c.is "\x7d" = false) := by
  have alone : Spells (marked a.text.toList) [a] := spelt.spells.single (by simp)
  obtain ⟨before, rest, rfl, read, -, later⟩ := spelt.split
  obtain ⟨gap, after, rfl, readGap, number, -⟩ := later.split
  refine ⟨before, gap, after, rfl, read, readGap, by omega, ?_⟩
  have equal : a.stmt = b.stmt ↔
      statementEnds (marked a.text.toList) = 0 ∧ statementEnds gap = 0 := by omega
  have plain : ∀ p ∈ marked a.text.toList, p.2 = false → p.1 ≠ ';' ∧ p.1 ≠ '\x7b' := by
    intro p member outside
    rcases alone.atom_cases List.mem_cons_self with ⟨-, c, punctuation, text⟩ | ⟨-, -, all⟩
    · rw [text, String.toList_ofList, marked_singleton punctuation, List.mem_singleton] at member
      subst member
      constructor
      all_goals
        rintro rfl
        cases punctuation
    · exact ((endsStatement_eq_false_iff p).mp (endsStatement_of_joins (all p member))).1 outside
  rw [equal, alone.unbroken_iff, readGap.unbroken_iff, List.forall_mem_singleton, List.forall_mem_cons]
  exact ⟨fun ⟨⟨_, here⟩, gap, between⟩ => ⟨gap, here, between⟩,
    fun ⟨gap, here, between⟩ => ⟨⟨plain, here⟩, gap, between⟩⟩

theorem stmt_of_mem_atomsFrom {file : String} {line stmt : Int} {lines : List Bytes} {a : Atom}
    (member : a ∈ atomsFrom file line stmt lines) : stmt ≤ a.stmt := by
  induction lines generalizing line stmt with
  | nil => cases member
  | cons first rest ih =>
      rcases List.mem_append.mp member with here | later
      · obtain ⟨b, inside, rfl⟩ := List.mem_map.mp here
        have low := (mem_atomsOf inside).2.1
        have moved : (b.moved file line stmt).stmt = b.stmt + stmt := rfl
        omega
      · have bound := ih later
        have forward := scanned_stmt first
        omega

/-- Atoms follow each other by their lines, and those of a later line are of later statements. -/
theorem atomsFrom_ordered (file : String) (line stmt : Int) (lines : List Bytes) :
    (atomsFrom file line stmt lines).Pairwise fun a b =>
      a.line = b.line ∨ a.line < b.line ∧ a.stmt < b.stmt := by
  induction lines generalizing line stmt with
  | nil => exact .nil
  | cons first rest ih =>
      have here : ∀ a ∈ (atomsOf first).map (Atom.moved file line stmt),
          a.line = line + 1 ∧ a.stmt < stmt + (scanned first).stmt := by
        intro a member
        obtain ⟨b, inside, rfl⟩ := List.mem_map.mp member
        have one := line_of_mem_atomsOf inside
        have high := (mem_atomsOf inside).2.2
        have number : (b.moved file line stmt).line = b.line + line := rfl
        have ordinal : (b.moved file line stmt).stmt = b.stmt + stmt := rfl
        omega
      refine List.pairwise_append.mpr ⟨?_, ih _ _, fun a first b later => Or.inr ?_⟩
      · refine List.pairwise_of_forall_mem_list fun a first b second => Or.inl ?_
        rw [(here a first).1, (here b second).1]
      · obtain ⟨number, ordinal⟩ := here a first
        have after := (line_of_mem_atomsFrom later).1
        have above := stmt_of_mem_atomsFrom later
        rw [scanned_line] at after
        omega

theorem atLine_cons {number : Int} {a : Atom} (here : a.line = number) (rest : List Atom) :
    atLine number (a :: rest) = a :: atLine number rest :=
  List.filter_cons_of_pos (decide_eq_true here)

/-- What stands between two atoms of a line. The line that the first is on has the atoms before it, then
the atom, then the gap, in which the atoms between the two stand, and then the second atom. -/
def Between (lines : List Bytes) (front : List Atom) (a : Atom) (middle : List Atom) (b : Atom)
    (gap : List (Char × Bool)) : Prop :=
  ∃ line before after, lines[(a.line - 1).toNat]? = some line ∧
    marked (terminated (Utf8.decode line)) =
      before ++ (marked a.text.toList ++ (gap ++ (marked b.text.toList ++ after))) ∧
    Spells before (atLine a.line front) ∧ Spells gap middle

theorem Between.unique {lines : List Bytes} {front middle : List Atom} {a b : Atom}
    {gap gap' : List (Char × Bool)} (first : Spells (marked a.text.toList) [a])
    (second : Spells (marked b.text.toList) [b]) (between : Between lines front a middle b gap)
    (between' : Between lines front a middle b gap') : gap = gap' := by
  obtain ⟨line, before, after, there, shape, spelt, inside⟩ := between
  obtain ⟨line', before', after', there', shape', spelt', inside'⟩ := between'
  cases there.symm.trans there'
  have later := (spelt.append_inj spelt' (shape.symm.trans shape') (first.starts _) (first.starts _)).2
  exact (inside.append_inj inside' (List.append_cancel_left later) (second.starts _)
    (second.starts _)).1

/-- Atoms of one line have their place in it, and so has what stands between them. -/
theorem exists_between {file : String} {lines : List Bytes} {front middle back : List Atom} {a b : Atom}
    (split : lex file lines = front ++ a :: (middle ++ b :: back)) (same : a.line = b.line) :
    Spells (marked a.text.toList) [a] ∧ Spells (marked b.text.toList) [b] ∧
      ∃ gap, Between lines front a middle b gap ∧ a.stmt ≤ b.stmt ∧
        (a.stmt = b.stmt ↔ (∀ p ∈ gap, p.2 = false → p.1 ≠ ';' ∧ p.1 ≠ '\x7b') ∧
          ∀ c ∈ a :: middle, c.is "\x7d" = false) := by
  have ordered := atomsFrom_ordered file 0 0 lines
  have member : a ∈ atomsFrom file 0 0 lines := by simp [← lex_eq, split]
  have bounds := line_of_mem_atomsFrom member
  rw [← lex_eq, split] at ordered
  -- the lines of the atoms between the two lie between theirs
  have inside : ∀ c ∈ middle, c.line = a.line := by
    intro c inMiddle
    obtain ⟨-, later, -⟩ := List.pairwise_append.mp ordered
    obtain ⟨first, later⟩ := List.pairwise_cons.mp later
    have after := first c (List.mem_append_left _ inMiddle)
    have before := (List.pairwise_append.mp later).2.2 c inMiddle b List.mem_cons_self
    omega
  have shape : atLine a.line (lex file lines) =
      atLine a.line front ++ a :: (middle ++ b :: atLine a.line back) := by
    have kept : atLine a.line middle = middle :=
      List.filter_eq_self.mpr fun c inMiddle => decide_eq_true (inside c inMiddle)
    rw [split, atLine_append, atLine_cons rfl, atLine_append, kept, atLine_cons same.symm]
  have number : (((a.line - 1).toNat : Nat) : Int) + 1 = a.line := by omega
  have there := List.getElem?_eq_getElem (l := lines) (i := (a.line - 1).toNat) (by omega)
  cases code : isComment (Utf8.decode lines[(a.line - 1).toNat]) with
  | true =>
      have none := atLine_lex_of_isComment file there code
      rw [number, shape] at none
      simp at none
  | false =>
      obtain ⟨stmt, spelt⟩ := atLine_lex_spellsFrom file there code
      rw [number, shape] at spelt
      obtain ⟨before, gap, after, chars, read, readGap, order, equal⟩ := spelt.between
      exact ⟨spelt.spells.single (by simp), spelt.spells.single (by simp), gap,
        ⟨_, before, after, there, chars, read, readGap⟩, order, equal⟩

/-- The ordinals of statements mean what they say. From an atom to a later one neither the line nor the
ordinal goes down. On one line exactly one run of characters stands between the two; and they are of one
statement if and only if they stand on one line, this run has no `;` and no opening brace outside
literals, and neither the first atom nor one between the two is a closing brace. -/
theorem statements_share_ordinal (file : String) (lines : List Bytes) (front middle back : List Atom)
    (a b : Atom) (split : lex file lines = front ++ a :: (middle ++ b :: back)) :
    a.line ≤ b.line ∧ a.stmt ≤ b.stmt ∧
      (a.line = b.line → ∃! gap, Between lines front a middle b gap) ∧
      (a.stmt = b.stmt ↔ a.line = b.line ∧
        (∀ gap, Between lines front a middle b gap →
          ∀ p ∈ gap, p.2 = false → p.1 ≠ ';' ∧ p.1 ≠ '\x7b') ∧
        ∀ c ∈ a :: middle, c.is "\x7d" = false) := by
  have ordered := atomsFrom_ordered file 0 0 lines
  rw [← lex_eq, split] at ordered
  obtain ⟨-, later, -⟩ := List.pairwise_append.mp ordered
  rcases (List.pairwise_cons.mp later).1 b (by simp) with same | ⟨down, less⟩
  · obtain ⟨first, second, gap, between, order, equal⟩ := exists_between split same
    have only (other : List (Char × Bool)) (isGap : Between lines front a middle b other) :
        other = gap := isGap.unique first second between
    refine ⟨by omega, order, fun _ => ⟨gap, between, only⟩, ?_⟩
    rw [equal]
    constructor
    · rintro ⟨plain, unclosed⟩
      exact ⟨same, fun other isGap => only other isGap ▸ plain, unclosed⟩
    · rintro ⟨-, plain, unclosed⟩
      exact ⟨plain gap between, unclosed⟩
  · refine ⟨by omega, by omega, fun same => ?_, fun equal => ?_, fun ⟨same, _⟩ => ?_⟩
    all_goals omega

/-- A `;` and a brace between two atoms end no statement inside a literal. -/
theorem statements_share_ordinal_literal :
    let lines := ["say(\"\x7d;\", c); d"].map Utf8.encode
    let say : Atom := ⟨"say", .word, "a.dawn", 1, 0⟩
    let middle : List Atom := [⟨"\"\x7d;\"", .string, "a.dawn", 1, 0⟩, ⟨",", .punct, "a.dawn", 1, 0⟩]
    let c : Atom := ⟨"c", .word, "a.dawn", 1, 0⟩
    let back : List Atom := [⟨")", .punct, "a.dawn", 1, 0⟩, ⟨"d", .word, "a.dawn", 1, 1⟩]
    lex "a.dawn" lines = [] ++ say :: (middle ++ c :: back) ∧
      (∃! gap, Between lines [] say middle c gap) ∧
      ∀ gap, Between lines [] say middle c gap → ∀ p ∈ gap, p.2 = false → p.1 ≠ ';' ∧ p.1 ≠ '\x7b' := by
  intro lines say middle c back
  have split : lex "a.dawn" lines = [] ++ say :: (middle ++ c :: back) := by decide
  obtain ⟨-, -, one, share⟩ := statements_share_ordinal "a.dawn" lines [] middle back say c split
  exact ⟨split, one rfl, (share.mp rfl).2.1⟩

namespace Scanner

theorem step_stmt (s : Scanner) (c : Char) : (s.step c).stmt =
    s.stmt + statementEnds [(c, decide (s.mode ≠ .plain) || decide (c = '"'))] := by
  cases stays : joins (c, decide (s.mode ≠ .plain) || decide (c = '"')) with
  | true =>
      rw [step_of_joins stays, statementEnds_singleton, endsStatement_of_joins stays]
      exact (Int.add_zero _).symm
  | false =>
      obtain ⟨plain, notQuote, -, -, stmt, -⟩ := step_of_not_joins stays
      have mark : (decide (s.mode ≠ .plain) || decide (c = '"')) = false := by
        simp [plain, notQuote]
      rw [stmt, mark]

theorem foldl_stmt (s : Scanner) (chars : List Char) :
    (chars.foldl step s).stmt = s.stmt + statementEnds (markedFrom s.mode chars) := by
  induction chars generalizing s with
  | nil => simp
  | cons c rest ih =>
      rw [List.foldl_cons, ih, step_stmt, step_mode, markedFrom_cons, statementEnds_cons _ (markedFrom _ _),
        Int.natCast_add, Int.add_assoc]

end Scanner

/-- How many statements end on the lines. A line that is no comment ends one more where it ends. -/
def statementCount : List Bytes → Nat
  | [] => 0
  | line :: rest =>
    (if isComment (Utf8.decode line) then 0
      else statementEnds (marked (terminated (Utf8.decode line))) + 1) + statementCount rest

theorem stmt_scanned (line : Bytes) : (scanned line).stmt = statementCount [line] := by
  simp only [scanned, Scanner.scanLine, statementCount]
  split
  · rfl
  · have ended (s : Scanner) : { s.flush.endStatement with mode := .plain }.stmt = s.stmt + 1 :=
      congrArg (· + 1) s.flush_stmt
    rw [ended, Scanner.foldl_stmt]
    change (0 : Int) + statementEnds (marked _) + 1 = _
    omega

theorem atomsFrom_append (file : String) (line stmt : Int) (xs ys : List Bytes) :
    atomsFrom file line stmt (xs ++ ys) = atomsFrom file line stmt xs ++
      atomsFrom file (line + xs.length) (stmt + statementCount xs) ys := by
  induction xs generalizing line stmt with
  | nil => simp [atomsFrom, statementCount]
  | cons first rest ih =>
      have lines : line + 1 + (rest.length : Int) = line + (first :: rest).length := by
        rw [List.length_cons]
        omega
      have stmts : stmt + (statementCount [first] : Int) + statementCount rest =
          stmt + statementCount (first :: rest) := by
        simp only [statementCount]
        omega
      rw [List.cons_append, atomsFrom, ih, atomsFrom, List.append_assoc, scanned_line, stmt_scanned, lines,
        stmts]

theorem atomsFrom_moved (file : String) (line stmt more moreStmts : Int) (lines : List Bytes) :
    atomsFrom file (line + more) (stmt + moreStmts) lines =
      (atomsFrom file line stmt lines).map fun a =>
        { a with line := a.line + more, stmt := a.stmt + moreStmts } := by
  induction lines generalizing line stmt with
  | nil => rfl
  | cons first rest ih =>
      rw [atomsFrom, atomsFrom, List.map_append, Int.add_right_comm line, Int.add_right_comm stmt, ih,
        List.map_map]
      congr 2
      funext a
      simp [Atom.moved, Int.add_assoc]

/-- Lines are read apart. What lines after others are read as is what they are read as alone, with the
lines before added to the line of every atom and the statements of the lines before to every ordinal; and
these are all the atoms of the later lines. So nothing that a line leaves open reaches the next. -/
theorem lines_read_apart (file : String) (xs ys : List Bytes) :
    let later := (lex file ys).map fun a =>
      { a with line := a.line + xs.length, stmt := a.stmt + statementCount xs }
    lex file (xs ++ ys) = lex file xs ++ later ∧
      (lex file (xs ++ ys)).filter (fun a => (xs.length : Int) < a.line) = later := by
  intro later
  have whole : lex file (xs ++ ys) = lex file xs ++ later := by
    rw [lex_eq, atomsFrom_append, atomsFrom_moved, ← lex_eq, ← lex_eq]
  have early : ∀ a ∈ lex file xs, ¬ (xs.length : Int) < a.line := by
    intro a member
    rw [lex_eq] at member
    have bound := (line_of_mem_atomsFrom member).2
    omega
  have late : ∀ a ∈ later, (xs.length : Int) < a.line := by
    intro a member
    obtain ⟨b, inside, rfl⟩ := List.mem_map.mp member
    rw [lex_eq] at inside
    have bound := (line_of_mem_atomsFrom inside).1
    dsimp only
    omega
  refine ⟨whole, ?_⟩
  rw [whole, List.filter_append, List.filter_eq_nil_iff.mpr (by simpa using early),
    List.filter_eq_self.mpr (by simpa using late), List.nil_append]

/-- A literal that is left open after a backslash, and a word. -/
example : (lex "a.dawn" (["x\"b\\", "c y"].map Utf8.encode)).map (fun a => (a.text, a.line, a.stmt)) =
    [("x\"b\\;", 1, 0), ("c", 2, 1), ("y", 2, 1)] := by decide

end DawnC
