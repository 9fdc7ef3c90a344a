import DawnC.Proofs.CallByName
import DawnC.Proofs.LineParts
import DawnC.Proofs.Spelling
import DawnC.Proofs.Utf8
import Mathlib.Data.List.SplitBy

set_option autoImplicit false

namespace DawnC

/-- Nothing ends the first atom where the second begins. -/
def runsInto (a b : Atom) : Bool := a.kind ≠ .punct && b.kind ≠ .punct

def glued (atoms : List Atom) : String := String.join (atoms.map Atom.text)

/-- The texts of atoms with nothing between them, as they are read again. -/
def fused (atoms : List Atom) : List String := (atoms.splitBy runsInto).map glued

@[simp] theorem toList_glued_cons (a : Atom) (rest : List Atom) :
    (glued (a :: rest)).toList = a.text.toList ++ (glued rest).toList := by
  simp [glued]

theorem runsInto_eq_false {a b : Atom} :
    runsInto a b = false ↔ a.kind = .punct ∨ b.kind = .punct := by
  simp [runsInto, or_iff_not_imp_left]

theorem isTerminated_glued {atoms : List Atom} (whole : ∀ a ∈ atoms, a.IsWhole) :
    isTerminated (glued atoms).toList = true := by
  induction atoms with
  | nil => rfl
  | cons a rest ih =>
      rw [List.forall_mem_cons] at whole
      rw [toList_glued_cons]
      exact isTerminated_append whole.1.isTerminated (ih whole.2)

theorem marked_glued_cons {a : Atom} (whole : a.IsWhole) (rest : List Atom) :
    marked (glued (a :: rest)).toList = marked a.text.toList ++ marked (glued rest).toList := by
  rw [toList_glued_cons, marked_append whole.isTerminated]

theorem marked_glued_append {first : List Atom} (whole : ∀ a ∈ first, a.IsWhole) (second : List Atom) :
    marked (glued (first ++ second)).toList =
      marked (glued first).toList ++ marked (glued second).toList := by
  induction first with
  | nil => rfl
  | cons a rest ih =>
      rw [List.forall_mem_cons] at whole
      rw [List.cons_append, marked_glued_cons whole.1, ih whole.2, marked_glued_cons whole.1,
        List.append_assoc]

namespace Atom.IsWhole

variable {a : Atom}

theorem marked_of_punct (whole : a.IsWhole) (punct : a.kind = .punct) :
    ∃ c, isPunctuation c = true ∧ a.text = String.ofList [c] ∧ marked a.text.toList = [(c, false)] := by
  rcases whole with ⟨-, c, punctuation, text⟩ | ⟨other, -⟩
  · refine ⟨c, punctuation, text, ?_⟩
    rw [text, String.toList_ofList, marked_singleton punctuation]
  · exact absurd punct other

theorem joins_of_mem (whole : a.IsWhole) (other : a.kind ≠ .punct) :
    ∀ p ∈ marked a.text.toList, joins p = true := by
  rcases whole with ⟨punct, -⟩ | ⟨-, stays⟩
  · exact absurd punct other
  · refine (Scanner.isAtomText_iff _).mp ?_
    rw [Scanner.IsAtomText, stays]
    rfl

end Atom.IsWhole

theorem joins_glued {atoms : List Atom} (whole : ∀ a ∈ atoms, a.IsWhole)
    (others : ∀ a ∈ atoms, a.kind ≠ .punct) :
    ∀ p ∈ marked (glued atoms).toList, joins p = true := by
  induction atoms with
  | nil => exact fun p member => absurd member List.not_mem_nil
  | cons a rest ih =>
      rw [List.forall_mem_cons] at whole others
      rw [marked_glued_cons whole.1, List.forall_mem_append]
      exact ⟨whole.1.joins_of_mem others.1, ih whole.2 others.2⟩

/-- Atoms of which each runs into the next are one of punctuation, or have none. -/
theorem punct_of_runsInto {group : List Atom} (chain : group.IsChain fun a b => runsInto a b) :
    (∃ a, group = [a] ∧ a.kind = .punct) ∨ ∀ a ∈ group, a.kind ≠ .punct := by
  induction group with
  | nil => exact Or.inr (by simp)
  | cons a rest ih =>
      cases rest with
      | nil =>
          by_cases punct : a.kind = .punct
          · exact Or.inl ⟨a, rfl, punct⟩
          · exact Or.inr (by simpa using punct)
      | cons b rest =>
          rw [List.isChain_cons_cons, runsInto, Bool.and_eq_true, decide_eq_true_eq,
            decide_eq_true_eq] at chain
          obtain ⟨⟨first, second⟩, later⟩ := chain
          refine Or.inr (List.forall_mem_cons.mpr ⟨first, ?_⟩)
          rcases ih later with ⟨c, same, punct⟩ | others
          · obtain ⟨rfl, -⟩ := List.cons.inj same
            exact absurd punct second
          · exact others

/-- Groups of atoms, each of which is read as one, with what ends the line. -/
theorem spells_groups {groups : List (List Atom)} (filled : [] ∉ groups)
    (chains : ∀ group ∈ groups, group.IsChain fun a b => runsInto a b)
    (apart : groups.IsChain fun first second =>
      ∃ left right, runsInto (first.getLast left) (second.head right) = false)
    (whole : ∀ group ∈ groups, ∀ a ∈ group, a.IsWhole ∧ a.text ≠ "") :
    ∃ read, Spells (marked (glued groups.flatten).toList ++ [(';', false)]) read ∧
      read.map Atom.text = groups.map glued := by
  induction groups with
  | nil => exact ⟨[], .separator (by decide) .nil, rfl⟩
  | cons group rest ih =>
      rw [List.mem_cons, not_or] at filled
      rw [List.forall_mem_cons] at chains whole
      obtain ⟨read, spelt, texts⟩ := ih filled.2 chains.2 apart.tail whole.2
      have terminated : ∀ a ∈ group, a.IsWhole := fun a member => (whole.1 a member).1
      rw [List.flatten_cons, marked_glued_append terminated, List.append_assoc]
      rcases punct_of_runsInto chains.1 with ⟨a, rfl, punct⟩ | others
      · obtain ⟨c, punctuation, text, mark⟩ :=
          (terminated a List.mem_cons_self).marked_of_punct punct
        refine ⟨a :: read, ?_, ?_⟩
        · rw [show glued [a] = a.text by simp [glued], mark]
          exact .punctuation punctuation text punct spelt
        · rw [List.map_cons, texts, List.map_cons, show glued [a] = a.text by simp [glued]]
      · refine ⟨⟨glued group, Scanner.kindOf (glued group).toList, "", 0, 0⟩ :: read,
          .lexeme ?_ (joins_glued terminated others) ?_ rfl rfl spelt, ?_⟩
        · cases group with
          | nil => exact absurd rfl filled.1
          | cons a more =>
              rw [marked_glued_cons (terminated a List.mem_cons_self)]
              refine List.append_ne_nil_of_left_ne_nil (marked_ne_nil ?_) _
              rw [Ne, String.toList_eq_nil_iff]
              exact (whole.1 a List.mem_cons_self).2
        · cases rest with
          | nil =>
              rintro p ⟨⟩
              rfl
          | cons second rest =>
              obtain ⟨⟨left, right, cut⟩, -⟩ := List.isChain_cons_cons.mp apart
              cases second with
              | nil => exact absurd rfl right
              | cons b more =>
                  -- the next group begins with punctuation, else it would go on with this one
                  have notPunct := others _ (List.getLast_mem left)
                  have punct : b.kind = .punct := (runsInto_eq_false.mp cut).resolve_left notPunct
                  have wholeNext := (whole.2 _ List.mem_cons_self b List.mem_cons_self).1
                  obtain ⟨c, punctuation, -, mark⟩ := wholeNext.marked_of_punct punct
                  rw [List.flatten_cons, List.cons_append, marked_glued_cons wholeNext, mark]
                  rintro p ⟨⟩
                  simp [joins, punctuation]
        · rw [List.map_cons, texts, List.map_cons]

/-- A text with all its literals terminated ends with `;` outside literals only. -/
theorem mem_marked_of_getLast? {text : List Char} (ends : isTerminated text = true)
    (last : text.getLast? = some ';') : (';', false) ∈ marked text := by
  obtain ⟨before, rfl⟩ := List.getLast?_eq_some_iff.mp last
  have parts := markedFrom_append .plain before [';']
  rw [isTerminated, List.foldl_append, decide_eq_true_eq] at ends
  have plain : before.foldl Scanner.Mode.next .plain = .plain := by
    cases mode : before.foldl Scanner.Mode.next .plain with
    | plain => rfl
    | quoted =>
        rw [mode] at ends
        cases ends
    | escaped =>
        rw [mode] at ends
        cases ends
  rw [plain] at parts
  change marked _ = _ at parts
  rw [parts]
  exact List.mem_append_right _ List.mem_cons_self

theorem not_mem_marked_glued {atoms : List Atom} (whole : ∀ a ∈ atoms, a.IsWhole) :
    (';', false) ∉ marked (glued atoms).toList := by
  induction atoms with
  | nil => exact List.not_mem_nil
  | cons a rest ih =>
      rw [List.forall_mem_cons] at whole
      rw [marked_glued_cons whole.1, List.mem_append, not_or]
      refine ⟨fun member => ?_, ih whole.2⟩
      by_cases punct : a.kind = .punct
      · obtain ⟨c, punctuation, -, mark⟩ := whole.1.marked_of_punct punct
        rw [mark, List.mem_singleton] at member
        cases member
        exact absurd punctuation (by decide)
      · exact absurd (whole.1.joins_of_mem punct _ member) (by decide)

theorem terminated_glued {atoms : List Atom} (whole : ∀ a ∈ atoms, a.IsWhole) :
    terminated (glued atoms).toList = (glued atoms).toList ++ [';'] := by
  rw [terminated, if_neg]
  exact fun last =>
    not_mem_marked_glued whole (mem_marked_of_getLast? (isTerminated_glued whole) last)

/-- Atoms with nothing between them are read as what they fuse to. -/
theorem lex_glued (file : String) {atoms : List Atom}
    (whole : ∀ a ∈ atoms, a.IsWhole ∧ a.text ≠ "") :
    (lex file [Utf8.encode (glued atoms)]).map Atom.text =
      if isComment (glued atoms).toList then [] else fused atoms := by
  have decoded := Utf8.decode_encode (glued atoms)
  split
  · rename_i comment
    rw [lex_single_of_isComment file (by rw [decoded, comment])]
    rfl
  · rename_i code
    have terminated : ∀ a ∈ atoms, a.IsWhole := fun a member => (whole a member).1
    have flat : (atoms.splitBy runsInto).flatten = atoms := List.flatten_splitBy runsInto atoms
    obtain ⟨read, spelt, texts⟩ := spells_groups (List.nil_notMem_splitBy runsInto atoms)
      (fun group => List.isChain_of_mem_splitBy) (List.isChain_getLast_head_splitBy runsInto atoms)
      fun group member a inside =>
        whole a (flat ▸ List.mem_flatten.mpr ⟨group, member, inside⟩)
    rw [← decoded, Bool.not_eq_true] at code
    have again := lex_single_spells file code
    rw [decoded, terminated_glued terminated, marked_append (isTerminated_glued terminated)] at again
    rw [flat] at spelt
    have same := congrArg (List.map Prod.fst) (again.unique spelt)
    simp only [List.map_map] at same
    exact same.trans texts

theorem eq_singletons {α : Type} {groups : List (List α)} (filled : [] ∉ groups)
    (few : groups.flatten.length ≤ groups.length) : groups = groups.flatten.map ([·]) := by
  have many (groups : List (List α)) (filled : [] ∉ groups) :
      groups.length ≤ groups.flatten.length := by
    induction groups with
    | nil => exact Nat.le_refl _
    | cons group rest ih =>
        rw [List.mem_cons, not_or] at filled
        have positive := List.length_pos_iff.mpr (Ne.symm filled.1)
        have later := ih filled.2
        rw [List.flatten_cons, List.length_cons, List.length_append]
        omega
  induction groups with
  | nil => rfl
  | cons group rest ih =>
      rw [List.mem_cons, not_or] at filled
      rw [List.flatten_cons, List.length_cons, List.length_append] at few
      have positive := List.length_pos_iff.mpr (Ne.symm filled.1)
      have later := many rest filled.2
      obtain ⟨a, rfl⟩ := List.length_eq_one_iff.mp (show group.length = 1 by omega)
      rw [List.flatten_cons, List.singleton_append, List.map_cons,
        ← ih filled.2 (by rw [List.length_singleton] at few; omega)]

/-- Nothing fuses if and only if punctuation stands between any two atoms. -/
theorem fused_eq_iff {atoms : List Atom} : fused atoms = atoms.map Atom.text ↔
    atoms.IsChain fun a b => a.kind = .punct ∨ b.kind = .punct := by
  have flat : (atoms.splitBy runsInto).flatten = atoms := List.flatten_splitBy runsInto atoms
  have split : atoms.splitBy runsInto = atoms.map ([·]) ↔
      atoms.IsChain fun a b => a.kind = .punct ∨ b.kind = .punct := by
    have apart (a b : Atom) : (∃ left right, runsInto ([a].getLast left) ([b].head right) = false) ↔
        a.kind = .punct ∨ b.kind = .punct := by
      simp [runsInto_eq_false]
    simp only [List.splitBy_eq_iff, List.isChain_map, apart]
    have ones : (atoms.map ([·])).flatten = atoms := by
      rw [← List.flatMap_def]
      exact List.flatMap_singleton' atoms
    have filled : [] ∉ atoms.map ([·]) := by simp
    have chains : ∀ group ∈ atoms.map ([·]), group.IsChain fun a b => runsInto a b := by simp
    exact ⟨fun all => all.2.2.2, fun chain => ⟨ones.symm, filled, chains, chain⟩⟩
  rw [← split]
  constructor
  · intro same
    have count := congrArg List.length same
    rw [fused, List.length_map, List.length_map] at count
    -- as many texts as atoms, so no group has two
    have ones := eq_singletons (List.nil_notMem_splitBy runsInto atoms)
      (by rw [flat, count])
    rw [flat] at ones
    exact ones
  · intro ones
    rw [fused, ones, List.map_map]
    refine List.map_congr_left fun a _ => ?_
    simp [glued]

theorem Translator.Effect.of_intList {t t' : Translator} {previous : Option Atom} {i n : Nat} {a : Atom}
    {rest : List Atom} (effect : Effect t previous i a rest n t') (word : a.IsWord "List<int>") :
    ∃ name equals bracket inner close tail,
      rest = name :: equals :: bracket :: (inner ++ close :: tail) ∧ name.IsName ∧
      equals.is "=" = true ∧ bracket.is "[" = true ∧ close.is "]" = true ∧
      (∀ b ∈ inner, b.is "]" = false) ∧
      t'.lines = t.lines ++ ["int " ++ name.text ++ "[] = \x7b" ++ glued inner ++ "\x7d;"] := by
  obtain ⟨isWord, text⟩ := word
  cases effect with
  | intList _ shape isName isEquals isBracket read declared =>
      obtain ⟨inner, close, tail, rfl, isClose, valid, rfl⟩ := elementsFrom_eq_ok read
      exact ⟨_, _, _, inner, close, tail, shape, isName, isEquals, isBracket, isClose,
        fun b member => (valid b member).1, rfl⟩
  | printFormatted word rule args =>
      simp only [List.mem_cons, Prod.mk.injEq, List.not_mem_nil, or_false] at rule
      rcases rule with ⟨rfl, -⟩ | ⟨rfl, -⟩ <;> simp_all [Atom.IsWord]
  | declaration word scalar =>
      simp only [List.mem_cons, List.not_mem_nil, or_false] at scalar
      rcases scalar with rfl | rfl | rfl <;> simp_all [Atom.IsWord, SymbolClass.name]
  | _ => simp_all [Atom.IsWord, leadingWords]

theorem isWhole_of_isTerminated {file : String} {lines : List Bytes} {a : Atom}
    (member : a ∈ lex file lines) (ends : isTerminated a.text.toList = true) :
    a.IsWhole ∧ a.text ≠ "" := by
  rcases atom_cases_of_mem_lex member with ⟨punct, c, punctuation, text⟩ | ⟨kind, filled, all⟩
  · refine ⟨Or.inl ⟨punct, c, punctuation, text⟩, ?_⟩
    rw [text]
    simp
  · obtain ⟨mode, stays⟩ := Option.isSome_iff_exists.mp ((Scanner.isAtomText_iff _).mpr all)
    have plain := (bracketsFrom_of_modeAfter stays).1.symm.trans (of_decide_eq_true ends)
    rw [plain] at stays
    exact ⟨Or.inr ⟨kind ▸ Scanner.kindOf_ne_punct _, stays⟩, filled⟩

open Cursor in
/-- The elements of a list literal as they are read again from the line that is written for it, if their
literals are terminated: neighbours that are no punctuation are one. So a list keeps its atoms if and only
if of any two neighbours one is punctuation, and what is written does not begin like a comment. -/
theorem list_elements_fuse (file : String) (lines : List Bytes) (u v : CompilationUnit)
    (analyzed : ({ file, atoms := lex file lines } : CompilationUnit).analyze = .ok u)
    (translated : u.translate = .ok v) (c : Cursor) (keyword : Atom) (rest : List Atom)
    (reached : Runs (lex file lines) ⟨0, u.translator⟩ c)
    (here : (lex file lines).drop c.index = keyword :: rest) (word : keyword.IsWord "List<int>") :
    ∃ name equals bracket inner close tail,
      rest = name :: equals :: bracket :: (inner ++ close :: tail) ∧ name.IsName ∧
      equals.is "=" = true ∧ bracket.is "[" = true ∧ close.is "]" = true ∧
      (∀ b ∈ inner, b.is "]" = false) ∧
      v.lines[c.state.lines.length]? =
        some ("int " ++ name.text ++ "[] = \x7b" ++ glued inner ++ "\x7d;") ∧
      ((∀ b ∈ inner, isTerminated b.text.toList = true) → ∀ other,
        let again := (lex other [Utf8.encode (glued inner)]).map Atom.text
        again = (if isComment (glued inner).toList then [] else fused inner) ∧
        (again = inner.map Atom.text ↔ isComment (glued inner).toList = false ∧
          inner.IsChain fun a b => a.kind = .punct ∨ b.kind = .punct)) := by
  obtain ⟨e, t, runs, used, closed, rfl⟩ := CompilationUnit.translate_eq_ok.mp translated
  rw [(analyze_eq_ok analyzed).1] at runs used
  obtain ⟨d, next, later⟩ := Runs.goes_on reached runs used (by simp [here])
  obtain ⟨n, index, effect⟩ := next.effect here
  obtain ⟨name, equals, bracket, inner, close, tail, rfl, isName, isEquals, isBracket, isClose, valid,
    emitted⟩ := effect.of_intList word
  refine ⟨name, equals, bracket, inner, close, tail, rfl, isName, isEquals, isBracket, isClose, valid,
    later.emitted_at emitted closed, ?_⟩
  intro ends other again
  have whole : ∀ b ∈ inner, b.IsWhole ∧ b.text ≠ "" := by
    intro b member
    have inside : b ∈ (lex file lines).drop c.index := by
      rw [here]
      simp [member]
    exact isWhole_of_isTerminated (List.mem_of_mem_drop inside) (ends b member)
  have read : again = if isComment (glued inner).toList then [] else fused inner :=
    lex_glued other whole
  refine ⟨read, ?_⟩
  rw [read, ← fused_eq_iff]
  split
  · rename_i comment
    rw [comment]
    refine iff_of_false (fun none => ?_) (fun both => Bool.false_ne_true both.1.symm)
    rw [List.map_eq_nil_iff.mp none.symm] at comment
    cases comment
  · rename_i code
    exact (and_iff_right (Bool.eq_false_iff.mpr code)).symm

open Cursor in
/-- Commas keep the elements apart, and nothing keeps the atoms of the second one apart. -/
theorem list_elements_fuse_second :
    let lines := ["int n = 2", "List<int> xs = [n, 4 - -n]"].map Utf8.encode
    let atoms := lex "a.dawn" lines
    ∃ u v, ({ file := "a.dawn", atoms } : CompilationUnit).analyze = .ok u ∧ u.translate = .ok v ∧
      v.lines[1]? = some "int xs[] = \x7bn,4--n\x7d;" ∧
      ∀ other, (lex other [Utf8.encode "n,4--n"]).map Atom.text = ["n", ",", "4--n"] ∧
        (lex other [Utf8.encode "n,4--n"]).map Atom.text ≠ ["n", ",", "4", "-", "-n"] := by
  intro lines atoms
  let u : CompilationUnit := { file := "a.dawn", atoms, phase := .importScan }
  let declared : Cursor := ⟨4, ⟨.ofList [("n", .int)], [], ["int n = 2;"], [], none⟩⟩
  have declares : Runs atoms ⟨0, u.translator⟩ declared := .single (by decide)
  obtain ⟨v, translated, -⟩ := toOption_map_eq_some.mp
    (by decide : (u.translate.toOption.map fun v => v.lines.length) = some 2)
  obtain ⟨name, equals, bracket, inner, close, tail, shape, -, -, -, isClose, valid, emitted, again⟩ :=
    list_elements_fuse "a.dawn" lines u v rfl translated declared _ (atoms.drop 5) declares rfl ⟨rfl, rfl⟩
  have named : some name.text = some "xs" :=
    (congrArg (fun rest : List Atom => rest.head?.map Atom.text) shape).symm
  -- the elements are what stands before the first closing bracket
  have elements : inner = (atoms.drop 8).takeWhile fun b => !b.is "]" := by
    have after : atoms.drop 8 = inner ++ close :: tail := congrArg (List.drop 3) shape
    rw [after, List.takeWhile_append_of_pos (by simpa using valid),
      List.takeWhile_cons_of_neg (by simp [isClose]), List.append_nil]
  have text : glued inner = "n,4--n" := by
    rw [elements]
    decide
  rw [Option.some.inj named, text] at emitted
  rw [text, elements] at again
  refine ⟨u, v, rfl, translated, emitted, fun other => ?_⟩
  obtain ⟨texts, kept⟩ := again (by decide) other
  exact ⟨texts.trans (by decide), fun same => absurd (kept.mp same).2 (by decide)⟩

/-- Two signs that a blank keeps apart come together: the source subtracts a negative number, and the
line has a decrement. -/
theorem subtraction_becomes_decrement :
    let lines := ["List<int> xs = [3 - -2]"].map Utf8.encode
    let atoms := lex "t.dawn" lines
    ∃ u v, ({ file := "t.dawn", atoms } : CompilationUnit).analyze = .ok u ∧ u.translate = .ok v ∧
      atoms.map Atom.text = ["List<int>", "xs", "=", "[", "3", "-", "-2", "]"] ∧
      (∀ a ∈ atoms, isTerminated a.text.toList = true) ∧
      v.lines = ["int xs[] = \x7b3--2\x7d;"] ∧
      (lex "t.dawn" [Utf8.encode "3--2"]).map Atom.text = ["3--2"] := by
  intro lines atoms
  let u : CompilationUnit := { file := "t.dawn", atoms, phase := .importScan }
  obtain ⟨v, translated, emitted⟩ := toOption_map_eq_some.mp
    (by decide : (u.translate.toOption.map fun v => v.lines) = some ["int xs[] = \x7b3--2\x7d;"])
  exact ⟨u, v, rfl, translated, by decide, by decide, emitted, by decide⟩

end DawnC
