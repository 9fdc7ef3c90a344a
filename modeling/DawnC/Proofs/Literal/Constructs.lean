import DawnC.Proofs.Literal.Rewriting

set_option autoImplicit false

namespace DawnC

/-- Both fail with related errors, or both give related results. -/
inductive Together {ε α : Type} (E : ε → ε → Prop) (R : α → α → Prop) :
    Except ε α → Except ε α → Prop where
  | error {e e' : ε} (related : E e e') : Together E R (.error e) (.error e')
  | ok {x y : α} (related : R x y) : Together E R (.ok x) (.ok y)

abbrev SamePlace (m m' : Misstep) : Prop := m.index = m'.index

/-- The steps fail at the same atom, whatever the states reached. -/
abbrev SameStep (e e' : Misstep × Translator) : Prop := SamePlace e.1 e'.1

namespace Together

variable {ε α β : Type} {E : ε → ε → Prop} {R : α → α → Prop} {S : β → β → Prop}

theorem bind {x y : Except ε α} {f g : α → Except ε β} (together : Together E R x y)
    (next : ∀ a b, R a b → Together E S (f a) (g b)) : Together E S (x >>= f) (y >>= g) := by
  cases together with
  | error related => exact .error related
  | ok related => exact next _ _ related

theorem mapError {δ : Type} {F : δ → δ → Prop} {x y : Except ε α} {f g : ε → δ}
    (together : Together E R x y) (related : ∀ e e', E e e' → F (f e) (g e')) :
    Together F R (x.mapError f) (y.mapError g) := by
  cases together with
  | error found => exact .error (related _ _ found)
  | ok result => exact .ok result

theorem imp {Q : α → α → Prop} {x y : Except ε α} (together : Together E R x y)
    (weaker : ∀ a b, R a b → Q a b) : Together E Q x y := by
  cases together with
  | error related => exact .error related
  | ok related => exact .ok (weaker _ _ related)

theorem bind_same {x : Except Misstep α} {f g : α → Except Misstep β}
    (next : ∀ a, x = .ok a → Together SamePlace S (f a) (g a)) :
    Together SamePlace S (x >>= f) (x >>= g) := by
  cases x with
  | error m => exact .error rfl
  | ok a => exact next a rfl

end Together

/-- A reading of the first atom that fails at a literal, whatever its text. -/
structure Blind {α : Type} (read : List Atom → Except Misstep α) : Prop where
  same : ∀ {old new : String} {n : Nat} {atoms atoms' : List Atom},
    AtomsRewritten old new n atoms atoms' → read atoms = read atoms'
  plain : ∀ {atoms : List Atom} {x : α}, read atoms = .ok x → ∀ a ∈ atoms.head?, a.kind ≠ .string

section Pieces

variable {old new : String} {n : Nat} {atoms atoms' : List Atom}

theorem blind_expect (text : String) (index : Nat) : Blind (expect text index) := by
  constructor
  · intro old new n atoms atoms' counted
    cases counted with
    | nil => rfl
    | cons here later => simp only [expect, here.is_eq]
  · intro atoms x success
    obtain ⟨a, tail, rfl, is⟩ := expect_eq_ok.mp success
    rintro _ ⟨⟩
    exact Atom.kind_of_is is

theorem blind_expectName (index : Nat) : Blind (expectName index) := by
  constructor
  · intro old new n atoms atoms' counted
    cases counted with
    | nil => rfl
    | cons here later =>
        cases here with
        | same => rfl
        | literal isString => simp [expectName, isString]
  · intro atoms name success
    obtain ⟨a, tail, rfl, isName, -⟩ := expectName_eq_ok.mp success
    rintro _ ⟨⟩
    simp [isName.1]

theorem blind_expectBound (symbols : SymbolTable) (index : Nat) :
    Blind (expectBound symbols index) := by
  constructor
  · intro old new n atoms atoms' counted
    cases counted with
    | nil => rfl
    | cons here later =>
        cases here with
        | same => rfl
        | literal isString => simp [expectBound, isString]
  · intro atoms bound success
    obtain ⟨a, tail, rfl, isBound, -⟩ := expectBound_eq_ok.mp success
    rintro _ ⟨⟩
    simp [isBound.1]

/-- Both read the same from their next atom, which is no literal. -/
theorem Blind.together {α : Type} {read : List Atom → Except Misstep α} (blind : Blind read) {k : Nat}
    (left : AtomsRewritten old new n (atoms.drop k) (atoms'.drop k)) :
    Together SamePlace
      (fun x y => x = y ∧ AtomsRewritten old new n (atoms.drop (k + 1)) (atoms'.drop (k + 1)))
      (read (atoms.drop k)) (read (atoms'.drop k)) := by
  rw [← blind.same left]
  cases result : read (atoms.drop k) with
  | error m => exact .error rfl
  | ok x => exact .ok ⟨rfl, left.advance (blind.plain result)⟩

theorem Blind.bind {α β : Type} {read : List Atom → Except Misstep α} (blind : Blind read)
    {S : β → β → Prop} {f g : α → Except Misstep β} {k : Nat}
    (left : AtomsRewritten old new n (atoms.drop k) (atoms'.drop k))
    (next : ∀ x, AtomsRewritten old new n (atoms.drop (k + 1)) (atoms'.drop (k + 1)) →
      Together SamePlace S (f x) (g x)) :
    Together SamePlace S (read (atoms.drop k) >>= f) (read (atoms'.drop k) >>= g) := by
  refine (blind.together left).bind ?_
  rintro x _ ⟨rfl, left⟩
  exact next x left

/-- Related results of reading the same number of atoms. The literals are in what was read and in what is
left of the atoms. -/
def Reads {β : Type} (old new : String) (S : Nat → β → β → Prop) (total taken : Nat)
    (atoms atoms' : List Atom) (r r' : β × Nat) : Prop :=
  ∃ k m s, r.2 = taken + k ∧ r'.2 = taken + k ∧ m + s = total ∧ S m r.1 r'.1 ∧
    AtomsRewritten old new s (atoms.drop k) (atoms'.drop k)

theorem Reads.later {β : Type} {S : Nat → β → β → Prop} {total taken : Nat} {a b : Atom}
    {r r' : β × Nat} (reads : Reads old new S total (taken + 1) atoms atoms' r r') :
    Reads old new S total taken (a :: atoms) (b :: atoms') r r' := by
  obtain ⟨k, m, s, count, count', sum, result, left⟩ := reads
  exact ⟨k + 1, m, s, by omega, by omega, sum, result, left⟩

namespace AtomsRewritten

theorem parametersFrom_eq (counted : AtomsRewritten old new n atoms atoms') (symbols : SymbolTable)
    (texts : List String) (taken index : Nat) (state : ParameterState) :
    parametersFrom symbols texts taken index state atoms =
      parametersFrom symbols texts taken index state atoms' := by
  induction counted generalizing symbols texts taken index state with
  | nil => cases state <;> rfl
  | cons here later ih =>
      cases here with
      | same => cases state <;> simp only [parametersFrom, ih]
      | literal isString => cases state <;> simp [parametersFrom, Atom.is, parameterClass?, isString]

/-- A parameter list has no literals in it. -/
theorem left_of_parametersFrom (counted : AtomsRewritten old new n atoms atoms')
    {symbols : SymbolTable} {texts : List String} {taken index : Nat} {state : ParameterState}
    {params : Parameters}
    (success : parametersFrom symbols texts taken index state atoms = .ok params) :
    ∃ k, params.taken = taken + k ∧ AtomsRewritten old new n (atoms.drop k) (atoms'.drop k) := by
  induction counted generalizing symbols texts taken index state with
  | nil => cases state <;> cases success
  | @cons m n a b rest rest' here later ih =>
      -- what a parameter list goes on with is a word, a comma or its end
      have goes {symbols : SymbolTable} {texts : List String} {state : ParameterState}
          (plain : a.kind ≠ .string)
          (success : parametersFrom symbols texts (taken + 1) (index + 1) state rest = .ok params) :
          ∃ k, params.taken = taken + k ∧
            AtomsRewritten old new (m + n) ((a :: rest).drop k) ((b :: rest').drop k) := by
        obtain ⟨k, count, left⟩ := ih success
        obtain ⟨rfl, -⟩ := here.eq_of_kind plain
        exact ⟨k + 1, by omega, by rwa [Nat.zero_add]⟩
      have ends (closes : a.is ")" = true) : ∃ k, taken + 1 = taken + k ∧
          AtomsRewritten old new (m + n) ((a :: rest).drop k) ((b :: rest').drop k) := by
        obtain ⟨rfl, -⟩ := here.eq_of_kind (Atom.kind_of_is closes)
        exact ⟨1, rfl, by rwa [Nat.zero_add]⟩
      have typed {cls : SymbolClass} (found : parameterClass? a = some cls) : a.kind ≠ .string := by
        intro isString
        simp [parameterClass?, isString] at found
      cases state with
      | name cls =>
          simp only [parametersFrom] at success
          split at success
          · rename_i isName
            have plain : a.kind ≠ .string := by simp_all
            split at success
            · exact goes plain success
            · cases success
          · cases success
      | separator =>
          simp only [parametersFrom] at success
          split at success
          · rename_i closes
            cases success
            exact ends closes
          · split at success
            · rename_i comma
              exact goes (Atom.kind_of_is comma) success
            · cases success
      | start =>
          simp only [parametersFrom] at success
          split at success
          · rename_i closes
            cases success
            exact ends closes
          · split at success
            · rename_i found
              exact goes (typed found) success
            · cases success
      | type =>
          simp only [parametersFrom] at success
          split at success
          · rename_i found
            exact goes (typed found) success
          · cases success

theorem statement_length (counted : AtomsRewritten old new n atoms atoms') :
    (statement atoms).length = (statement atoms').length := by
  cases counted with
  | nil => rfl
  | cons here later =>
      refine Counted.length_takeWhile ?_ (.cons here later)
      intro _ _ _ rewritten
      rw [rewritten.stmt, rewritten.is_eq, here.stmt]

/-- Where a part of a statement begins, so many literals are in it and after the statement. -/
theorem statement_split (counted : AtomsRewritten old new n atoms atoms') {m k : Nat}
    (left : AtomsRewritten old new m (atoms.drop k) (atoms'.drop k)) :
    (statement atoms).drop k = [] ∧ (statement atoms').drop k = [] ∨
      ∃ q r, q + r = m ∧
        AtomsRewritten old new q ((statement atoms).drop k) ((statement atoms').drop k) ∧
        AtomsRewritten old new r (atoms.drop (statement atoms).length)
          (atoms'.drop (statement atoms).length) := by
  have same := counted.statement_length
  by_cases short : (statement atoms).length ≤ k
  · exact Or.inl ⟨List.drop_eq_nil_of_le short, List.drop_eq_nil_of_le (same ▸ short)⟩
  · obtain ⟨q, r, total, first, second⟩ := left.split ((statement atoms).length - k)
    have part (atoms : List Atom) :
        (atoms.drop k).take ((statement atoms).length - k) = (statement atoms).drop k := by
      rw [← List.drop_take, ← List.prefix_iff_eq_take.mp (statement_isPrefix atoms)]
    have whole : k + ((statement atoms).length - k) = (statement atoms).length := by omega
    have part' := part atoms'
    rw [← same] at part'
    rw [part, part'] at first
    rw [List.drop_drop, List.drop_drop, whole] at second
    exact Or.inr ⟨q, r, total, first, second⟩

theorem expression_together (counted : AtomsRewritten old new n atoms atoms') {m k : Nat}
    (left : AtomsRewritten old new m (atoms.drop k) (atoms'.drop k)) (index : Nat) :
    Together SamePlace
      (fun value value' => ∃ q r, q + r = m ∧ Rewritten old new q value value' ∧
        AtomsRewritten old new r (atoms.drop (statement atoms).length)
          (atoms'.drop (statement atoms).length))
      (expression index ((statement atoms).drop k)) (expression index ((statement atoms').drop k)) := by
  rcases counted.statement_split left with ⟨none, none'⟩ | ⟨q, r, total, value, after⟩
  · rw [none, none']
    exact .error rfl
  · generalize (statement atoms).drop k = list at value
    generalize (statement atoms').drop k = list' at value
    cases value with
    | nil => exact .error rfl
    | cons here later =>
        refine .ok ⟨_, r, total, Rewritten.intercalate " " ?_, after⟩
        exact (Counted.cons here later).map fun _ _ _ rewritten => rewritten.text

/-- A literal among arguments goes from the atoms ahead to the argument being read. -/
theorem argumentsFrom_together (counted : AtomsRewritten old new n atoms atoms') {p q : Nat}
    {args args' current current' : List String} (done : Counted (Rewritten old new) p args args')
    (pending : Counted (Rewritten old new) q current current') (taken index : Nat) :
    Together SamePlace (Reads old new (Counted (Rewritten old new)) (p + q + n) taken atoms atoms')
      (argumentsFrom args current taken index atoms)
      (argumentsFrom args' current' taken index atoms') := by
  induction counted generalizing args args' current current' p q taken index with
  | nil => exact .error rfl
  | @cons m n a b rest rest' here later ih =>
      have joined : Counted (Rewritten old new) (q + p) (spaced current.reverse :: args)
          (spaced current'.reverse :: args') :=
        .cons (Rewritten.intercalate " " pending.reverse) done
      have none {text : String} (is : a.is text = true) : m = 0 :=
        (here.eq_of_kind (Atom.kind_of_is is)).1
      simp only [argumentsFrom, ← here.is_eq, ← pending.isEmpty_eq, ← done.isEmpty_eq]
      split
      · rename_i closes
        have plain := none closes
        subst plain
        split
        · refine .ok ⟨1, q + p, n, rfl, rfl, by omega, joined.reverse, ?_⟩
          exact later
        · split
          · exact .error rfl
          · rename_i noCurrent noArgs
            have noneCurrent := pending.zero_of_isEmpty (by simpa using noCurrent)
            have noneArgs := done.zero_of_isEmpty (by simpa using noArgs)
            refine .ok ⟨1, 0, n, rfl, rfl, by omega, .nil, ?_⟩
            exact later
      · split
        · rename_i comma
          have plain := none comma
          subst plain
          split
          · exact .error rfl
          · have next := ih joined .nil (taken + 1) (index + 1)
            rw [show q + p + 0 + n = p + q + (0 + n) by omega] at next
            exact next.imp fun _ _ => Reads.later
        · split
          · exact .error rfl
          · have next := ih done (.cons here.text pending) (taken + 1) (index + 1)
            rw [show p + (m + q) + n = p + q + (m + n) by omega] at next
            exact next.imp fun _ _ => Reads.later

theorem elementsFrom_together (counted : AtomsRewritten old new n atoms atoms') {p : Nat}
    {texts texts' : List String} (done : Counted (Rewritten old new) p texts texts')
    (taken index : Nat) :
    Together SamePlace (Reads old new (Rewritten old new) (p + n) taken atoms atoms')
      (elementsFrom texts taken index atoms) (elementsFrom texts' taken index atoms') := by
  induction counted generalizing texts texts' p taken index with
  | nil => exact .error rfl
  | @cons m n a b rest rest' here later ih =>
      simp only [elementsFrom, ← here.is_eq]
      split
      · rename_i closes
        obtain ⟨rfl, -⟩ := here.eq_of_kind (Atom.kind_of_is closes)
        refine .ok ⟨1, p, n, rfl, rfl, by omega, Rewritten.join done.reverse, ?_⟩
        exact later
      · split
        · exact .error rfl
        · have next := ih (.cons here.text done) (taken + 1) (index + 1)
          rw [show m + p + n = p + (m + n) by omega] at next
          exact next.imp fun _ _ => Reads.later

end AtomsRewritten

end Pieces

/-- The states differ in this many literals of their lines. -/
structure Translator.Rewritten (old new : String) (n : Nat) (t t' : Translator) : Prop where
  lines : Counted (DawnC.Rewritten old new) n t.lines t'.lines
  others : t' = { t with lines := t'.lines }

/-- Both constructs took the same number of atoms. The literals are in the lines and in what is left of
the atoms. -/
def Conserves (old new : String) (total : Nat) (atoms atoms' : List Atom) (r r' : Nat × Translator) :
    Prop :=
  r.1 = r'.1 ∧ ∃ m s, m + s = total ∧ Translator.Rewritten old new m r.2 r'.2 ∧
    AtomsRewritten old new s (atoms.drop r.1) (atoms'.drop r.1)

namespace Translator.Rewritten

variable {old new : String} {m n : Nat} {t t' : Translator} {a : Atom} {rest rest' : List Atom}

theorem emit (state : Translator.Rewritten old new m t t') {q : Nat} {line line' : String}
    (rewritten : DawnC.Rewritten old new q line line') :
    Translator.Rewritten old new (m + q) (t.emit line) (t'.emit line') := by
  refine ⟨state.lines.append (.single rewritten), ?_⟩
  rw [state.others]
  rfl

theorem emit_same (state : Translator.Rewritten old new m t t') (line : String) :
    Translator.Rewritten old new m (t.emit line) (t'.emit line) :=
  state.emit (.same line)

theorem conserves (state : Translator.Rewritten old new m t t') {k q s : Nat} {line line' : String}
    (rewritten : DawnC.Rewritten old new q line line') (sum : q + s = n) {atoms atoms' : List Atom}
    (left : AtomsRewritten old new s (atoms.drop k) (atoms'.drop k)) :
    Conserves old new (m + n) atoms atoms' (k, t.emit line) (k, t'.emit line') :=
  ⟨rfl, m + q, s, by omega, state.emit rewritten, left⟩

theorem withSymbols (state : Translator.Rewritten old new m t t') (symbols : SymbolTable) :
    Translator.Rewritten old new m { t with symbols } { t' with symbols } := by
  refine ⟨state.lines, ?_⟩
  rw [state.others]

theorem symbols_eq (state : Translator.Rewritten old new m t t') : t'.symbols = t.symbols := by
  rw [state.others]

theorem blocks_eq (state : Translator.Rewritten old new m t t') : t'.blocks = t.blocks := by
  rw [state.others]

theorem arguments_together (counted : AtomsRewritten old new n rest rest') (i : Nat) :
    Together SamePlace
      (fun r r' => r.2 = r'.2 ∧ ∃ q s, q + s = n ∧ Counted (DawnC.Rewritten old new) q r.1 r'.1 ∧
        AtomsRewritten old new s ((a :: rest).drop (1 + r.2)) ((a :: rest').drop (1 + r.2)))
      (arguments i ((a :: rest).drop 1)) (arguments i ((a :: rest').drop 1)) := by
  refine (counted.argumentsFrom_together .nil .nil 0 i).imp ?_
  rintro ⟨args, taken⟩ ⟨args', taken'⟩ ⟨k, q, s, count, count', sum, related, left⟩
  dsimp only at count count' related
  rw [Nat.zero_add] at count count'
  subst count count'
  refine ⟨rfl, q, s, by omega, related, ?_⟩
  rw [Nat.add_comm 1, List.drop_succ_cons, List.drop_succ_cons]
  exact left

theorem print_together (state : Translator.Rewritten old new m t t')
    (counted : AtomsRewritten old new n rest rest') (i : Nat) :
    Together SamePlace (Conserves old new (m + n) (a :: rest) (a :: rest'))
      (t.print i (a :: rest)) (t'.print i (a :: rest')) := by
  unfold Translator.print
  refine (arguments_together counted (i + 1)).bind ?_
  rintro ⟨args, taken⟩ ⟨args', _⟩ ⟨rfl, q, s, sum, related, left⟩
  cases related with
  | nil => exact .error rfl
  | cons here later =>
      cases later with
      | cons second later => exact .error rfl
      | nil => exact .ok (state.conserves (here.between "printf(" ");") sum left)

theorem printFormatted_together (state : Translator.Rewritten old new m t t')
    (counted : AtomsRewritten old new n rest rest') (i : Nat) (keyword verb : String) :
    Together SamePlace (Conserves old new (m + n) (a :: rest) (a :: rest'))
      (t.printFormatted i (a :: rest) keyword verb)
      (t'.printFormatted i (a :: rest') keyword verb) := by
  unfold Translator.printFormatted
  refine (arguments_together counted (i + 1)).bind ?_
  rintro ⟨args, taken⟩ ⟨args', _⟩ ⟨rfl, q, s, sum, related, left⟩
  cases related with
  | nil => exact .error rfl
  | cons here later =>
      cases later with
      | cons second later => exact .error rfl
      | nil =>
          exact .ok (state.conserves (here.between ("printf(\"" ++ verb ++ "\\n\", ") ");") sum left)

/-- The name of a list is an identifier, so it has no literal in it. -/
theorem printListElement_together (quoted : IsQuoted old) (quoted' : IsQuoted new)
    (named : ∀ name, t.symbols.classOf name = .intList → isIdentifier name = true)
    (state : Translator.Rewritten old new m t t') (counted : AtomsRewritten old new n rest rest')
    (i : Nat) :
    Together SamePlace (Conserves old new (m + n) (a :: rest) (a :: rest'))
      (t.printListElement i (a :: rest)) (t'.printListElement i (a :: rest')) := by
  unfold Translator.printListElement
  rw [state.symbols_eq]
  refine (arguments_together counted (i + 1)).bind ?_
  rintro ⟨args, taken⟩ ⟨args', _⟩ ⟨rfl, q, s, sum, related, left⟩
  cases related with
  | nil => exact .error rfl
  | @cons m₁ n₁ list list' _ _ here later =>
      cases later with
      | nil => exact .error rfl
      | @cons m₂ n₂ position position' _ _ second later =>
          cases later with
          | cons third later => exact .error rfl
          | nil =>
              rcases here.isIdentifier_eq quoted quoted' with ⟨rfl, rfl⟩ | ⟨noName, noName'⟩
              · dsimp only
                split
                · exact .ok (state.conserves
                    (second.between ("printf(\"%d\\n\", " ++ list ++ "[") "]);") (by omega) left)
                · exact .error rfl
              · have noList (isList : t.symbols.classOf list = .intList) : False := by
                  rw [named list isList] at noName
                  cases noName
                have noList' (isList : t.symbols.classOf list' = .intList) : False := by
                  rw [named list' isList] at noName'
                  cases noName'
                dsimp only
                rw [if_neg noList, if_neg noList']
                exact .error rfl

/-- Arguments that are names have no literal in them. -/
theorem unresolvedArgument?_eq (quoted : IsQuoted old) (quoted' : IsQuoted new) {q : Nat}
    {args args' : List String} (related : Counted (DawnC.Rewritten old new) q args args')
    (symbols : SymbolTable) (position : Nat) :
    unresolvedArgument? symbols position args = unresolvedArgument? symbols position args' := by
  induction related generalizing position with
  | nil => rfl
  | cons here later ih =>
      rcases here.isIdentifier_eq quoted quoted' with ⟨-, rfl⟩ | ⟨noName, noName'⟩
      · simp only [unresolvedArgument?, ih]
      · simp [unresolvedArgument?, noName, noName', ih]

theorem call_together (quoted : IsQuoted old) (quoted' : IsQuoted new)
    (state : Translator.Rewritten old new m t t') (counted : AtomsRewritten old new n rest rest')
    (i : Nat) (name : String) :
    Together SamePlace (Conserves old new (m + n) (a :: rest) (a :: rest'))
      (t.call i (a :: rest) name) (t'.call i (a :: rest') name) := by
  unfold Translator.call
  rw [state.symbols_eq]
  refine (arguments_together counted (i + 1)).bind ?_
  rintro ⟨args, taken⟩ ⟨args', _⟩ ⟨rfl, q, s, sum, related, left⟩
  have resolved : unresolvedArgument? t.symbols 1 args = unresolvedArgument? t.symbols 1 args' :=
    unresolvedArgument?_eq quoted quoted' related t.symbols 1
  dsimp only
  rw [← resolved]
  split
  · exact .error rfl
  · exact .ok (state.conserves ((DawnC.Rewritten.intercalate ", " related).between (name ++ "(") ");")
      sum left)

theorem openBlock (state : Translator.Rewritten old new m t t') {q : Nat} {line line' : String}
    (rewritten : DawnC.Rewritten old new q line line') (kind : BlockKind) (opener : Nat) :
    Translator.Rewritten old new (m + q) (t.openBlock kind opener line)
      (t'.openBlock kind opener line') := by
  refine ⟨(state.emit rewritten).lines, ?_⟩
  rw [state.others]
  rfl

theorem closeBlock (state : Translator.Rewritten old new m t t') (b : Block) (outer : List Block) :
    Translator.Rewritten old new m (t.closeBlock b outer) (t'.closeBlock b outer) := by
  refine ⟨(state.emit_same "\x7d").lines, ?_⟩
  rw [state.others]
  rfl

theorem closeBrace (state : Translator.Rewritten old new m t t') (b : Block) (outer : List Block) :
    Translator.Rewritten old new m (t.closeBrace b outer) (t'.closeBrace b outer) := by
  refine ⟨state.lines, ?_⟩
  rw [state.others]
  rfl

theorem declaration_together (state : Translator.Rewritten old new m t t')
    (counted : AtomsRewritten old new n rest rest') (i : Nat) (cls : SymbolClass) :
    Together SamePlace (Conserves old new (m + n) (a :: rest) (a :: rest'))
      (t.declaration i (a :: rest) cls) (t'.declaration i (a :: rest') cls) := by
  have whole := counted.cons_same a
  unfold Translator.declaration
  rw [state.symbols_eq, ← whole.statement_length]
  refine (blind_expectName (i + 1)).bind (k := 1) counted fun name left => ?_
  refine (blind_expect "=" (i + 2)).bind (k := 2) left fun _ left => ?_
  refine (whole.expression_together (k := 3) left (i + 3)).bind ?_
  rintro value value' ⟨q, s, sum, rewritten, after⟩
  refine .bind_same fun symbols _ => ?_
  exact .ok ((state.withSymbols symbols).conserves
    (rewritten.between (declarator cls name ++ " = ") ";") sum after)

theorem intList_together (state : Translator.Rewritten old new m t t')
    (counted : AtomsRewritten old new n rest rest') (i : Nat) :
    Together SamePlace (Conserves old new (m + n) (a :: rest) (a :: rest'))
      (t.intList i (a :: rest)) (t'.intList i (a :: rest')) := by
  unfold Translator.intList
  rw [state.symbols_eq]
  refine (blind_expectName (i + 1)).bind (k := 1) counted fun name left => ?_
  refine (blind_expect "=" (i + 2)).bind (k := 2) left fun _ left => ?_
  refine (blind_expect "[" (i + 3)).bind (k := 3) left fun _ left => ?_
  refine (left.elementsFrom_together .nil 0 (i + 4)).bind ?_
  rintro ⟨elements, taken⟩ ⟨elements', taken'⟩ ⟨k, q, s, count, count', sum, rewritten, after⟩
  dsimp only at count count' rewritten
  rw [Nat.zero_add] at count count' sum
  subst count count'
  refine .bind_same fun symbols _ => ?_
  rw [List.drop_drop, List.drop_drop] at after
  exact .ok ((state.withSymbols symbols).conserves
    (rewritten.between ("int " ++ name ++ "[] = \x7b") "\x7d;") sum after)

theorem assignment_together (state : Translator.Rewritten old new m t t')
    (counted : AtomsRewritten old new n rest rest') (i : Nat) (name : String)
    (plain : ∀ a ∈ rest.head?, a.kind ≠ .string) :
    Together SamePlace (Conserves old new (m + n) (a :: rest) (a :: rest'))
      (t.assignment i (a :: rest) name) (t'.assignment i (a :: rest') name) := by
  have whole := counted.cons_same a
  have left : AtomsRewritten old new n ((a :: rest).drop 2) ((a :: rest').drop 2) :=
    AtomsRewritten.advance (k := 1) counted plain
  unfold Translator.assignment
  rw [← whole.statement_length]
  refine (whole.expression_together (k := 2) left (i + 2)).bind ?_
  rintro value value' ⟨q, s, sum, rewritten, after⟩
  exact .ok (state.conserves (rewritten.between (name ++ " = ") ";") sum after)

theorem conditional_together (state : Translator.Rewritten old new m t t')
    (counted : AtomsRewritten old new n rest rest') (i : Nat) :
    Together SamePlace (Conserves old new (m + n) (a :: rest) (a :: rest'))
      (t.conditional i (a :: rest)) (t'.conditional i (a :: rest')) := by
  have whole := counted.cons_same a
  unfold Translator.conditional
  rw [← whole.statement_length]
  refine (whole.expression_together (k := 1) counted (i + 1)).bind ?_
  rintro value value' ⟨q, s, sum, rewritten, after⟩
  exact .ok ⟨rfl, m + q, s, by omega, state.openBlock (rewritten.between "if(" ")\x7b") _ _, after⟩

theorem identifier_together (quoted : IsQuoted old) (quoted' : IsQuoted new)
    (state : Translator.Rewritten old new m t t') (counted : AtomsRewritten old new n rest rest')
    (i : Nat) :
    Together SamePlace (Conserves old new (m + n) (a :: rest) (a :: rest'))
      (t.identifier i (a :: rest) a) (t'.identifier i (a :: rest') a) := by
  -- an assignment goes on with `=`, which is no literal
  have assigns {b c : Atom} {later later' : List Atom} {k : Nat} (here : Atom.Rewritten old new k b c)
      (counted : AtomsRewritten old new n (b :: later) (c :: later')) :
      Together SamePlace (Conserves old new (m + n) (a :: b :: later) (a :: c :: later'))
        (if b.is "=" && a.stmt = b.stmt then t.assignment i (a :: b :: later) a.text
        else throw ⟨i, .expectedAssignment a.text⟩)
        (if c.is "=" && a.stmt = c.stmt then t'.assignment i (a :: c :: later') a.text
        else throw ⟨i, .expectedAssignment a.text⟩) := by
    rw [← here.is_eq, ← here.stmt]
    split
    · rename_i isAssignment
      refine state.assignment_together counted i a.text ?_
      rintro _ ⟨⟩
      simp only [Bool.and_eq_true] at isAssignment
      exact Atom.kind_of_is isAssignment.1
    · exact .error rfl
  have called := state.call_together quoted quoted' (a := a) counted i a.text
  unfold Translator.identifier
  rw [state.symbols_eq]
  cases counted with
  | nil =>
      split
      · exact .error rfl
      · exact .error rfl
      · exact called
      · exact .error rfl
      · exact .error rfl
  | cons here later =>
      split
      · exact assigns here (.cons here later)
      · exact assigns here (.cons here later)
      · exact called
      · exact .error rfl
      · exact .error rfl

theorem forLoop_together (state : Translator.Rewritten old new m t t')
    (counted : AtomsRewritten old new n rest rest') (i : Nat) :
    Together SamePlace (Conserves old new (m + n) (a :: rest) (a :: rest'))
      (t.forLoop i (a :: rest)) (t'.forLoop i (a :: rest')) := by
  unfold Translator.forLoop
  rw [state.symbols_eq]
  refine (blind_expectName (i + 1)).bind (k := 1) counted fun name left => ?_
  refine (blind_expect "from" (i + 2)).bind (k := 2) left fun _ left => ?_
  refine (blind_expectBound t.symbols (i + 3)).bind (k := 3) left fun low left => ?_
  refine (blind_expect "to" (i + 4)).bind (k := 4) left fun _ left => ?_
  refine (blind_expectBound t.symbols (i + 5)).bind (k := 5) left fun high left => ?_
  refine .bind_same fun symbols _ => ?_
  exact .ok ⟨rfl, m, n, rfl, (state.withSymbols symbols).openBlock (.same _) _ _, left⟩

theorem thenEnd_together (state : Translator.Rewritten old new m t t')
    (counted : AtomsRewritten old new n rest rest') (i : Nat) :
    Together SamePlace (Conserves old new (m + n) (a :: rest) (a :: rest'))
      (t.thenEnd i (a :: rest)) (t'.thenEnd i (a :: rest')) := by
  unfold Translator.thenEnd
  rw [state.blocks_eq]
  refine (blind_expect "end" (i + 1)).bind (k := 1) counted fun _ left => ?_
  split
  · split
    · exact .ok ⟨rfl, m, n, rfl, state.closeBlock _ _, left⟩
    · exact .error rfl
  · exact .error rfl

theorem alternative_together (state : Translator.Rewritten old new m t t')
    (counted : AtomsRewritten old new n rest rest') (i : Nat) {previous previous' : Option Atom}
    (before : previous.any (·.is "\x7d") = previous'.any (·.is "\x7d")) :
    Together SamePlace (Conserves old new (m + n) (a :: rest) (a :: rest'))
      (t.alternative i (a :: rest) previous a) (t'.alternative i (a :: rest') previous' a) := by
  have closed : t'.closed = t.closed := by rw [state.others]
  have opens : Together SamePlace (Conserves old new (m + n) (a :: rest) (a :: rest'))
      (pure (1, t.openBlock .alternative i "else\x7b"))
      (pure (1, t'.openBlock .alternative i "else\x7b")) :=
    .ok ⟨rfl, m, n, rfl, state.openBlock (.same _) _ _, counted⟩
  have joins : Together SamePlace (Conserves old new (m + n) (a :: rest) (a :: rest'))
      (pure (1, t.emit "else")) (pure (1, t'.emit "else")) :=
    .ok ⟨rfl, m, n, rfl, state.emit_same "else", counted⟩
  unfold Translator.alternative
  rw [before, closed]
  split
  · cases counted with
    | nil => exact opens
    | cons here later =>
        simp only [List.drop_succ_cons, List.drop_zero, ← here.is_eq, ← here.stmt]
        split
        · exact joins
        · exact opens
  · exact .error rfl

theorem parameters_together (symbols : SymbolTable) (index : Nat) {atoms atoms' : List Atom}
    (left : AtomsRewritten old new n (atoms.drop 2) (atoms'.drop 2)) :
    Together (fun e e' : Misstep × SymbolTable => SamePlace e.1 e'.1)
      (fun params params' => params = params' ∧
        AtomsRewritten old new n (atoms.drop (2 + params.taken)) (atoms'.drop (2 + params.taken)))
      (parameters symbols index (atoms.drop 2)) (parameters symbols index (atoms'.drop 2)) := by
  unfold parameters
  rw [← left.parametersFrom_eq]
  cases read : parametersFrom symbols [] 0 index .start (atoms.drop 2) with
  | error e => exact .error rfl
  | ok params =>
      obtain ⟨k, count, after⟩ := left.left_of_parametersFrom read
      rw [Nat.zero_add] at count
      rw [List.drop_drop, List.drop_drop, ← count] at after
      exact .ok ⟨rfl, after⟩

theorem function_together (state : Translator.Rewritten old new m t t')
    (counted : AtomsRewritten old new n rest rest') (i : Nat) :
    Together SameStep (Conserves old new (m + n) (a :: rest) (a :: rest'))
      (t.function i (a :: rest)) (t'.function i (a :: rest')) := by
  obtain ⟨lines, others⟩ : ∃ lines, t' = { t with lines } := ⟨_, state.others⟩
  subst others
  unfold Translator.function
  split
  · exact .error rfl
  · have left : AtomsRewritten old new n ((a :: rest).drop 1) ((a :: rest').drop 1) := counted
    refine (((blind_expectName (i + 1)).together left).mapError (F := SameStep)
      fun _ _ same => same).bind ?_
    rintro name _ ⟨rfl, left⟩
    refine ((parameters_together t.symbols (i + 2) left).mapError (F := SameStep)
      fun _ _ same => same).bind ?_
    rintro params _ ⟨rfl, left⟩
    have declared (prototypes : List String) : Translator.Rewritten old new m
        { t with symbols := params.symbols, prototypes }
        { t with symbols := params.symbols, prototypes, lines } := ⟨state.lines, rfl⟩
    dsimp only
    split
    · split
      · exact .error rfl
      · exact .ok ⟨rfl, m, n, rfl, (declared _).openBlock (.same _) _ _, left⟩
    · exact .ok ⟨rfl, m, n, rfl, (declared _).openBlock (.same _) _ _, left⟩

theorem blockClose_together (state : Translator.Rewritten old new m t t')
    (counted : AtomsRewritten old new n rest rest') (i : Nat) :
    Together SameStep (Conserves old new (m + n) (a :: rest) (a :: rest'))
      (t.blockClose i) (t'.blockClose i) := by
  have applies {t t' : Translator} (state : Translator.Rewritten old new m t t')
      (blocks : List Block) :
      Together SameStep (Conserves old new (m + n) (a :: rest) (a :: rest'))
        (Translator.blockClose.applyClose i t blocks)
        (Translator.blockClose.applyClose i t' blocks) := by
    cases blocks with
    | nil => exact .error rfl
    | cons b outer =>
        simp only [Translator.blockClose.applyClose]
        split
        · exact .ok ⟨rfl, m, n, rfl, state.closeBrace b outer, counted⟩
        · exact .ok ⟨rfl, m, n, rfl, state.closeBlock b outer, counted⟩
  unfold Translator.blockClose
  rw [state.blocks_eq]
  split
  · exact .error rfl
  · split
    · exact applies (state.closeBlock _ _) _
    · exact applies state _

theorem keeping_together {R : Nat × Translator → Nat × Translator → Prop}
    {x y : Except Misstep (Nat × Translator)} (together : Together SamePlace R x y) :
    Together SameStep R (t.keeping x) (t'.keeping y) :=
  together.mapError fun _ _ same => same

/-- One construct of both programs. -/
theorem construct_together (quoted : IsQuoted old) (quoted' : IsQuoted new)
    (named : ∀ name, t.symbols.classOf name = .intList → isIdentifier name = true)
    (state : Translator.Rewritten old new m t t') {b : Atom}
    (counted : AtomsRewritten old new n (a :: rest) (b :: rest')) (plain : a.isInclude = false)
    {previous previous' : Option Atom}
    (before : previous.any (·.is "\x7d") = previous'.any (·.is "\x7d")) (i : Nat) :
    Together SameStep (Conserves old new (m + n) (a :: rest) (b :: rest'))
      (t.construct previous i a (a :: rest)) (t'.construct previous' i b (b :: rest')) := by
  by_cases isString : a.kind = .string
  · have isString' : b.kind = .string := by
      cases counted with
      | cons here later => exact here.kind ▸ isString
    simp only [Translator.construct, isString, isString', Atom.is]
    exact .error rfl
  · obtain ⟨rfl, later⟩ := counted.tail isString
    unfold Translator.construct
    split
    · split
      · exact state.blockClose_together later i
      · exact .error rfl
    · rename_i isWord
      have isWord : a.kind = .word := by simpa using isWord
      simp only [Atom.isInclude, Atom.is, isWord] at plain
      split
      · exact keeping_together (state.print_together later i)
      · exact keeping_together (state.printFormatted_together later i _ _)
      · exact keeping_together (state.printFormatted_together later i _ _)
      · exact keeping_together (state.printListElement_together quoted quoted' named later i)
      · exact keeping_together (state.declaration_together later i _)
      · exact keeping_together (state.declaration_together later i _)
      · exact keeping_together (state.declaration_together later i _)
      · exact keeping_together (state.intList_together later i)
      · exact keeping_together (state.forLoop_together later i)
      · exact keeping_together (state.thenEnd_together later i)
      · exact state.function_together later i
      · exact keeping_together (state.conditional_together later i)
      · exact keeping_together (state.alternative_together later i before)
      · rename_i text
        simp [text] at plain
      · rename_i text
        simp [text] at plain
      · exact keeping_together (state.identifier_together quoted quoted' later i)

end Translator.Rewritten

end DawnC
