import DawnC.Code
import DawnC.Proofs.Literal.Constructs

set_option autoImplicit false

namespace DawnC

/-- Every variable of the table is an identifier. -/
def SymbolTable.NamesVariables (table : SymbolTable) : Prop :=
  ∀ name cls, table.get? name = some cls → cls.isVariable = true → isIdentifier name = true

theorem SymbolTable.NamesVariables.grows {table table' : SymbolTable} (named : table.NamesVariables)
    (grows : table.Grows IsVariableName table') : table'.NamesVariables := by
  intro name cls found isVariable
  rcases grows.adds name cls found with old | ⟨isName, -⟩
  · exact named name cls old isVariable
  · exact isName

section Walk

variable {old new : String} {m n total : Nat} {t t' : Translator} {atoms atoms' : List Atom}

namespace Translator.Rewritten

theorem closeRemaining_together (state : Translator.Rewritten old new m t t') (blocks : List Block) :
    Together SameStep (Translator.Rewritten old new m) (t.closeRemaining blocks)
      (t'.closeRemaining blocks) := by
  induction blocks generalizing t t' with
  | nil => exact .ok state
  | cons b outer ih =>
      simp only [Translator.closeRemaining]
      split
      · exact ih (state.closeBlock b outer)
      · exact .error rfl

/-- The walk conserves the literals: each is in the lines or ahead. -/
theorem walk_together (quoted : IsQuoted old) (quoted' : IsQuoted new)
    (counted : AtomsRewritten old new n atoms atoms') (plain : ∀ a ∈ atoms, a.isInclude = false)
    (state : Translator.Rewritten old new m t t') (named : t.symbols.NamesVariables) {r : Nat}
    {skip : Nat} (left : AtomsRewritten old new r (atoms.drop skip) (atoms'.drop skip))
    (sum : m + r = total) {previous previous' : Option Atom}
    (before : previous.any (·.is "\x7d") = previous'.any (·.is "\x7d")) (i : Nat) :
    Together SameStep (Translator.Rewritten old new total) (t.walk previous i skip atoms)
      (t'.walk previous' i skip atoms') := by
  induction counted generalizing t t' m r skip previous previous' i with
  | nil =>
      rw [List.drop_nil] at left
      have none := left.zero_of_isEmpty rfl
      have all : m = total := by omega
      subst all
      rw [Translator.walk, Translator.walk, state.blocks_eq]
      exact state.closeRemaining_together t.blocks
  | @cons p q a b rest rest' here later ih =>
      have next : (some a).any (·.is "\x7d") = (some b).any (·.is "\x7d") := here.is_eq _
      have plainRest : ∀ c ∈ rest, c.isInclude = false :=
        fun c member => plain c (List.mem_cons_of_mem a member)
      cases skip with
      | succ skip => exact ih plainRest state named left sum next (i + 1)
      | zero =>
          have lists (name : String) (isList : t.symbols.classOf name = .intList) :
              isIdentifier name = true :=
            named name .intList ((SymbolTable.classOf_eq (by decide)).mp isList) rfl
          have step := state.construct_together quoted quoted' lists left
            (plain a List.mem_cons_self) before i
          simp only [Translator.walk]
          generalize result : t.construct previous i a (a :: rest) = x at step
          generalize t'.construct previous' i b (b :: rest') = y at step
          cases step with
          | error same => exact .error same
          | @ok first second related =>
              obtain ⟨taken, t₁⟩ := first
              obtain ⟨taken', t₁'⟩ := second
              obtain ⟨same, m₁, s, count, state₁, left₁⟩ := related
              dsimp only at same
              subst same
              have effect := Translator.construct_effect result
              have positive := effect.pos
              have after : taken = taken - 1 + 1 := by omega
              dsimp only at left₁ state₁
              rw [after, List.drop_succ_cons, List.drop_succ_cons] at left₁
              exact ih plainRest state₁ (named.grows effect.grows) left₁ (count.trans sum) next (i + 1)

end Translator.Rewritten

end Walk

namespace AtomsRewritten

variable {old new : String} {n : Nat} {atoms atoms' : List Atom}

theorem declareFunctions_eq (counted : AtomsRewritten old new n atoms atoms') (table : SymbolTable)
    (index : Nat) : declareFunctions table index atoms = declareFunctions table index atoms' := by
  induction counted generalizing table index with
  | nil => rfl
  | cons here later ih =>
      cases later with
      | nil => simp only [declareFunctions, here.is_eq]
      | cons next later =>
          rw [declareFunctions, declareFunctions]
          cases next with
          | same => simp only [here.is_eq, ih]
          | literal isString => simp [here.is_eq, isString, ih]

theorem usesWord_eq (counted : AtomsRewritten old new n atoms atoms') (keyword : String) :
    usesWord atoms keyword = usesWord atoms' keyword := by
  induction counted with
  | nil => rfl
  | cons here later ih =>
      unfold usesWord at ih ⊢
      rw [List.any_cons, List.any_cons, ih]
      cases here with
      | same => rfl
      | literal isString => simp [isString]

theorem requiredHeaders_eq (counted : AtomsRewritten old new n atoms atoms') (headers : List String) :
    requiredHeaders atoms headers = requiredHeaders atoms' headers := by
  simp only [requiredHeaders, counted.usesWord_eq]

theorem place_eq (counted : AtomsRewritten old new n atoms atoms') (i : Nat) :
    atoms[i]?.map (fun a => (a.file, a.line)) = atoms'[i]?.map fun a => (a.file, a.line) := by
  induction counted generalizing i with
  | nil => rfl
  | cons here later ih =>
      cases i with
      | zero => simp [here.place]
      | succ i => exact ih i

end AtomsRewritten

/-- Both fail in the same phase at the same atom, or both succeed with the same symbols, headers and
prototypes, and with lines that differ in one place, where the one has `old` and the other `new`. -/
inductive SameButLiteral (old new : String) : Progress → Progress → Prop where
  | ok {u v : CompilationUnit} {front back : List String} {start rest : String}
      (symbols : u.symbols = v.symbols) (headers : u.headers = v.headers)
      (prototypes : u.prototypes = v.prototypes)
      (lines : u.lines = front ++ (start ++ old ++ rest) :: back)
      (lines' : v.lines = front ++ (start ++ new ++ rest) :: back) :
      SameButLiteral old new (.ok u) (.ok v)
  | error {phase : Phase} {file : String} {line index : Int} {atom atom' : String}
      {cause cause' : Option Fault} {u v : CompilationUnit} :
      SameButLiteral old new (.error (.phase phase file line index atom cause, u))
        (.error (.phase phase file line index atom' cause', v))

theorem SameButLiteral.enter {old new : String} {x y : Progress} (same : SameButLiteral old new x y)
    (phase : Phase) :
    SameButLiteral old new (x >>= fun u => pure (u.enter phase))
      (y >>= fun u => pure (u.enter phase)) := by
  cases same with
  | ok symbols headers prototypes lines lines' => exact .ok symbols headers prototypes lines lines'
  | error => exact .error

namespace CompilationUnit

variable {old new : String} {n : Nat} {atoms atoms' : List Atom}

theorem failMisstep_rewritten (counted : AtomsRewritten old new n atoms atoms') (u : CompilationUnit)
    {m m' : Misstep} (same : SamePlace m m') (v v' : CompilationUnit) :
    SameButLiteral old new (.error ({ u with atoms }.failMisstep m, v))
      (.error ({ u with atoms := atoms' }.failMisstep m', v')) := by
  have place := counted.place_eq m.index
  have inside : ¬ (m.index : Int) < 0 := by omega
  simp only [failMisstep, failAt, atom?, ← same, if_neg inside, Int.toNat_natCast]
  cases found : atoms[m.index]? with
  | none =>
      rw [found, Option.map_none, eq_comm, Option.map_eq_none_iff] at place
      rw [place]
      exact .error
  | some a =>
      rw [found, Option.map_some, eq_comm, Option.map_eq_some_iff] at place
      obtain ⟨b, found', place⟩ := place
      rw [Prod.mk.injEq] at place
      simp only [found', place.1, place.2]
      exact .error

/-- The translation of two programs that differ in one literal. -/
theorem translate_rewritten (quoted : IsQuoted old) (quoted' : IsQuoted new)
    (counted : AtomsRewritten old new 1 atoms atoms') (plain : ∀ a ∈ atoms, a.isInclude = false)
    (u : CompilationUnit) (fresh : u.lines = []) (named : u.symbols.NamesVariables) :
    SameButLiteral old new { u with atoms }.translate { u with atoms := atoms' }.translate := by
  have start : Translator.Rewritten old new 0 u.translator u.translator := by
    refine ⟨?_, rfl⟩
    rw [translator, fresh]
    exact .nil
  have ahead : AtomsRewritten old new 1 (atoms.drop 0) (atoms'.drop 0) := counted
  have walked : Together SameStep (Translator.Rewritten old new 1)
      (u.translator.walk none 0 0 atoms) (u.translator.walk none 0 0 atoms') :=
    start.walk_together quoted quoted' counted plain named ahead (Nat.zero_add 1) rfl 0
  have whole (atoms : List Atom) : ({ u with atoms }.enter .convert).translator.walk none 0 0
      ({ u with atoms }.enter .convert).atoms = u.translator.walk none 0 0 atoms := rfl
  simp only [translate, whole]
  generalize u.translator.walk none 0 0 atoms = first at walked
  generalize u.translator.walk none 0 0 atoms' = second at walked
  cases walked with
  | error same => exact failMisstep_rewritten counted (u.enter .convert) same _ _
  | ok related =>
      obtain ⟨front, back, line, line', shape, shape', rewritten⟩ :=
        related.lines.one fun _ _ none => none.eq_of_zero
      obtain ⟨start, rest, text, text'⟩ := rewritten.one
      subst text text'
      rw [related.others]
      exact .ok rfl rfl rfl shape shape'

/-- The phases after reading, for two programs that differ in one literal. -/
theorem convert_rewritten (quoted : IsQuoted old) (quoted' : IsQuoted new)
    (counted : AtomsRewritten old new 1 atoms atoms') (plain : ∀ a ∈ atoms, a.isInclude = false)
    (file : String) :
    SameButLiteral old new ({ file, atoms } : CompilationUnit).convert
      ({ file, atoms := atoms' } : CompilationUnit).convert := by
  rw [convert_eq, convert_eq]
  simp only [analyze, scanFunctions, resolveImports, enter, ← counted.declareFunctions_eq]
  cases declared : declareFunctions .empty 0 atoms with
  | error e => exact failMisstep_rewritten counted { file, phase := .functionScan } rfl _ _
  | ok symbols =>
      have named : symbols.NamesVariables := by
        intro name cls found isVariable
        rcases (declareFunctions_grows declared).adds name cls found with old | rfl
        · cases old
        · cases isVariable
      dsimp only
      rw [← counted.requiredHeaders_eq]
      exact (translate_rewritten quoted quoted' counted plain
        { file, symbols, headers := requiredHeaders atoms [], phase := .importScan } rfl named).enter
          .writeC

end CompilationUnit

/-- The text of a literal is copied and never looked at: the program with another literal in its place
fails in the same phase at the same atom, or comes to lines that differ in the copy only. -/
theorem translation_blind_to_literals (file : String) (before after : List Atom) (a : Atom)
    (new : String) (isString : a.kind = .string) (quoted : IsQuoted a.text) (quoted' : IsQuoted new)
    (plain : ∀ b ∈ before ++ a :: after, b.isInclude = false) :
    SameButLiteral a.text new
      ({ file, atoms := before ++ a :: after } : CompilationUnit).convert
      ({ file, atoms := before ++ { a with text := new } :: after } : CompilationUnit).convert := by
  have same (atoms : List Atom) : AtomsRewritten a.text new 0 atoms atoms := by
    induction atoms with
    | nil => exact .nil
    | cons b rest ih => exact ih.cons_same b
  have counted : AtomsRewritten a.text new 1 (before ++ a :: after)
      (before ++ { a with text := new } :: after) :=
    (same before).append (.cons (.literal isString rfl) (same after))
  exact CompilationUnit.convert_rewritten quoted quoted' counted plain file

/-- A literal that reads like code: the brace in it closes no block, the comma parts no arguments, and
its parenthesis ends no call. -/
theorem translation_blind_to_literals_brace :
    let atoms := lex "a.dawn"
      (["function main() \x7b", "print(\"hi\")", "\x7d"].map Utf8.encode)
    let a : Atom := ⟨"\"hi\"", .string, "a.dawn", 2, 3⟩
    let new := "\"\x7d then end, x) function\""
    atoms = atoms.take 4 ++ a :: atoms.drop 5 ∧ a.kind = .string ∧ IsQuoted a.text ∧ IsQuoted new ∧
      (∀ b ∈ atoms.take 4 ++ a :: atoms.drop 5, b.isInclude = false) ∧
      SameButLiteral "\"hi\"" new
        ({ file := "a.dawn", atoms := atoms.take 4 ++ a :: atoms.drop 5 } : CompilationUnit).convert
        ({ file := "a.dawn", atoms := atoms.take 4 ++ { a with text := new } :: atoms.drop 5 } :
          CompilationUnit).convert := by
  intro atoms a new
  have plain : ∀ b ∈ atoms.take 4 ++ a :: atoms.drop 5, b.isInclude = false := by decide
  have quoted : IsQuoted a.text := by decide
  have quoted' : IsQuoted new := by decide
  refine ⟨by decide, rfl, quoted, quoted', plain, ?_⟩
  exact translation_blind_to_literals "a.dawn" (atoms.take 4) (atoms.drop 5) a new rfl quoted quoted'
    plain

end DawnC
