import DawnC.Atom.Lexer
import DawnC.Proofs.Run
import Mathlib.Data.List.Induction

set_option autoImplicit false

namespace DawnC

namespace SymbolTable

variable {table table' : SymbolTable} {name : String} {cls : SymbolClass}

def Step (table table' : SymbolTable) : Prop := ∃ name cls, table.declare name cls = .ok table'

abbrev Evolves : SymbolTable → SymbolTable → Prop := Relation.ReflTransGen Step

theorem Evolves.of_declare (declared : table.declare name cls = .ok table') : table.Evolves table' :=
  .single ⟨name, cls, declared⟩

theorem get?_eq_some : table.get? name = some cls ↔ (name, cls) ∈ table.entries := by
  rw [get?, List.lookup_eq_some_iff]
  constructor
  · rintro ⟨before, after, split, -⟩
    rw [split]
    exact List.mem_append_right _ List.mem_cons_self
  · intro member
    obtain ⟨before, after, split⟩ := List.append_of_mem member
    refine ⟨before, after, split, fun entry earlier => ?_⟩
    have distinct := table.distinct
    rw [split, List.map_append, List.map_cons, List.nodup_append] at distinct
    rw [bne_iff_ne]
    exact (distinct.2.2 _ (List.mem_map_of_mem earlier) _ List.mem_cons_self).symm

/-- A declared name keeps its class. -/
theorem Evolves.keeps (evolves : table.Evolves table') (found : table.get? name = some cls) :
    table'.get? name = some cls := by
  induction evolves with
  | refl => exact found
  | tail _ step ih =>
      obtain ⟨other, cls', declared⟩ := step
      exact (Grows.of_declare (P := fun _ _ => True) declared trivial).keeps name cls ih

theorem mem_names : name ∈ table.names cls ↔ table.get? name = some cls := by
  rw [get?_eq_some, names, List.mem_mergeSort, List.mem_map]
  constructor
  · rintro ⟨entry, kept, rfl⟩
    obtain ⟨member, same⟩ := List.mem_filter.mp kept
    rw [decide_eq_true_eq] at same
    rw [← same]
    exact member
  · intro member
    exact ⟨(name, cls), List.mem_filter.mpr ⟨member, decide_eq_true rfl⟩, rfl⟩

/-- The names of a class are sorted and none is there twice. -/
theorem pairwise_names (table : SymbolTable) (cls : SymbolClass) : (table.names cls).Pairwise (· < ·) := by
  have sorted : (table.names cls).Pairwise fun a b => decide (a ≤ b) = true := by
    refine List.pairwise_mergeSort (fun a b c first second => ?_) (fun a b => ?_) _
    · rw [decide_eq_true_eq] at first second ⊢
      exact String.le_trans first second
    · rw [Bool.or_eq_true, decide_eq_true_eq, decide_eq_true_eq]
      exact String.le_total a b
  have once : (table.names cls).Nodup :=
    (List.mergeSort_perm _ _).nodup_iff.mpr (table.distinct.sublist (List.filter_sublist.map Prod.fst))
  refine (sorted.and once).imp fun {a b} both => ?_
  have before : a ≤ b := of_decide_eq_true both.1
  by_contra after
  exact both.2 (String.le_antisymm before (String.not_lt.mp after))

/-- The names by class are sorted lists without repetition, and share out what was declared. -/
structure Partitioned (table : SymbolTable) : Prop where
  sorted : ∀ cls, (table.names cls).Pairwise (· < ·)
  disjoint : ∀ cls cls', cls ≠ cls' → (table.names cls).Disjoint (table.names cls')
  members : ∀ name cls, name ∈ table.names cls ↔ table.get? name = some cls

theorem partitioned (table : SymbolTable) : table.Partitioned where
  sorted := table.pairwise_names
  disjoint := by
    intro cls cls' different name first second
    rw [mem_names] at first second
    rw [first, Option.some.injEq] at second
    exact different second
  members := fun _ _ => mem_names

end SymbolTable

/-- What work leaves behind: its result, or what it had reached when it failed. -/
def left {ε σ τ : Type} (state : τ → σ) : Except (ε × σ) τ → σ
  | .ok result => state result
  | .error (_, reached) => reached

theorem parametersFrom_evolves (symbols : SymbolTable) (texts : List String) (taken index : Nat)
    (state : ParameterState) (atoms : List Atom) :
    symbols.Evolves
      (left Parameters.symbols (parametersFrom symbols texts taken index state atoms)) := by
  fun_induction parametersFrom symbols texts taken index state atoms with
  | case2 symbols texts taken index cls a rest isName symbols' declared ih =>
      exact (SymbolTable.Evolves.of_declare declared).trans ih
  | case6 symbols texts taken index a rest notClose isComma ih => exact ih
  | case9 symbols texts taken index a rest notClose cls found ih => exact ih
  | case11 symbols texts taken index a rest cls found ih => exact ih
  | _ => exact .refl

theorem parameters_evolves (symbols : SymbolTable) (index : Nat) (atoms : List Atom) :
    symbols.Evolves (left Parameters.symbols (parameters symbols index atoms)) :=
  parametersFrom_evolves symbols [] 0 index .start atoms

theorem declareFunctions_evolves (table : SymbolTable) (index : Nat) (atoms : List Atom) :
    table.Evolves (left id (declareFunctions table index atoms)) := by
  fun_induction declareFunctions table index atoms with
  | case2 table index a rest other ih => exact ih
  | case5 table index a keyword name rest word isEntry ih => exact ih
  | case7 table index a keyword name rest word notEntry table' declared ih =>
      exact (SymbolTable.Evolves.of_declare declared).trans ih
  | _ => exact .refl

namespace Translator

variable {t t' : Translator} {previous : Option Atom} {i n : Nat} {a : Atom} {rest : List Atom}
  {m : Misstep}

theorem Effect.evolves (effect : Effect t previous i a rest n t') :
    t.symbols.Evolves t'.symbols := by
  have params_evolves {tail : List Atom} {params : Parameters}
      (read : parameters t.symbols (i + 2) tail = .ok params) : t.symbols.Evolves params.symbols := by
    have evolves := parameters_evolves t.symbols (i + 2) tail
    rw [read] at evolves
    exact evolves
  cases effect with
  | declaration word scalar shape isName isEquals value declared => exact .of_declare declared
  | intList word shape isName isEquals isBracket read declared => exact .of_declare declared
  | forLoop word shape isName isFrom lowBound isTo highBound declared => exact .of_declare declared
  | mainFunction word atTop shape isMain read bare => exact params_evolves read
  | namedFunction word atTop shape isName notMain read => exact params_evolves read
  | closeBrace notWord brace blocks isLoop =>
      rw [closeBrace_symbols, settle_symbols]
  | closeBlock notWord brace blocks notLoop =>
      rw [closeBlock_symbols, settle_symbols]
  | _ => exact .refl

/-- The parameters that were read before a function failed stay declared, and nothing else is. -/
theorem function_evolves (failed : t.function i (a :: rest) = .error (m, t')) :
    t.symbols.Evolves t'.symbols := by
  simp only [function] at failed
  split at failed
  · cases failed
    exact .refl
  rcases bind_eq_error.mp failed with failed | ⟨name, -, failed⟩
  · obtain ⟨m', -, same⟩ := mapError_eq_error.mp failed
    cases same
    exact .refl
  have evolves := parameters_evolves t.symbols (i + 2) ((a :: rest).drop 2)
  rcases bind_eq_error.mp failed with failed | ⟨params, read, failed⟩
  · obtain ⟨⟨m', symbols⟩, unread, same⟩ := mapError_eq_error.mp failed
    cases same
    rw [unread] at evolves
    exact evolves
  · rw [mapError_eq_ok.mp read] at evolves
    split at failed
    · split at failed
      · cases failed
        exact evolves
      · cases failed
    · cases failed

theorem blockClose_symbols (failed : t.blockClose i = .error (m, t')) : t'.symbols = t.symbols := by
  rw [applyClose_settle] at failed
  cases blocks : t.settle.blocks with
  | nil =>
      rw [blocks] at failed
      cases failed
      exact settle_symbols
  | cons b outer =>
      rw [blocks, blockClose.applyClose] at failed
      split at failed
      · cases failed
      · cases failed

theorem keeping_state {result : Except Misstep (Nat × Translator)}
    (failed : t.keeping result = .error (m, t')) : t' = t := by
  obtain ⟨m', -, same⟩ := mapError_eq_error.mp failed
  cases same
  rfl

/-- A construct that fails leaves the state as it was, unless it is a function or a closing brace. -/
theorem construct_error_cases (failed : t.construct previous i a (a :: rest) = .error (m, t')) :
    t' = t ∨ t.function i (a :: rest) = .error (m, t') ∨ t.blockClose i = .error (m, t') := by
  simp only [construct] at failed
  split at failed
  · split at failed
    · exact Or.inr (Or.inr failed)
    · cases failed
      exact Or.inl rfl
  · split at failed
    case h_11 => exact Or.inr (Or.inl failed)
    case h_14 => cases failed
    case h_15 => cases failed
    all_goals exact Or.inl (keeping_state failed)

theorem construct_evolves (t : Translator) (previous : Option Atom) (i : Nat) (a : Atom)
    (rest : List Atom) :
    t.symbols.Evolves (left Prod.snd (t.construct previous i a (a :: rest))).symbols := by
  cases result : t.construct previous i a (a :: rest) with
  | ok done => exact (construct_effect result).evolves
  | error failure =>
      rcases construct_error_cases result with same | failed | failed
      · exact same ▸ .refl
      · exact function_evolves failed
      · exact blockClose_symbols failed ▸ .refl

theorem closeRemaining_symbols (t : Translator) (blocks : List Block) :
    (left id (t.closeRemaining blocks)).symbols = t.symbols := by
  induction blocks generalizing t with
  | nil => rfl
  | cons b outer ih =>
      rw [closeRemaining]
      split
      · rw [ih, closeBlock_symbols]
      · rfl

theorem walk_evolves (t : Translator) (previous : Option Atom) (i skip : Nat) (atoms : List Atom) :
    t.symbols.Evolves (left id (t.walk previous i skip atoms)).symbols := by
  fun_induction walk t previous i skip atoms with
  | case1 t previous i skip =>
      rw [closeRemaining_symbols]
  | case2 t previous i skip a rest ih => exact ih
  | case3 t previous i a rest failure failed =>
      have evolves := construct_evolves t previous i a rest
      rw [failed] at evolves
      exact evolves
  | case4 t previous i a rest taken t' accepted ih =>
      exact (construct_effect accepted).evolves.trans ih

end Translator

/-- What can be done with a unit that may declare names. -/
inductive SymbolStep where
  | declare (name : String) (cls : SymbolClass)
  | scanFunctions
  | analyze
  | translate

namespace CompilationUnit

def declare (u : CompilationUnit) (name : String) (cls : SymbolClass) : Progress :=
  match u.symbols.declare name cls with
  | .ok symbols => .ok { u with symbols }
  | .error v => .error (.violation v, u)

def perform (u : CompilationUnit) : SymbolStep → Progress
  | .declare name cls => u.declare name cls
  | .scanFunctions => u.scanFunctions
  | .analyze => u.analyze
  | .translate => u.translate

/-- The unit after some steps, each of which may have failed. -/
def after (u : CompilationUnit) (steps : List SymbolStep) : CompilationUnit :=
  steps.foldl (fun u step => left id (u.perform step)) u

variable {u v : CompilationUnit} {name : String} {cls : SymbolClass}

theorem declare_eq_ok (declared : u.declare name cls = .ok v) :
    u.symbols.declare name cls = .ok v.symbols := by
  rw [declare] at declared
  split at declared
  · rename_i symbols success
    cases declared
    exact success
  · cases declared

theorem declare_eq_error {failure : Fault × CompilationUnit}
    (failed : u.declare name cls = .error failure) : failure.2 = u := by
  rw [declare] at failed
  split at failed
  · cases failed
  · cases failed
    rfl

theorem declare_fails :
    (∃ failure, u.declare name cls = .error failure) ↔
      ∃ old, u.symbols.get? name = some old ∧ old ≠ cls := by
  constructor
  · rintro ⟨failure, failed⟩
    by_contra free
    have same : ∀ old, u.symbols.get? name = some old → old = cls := fun old found =>
      by_contra fun different => free ⟨old, found, different⟩
    obtain ⟨table, declared⟩ := SymbolTable.declare_isOk.mpr same
    rw [declare, declared] at failed
    cases failed
  · rintro ⟨old, found, different⟩
    cases result : u.declare name cls with
    | ok v => exact absurd (SymbolTable.declare_isOk.mp ⟨_, declare_eq_ok result⟩ old found) different
    | error failure => exact ⟨failure, rfl⟩

theorem scanFunctions_evolves (u : CompilationUnit) :
    u.symbols.Evolves (left id u.scanFunctions).symbols := by
  have evolves := declareFunctions_evolves u.symbols 0 u.atoms
  rw [scanFunctions]
  cases scanned : declareFunctions u.symbols 0 u.atoms with
  | ok symbols =>
      rw [scanned] at evolves
      exact evolves
  | error failure =>
      rw [scanned] at evolves
      exact evolves

theorem perform_evolves (u : CompilationUnit) (step : SymbolStep) :
    u.symbols.Evolves (left id (u.perform step)).symbols := by
  cases step with
  | declare name cls =>
      rw [perform]
      cases result : u.declare name cls with
      | ok v => exact .of_declare (declare_eq_ok result)
      | error failure => exact declare_eq_error result ▸ .refl
  | scanFunctions => exact u.scanFunctions_evolves
  | analyze =>
      have evolves := (u.enter .functionScan).scanFunctions_evolves
      rw [perform, analyze]
      cases scanned : (u.enter .functionScan).scanFunctions with
      | ok v =>
          rw [scanned] at evolves
          exact evolves
      | error failure =>
          rw [scanned] at evolves
          exact evolves
  | translate =>
      have evolves := (u.enter .convert).translator.walk_evolves none 0 0 (u.enter .convert).atoms
      simp only [perform, translate]
      cases walked : (u.enter .convert).translator.walk none 0 0 (u.enter .convert).atoms with
      | ok t =>
          rw [walked] at evolves
          exact evolves
      | error failure =>
          rw [walked] at evolves
          exact evolves

theorem after_append (u : CompilationUnit) (steps more : List SymbolStep) :
    u.after (steps ++ more) = (u.after steps).after more :=
  List.foldl_append

/-- What was declared by any steps, the table had them one after the other. -/
theorem after_evolves (u : CompilationUnit) (steps : List SymbolStep) :
    u.symbols.Evolves (u.after steps).symbols := by
  induction steps using List.reverseRecOn with
  | nil => exact .refl
  | append_singleton steps step ih =>
      rw [after_append]
      exact ih.trans (perform_evolves _ step)

/-- A name never changes its class. The steps may be any, and each may fail anywhere: afterwards the
names by class are sorted, disjoint, and just what is declared; more steps keep the class of every
name; and a declaration fails exactly if its name is there in another class. If it fails nothing
changes, and otherwise its own name only. -/
theorem class_never_changes (u : CompilationUnit) (steps : List SymbolStep) :
    (u.after steps).symbols.Partitioned ∧
      (∀ more name cls, (u.after steps).symbols.get? name = some cls →
        (u.after (steps ++ more)).symbols.get? name = some cls) ∧
      ∀ name cls,
        ((∃ failure, (u.after steps).declare name cls = .error failure) ↔
          ∃ old, (u.after steps).symbols.get? name = some old ∧ old ≠ cls) ∧
        (∀ failure, (u.after steps).declare name cls = .error failure → failure.2 = u.after steps) ∧
        ∀ v, (u.after steps).declare name cls = .ok v → ∀ other,
          v.symbols.get? other =
            if other = name then some cls else (u.after steps).symbols.get? other := by
  refine ⟨(u.after steps).symbols.partitioned, ?_, ?_⟩
  · intro more name cls found
    rw [after_append]
    exact (after_evolves _ more).keeps found
  · intro name cls
    refine ⟨declare_fails, fun failure failed => declare_eq_error failed, ?_⟩
    intro v declared other
    exact SymbolTable.get?_declare (declare_eq_ok declared)

/-- The third parameter has no name: the translation fails after two were declared. -/
theorem class_never_changes_nameless_parameter :
    let lines := ["function f(int a, string b, int) \x7b"].map Utf8.encode
    let u : CompilationUnit := { file := "a.dawn", atoms := lex "a.dawn" lines }
    let analyzed := u.after [.declare "x" .string, .analyze]
    let v := u.after [.declare "x" .string, .analyze, .translate]
    analyzed.translate.toOption.isNone = true ∧ v.symbols.Partitioned ∧
      "f" ∈ v.symbols.names .function ∧ "b" ∈ v.symbols.names .string ∧
      (u.after [.declare "x" .string, .analyze, .translate, .scanFunctions]).symbols.get? "a" =
        some .int ∧
      ∃ failure, v.declare "a" .string = .error failure ∧ failure.2 = v := by
  intro lines u analyzed v
  obtain ⟨shared, keeps, declares⟩ :=
    class_never_changes u [.declare "x" .string, .analyze, .translate]
  obtain ⟨fails, unchanged, -⟩ := declares "a" .string
  have declared : v.symbols.get? "a" = some .int := by decide +kernel
  obtain ⟨failure, failed⟩ := fails.mpr ⟨.int, declared, by decide⟩
  exact ⟨by decide +kernel, shared, (shared.members _ _).mpr (by decide +kernel),
    (shared.members _ _).mpr (by decide +kernel), keeps [.scanFunctions] "a" .int declared, failure, failed,
    unchanged failure failed⟩

end CompilationUnit

end DawnC
