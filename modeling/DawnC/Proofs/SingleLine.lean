import DawnC.Proofs.Headers
import DawnC.Proofs.Spelling
import DawnC.Proofs.Utf8
import DawnC.Store.Lines

set_option autoImplicit false

namespace DawnC

/-- The text is a line by itself: there is something in it, and no newline. -/
structure SingleLine (text : String) : Prop where
  filled : text ≠ ""
  unbroken : '\n' ∉ text.toList

theorem SingleLine.append {first second : String} (unbroken : '\n' ∉ first.toList)
    (single : SingleLine second) : SingleLine (first ++ second) := by
  constructor
  · intro empty
    exact single.filled (String.append_eq_empty_iff.mp empty).2
  · rw [String.toList_append, List.mem_append, not_or]
    exact ⟨unbroken, single.unbroken⟩

namespace Utf8

theorem eq_ten_of_ofNat {n : Nat} (same : Char.ofNat n = '\n') : n = 10 := by
  by_cases valid : n.isValidChar
  · rw [Char.ofNat, dif_pos valid] at same
    exact congrArg Char.toNat same
  · rw [Char.ofNat, dif_neg valid] at same
    exact absurd same (by decide)

/-- The second byte after a lead that fills no bits above it is not the lowest. -/
theorem pos_of_isSecond {lead b : UInt8} (second : isSecond lead b = true)
    (empty : lead.toNat = 0xE0 ∨ lead.toNat = 0xF0) : 0 < tailBits b := by
  have bounds := between_iff.mp second
  rw [tailBits]
  rcases empty with three | four
  · have lead_eq : lead = 0xE0 := UInt8.toNat_inj.mp three
    subst lead_eq
    change 160 ≤ b.toNat ∧ b.toNat ≤ 191 at bounds
    omega
  · have lead_eq : lead = 0xF0 := UInt8.toNat_inj.mp four
    subst lead_eq
    change 144 ≤ b.toNat ∧ b.toNat ≤ 191 at bounds
    omega

/-- A newline is written as one byte: its longer forms are overlong, and not read. -/
theorem eq_newline_of_charAt? {lead : UInt8} {rest : Bytes} {size : Nat}
    (read : charAt? lead rest = some ('\n', size)) : lead = newline := by
  have value {n k : Nat} (read : some (Char.ofNat n, k) = some ('\n', size)) : n = 10 :=
    eq_ten_of_ofNat (Prod.mk.inj (Option.some.inj read)).1
  unfold charAt? at read
  split at read
  · exact UInt8.toNat_inj.mp (value read)
  split at read
  · rename_i two
    obtain ⟨low, high⟩ := between_iff.mp two
    change 194 ≤ lead.toNat at low
    change lead.toNat ≤ 223 at high
    split at read
    · split at read
      · have ten := value read
        omega
      · cases read
    · cases read
  split at read
  · rename_i three
    obtain ⟨low, high⟩ := between_iff.mp three
    change 224 ≤ lead.toNat at low
    change lead.toNat ≤ 239 at high
    split at read
    · split at read
      · rename_i both
        have ten := value read
        have positive := pos_of_isSecond (Bool.and_eq_true_iff.mp both).1 (Or.inl (by omega))
        omega
      · cases read
    · cases read
  split at read
  · rename_i four
    obtain ⟨low, high⟩ := between_iff.mp four
    change 240 ≤ lead.toNat at low
    change lead.toNat ≤ 244 at high
    split at read
    · split at read
      · rename_i all
        have ten := value read
        have second := (Bool.and_eq_true_iff.mp (Bool.and_eq_true_iff.mp all).1).1
        have positive := pos_of_isSecond second (Or.inr (by omega))
        omega
      · cases read
    · cases read
  · cases read

theorem newline_mem_of_decodeFrom {done : List Char} {skip : Nat} {bytes : Bytes}
    (found : '\n' ∈ decodeFrom done skip bytes) : '\n' ∈ done ∨ newline ∈ bytes := by
  fun_induction decodeFrom done skip bytes with
  | case1 done skip => exact Or.inl (List.mem_reverse.mp found)
  | case2 done skip b rest ih => exact (ih found).imp_right (List.mem_cons_of_mem _)
  | case3 done lead rest c size read ih =>
      rcases ih found with inDone | later
      · rcases List.mem_cons.mp inDone with rfl | old
        · rw [eq_newline_of_charAt? read]
          exact Or.inr List.mem_cons_self
        · exact Or.inl old
      · exact Or.inr (List.mem_cons_of_mem _ later)
  | case4 done lead rest unread ih =>
      rcases ih found with inDone | later
      · rcases List.mem_cons.mp inDone with same | old
        · exact absurd same (by decide)
        · exact Or.inl old
      · exact Or.inr (List.mem_cons_of_mem _ later)

theorem newline_mem_of_decode {bytes : Bytes} (found : '\n' ∈ decode bytes) : newline ∈ bytes :=
  (newline_mem_of_decodeFrom found).resolve_left List.not_mem_nil

end Utf8

/-- The characters of an atom stand in one of the lines, each closed with a `;`. -/
theorem mem_terminated_of_mem_lex {file : String} {lines : List Bytes} {a : Atom} {c : Char}
    (member : a ∈ lex file lines) (found : c ∈ a.text.toList) :
    ∃ line ∈ lines, c ∈ terminated (Utf8.decode line) := by
  obtain ⟨line, source, atoms, spelt, here⟩ := exists_spells_of_mem_lex member
  have kept : c ∈ atoms.flatMap fun a => a.text.toList := List.mem_flatMap.mpr ⟨a, here, found⟩
  rw [spelt.texts] at kept
  have whole := (List.filter_sublist.map Prod.fst).subset kept
  rw [map_fst_marked] at whole
  exact ⟨line, source, whole⟩

theorem newline_not_mem_of_mem_lex {file : String} {lines : List Bytes}
    (single : ∀ line ∈ lines, newline ∉ line) {a : Atom} (member : a ∈ lex file lines) :
    '\n' ∉ a.text.toList := by
  intro found
  obtain ⟨line, source, inside⟩ := mem_terminated_of_mem_lex member found
  have decoded : '\n' ∈ Utf8.decode line := by
    rw [terminated] at inside
    split at inside
    · exact inside
    · exact (List.mem_append.mp inside).resolve_right (by decide)
  exact single line source (Utf8.newline_mem_of_decode decoded)

/-- What constructs write of their own, around the texts of atoms. -/
def ownTexts : List String :=
  ["printf(", "printf(\"%s\\n\", ", "printf(\"%d\\n\", ", ");", "[", "]);", "int ", "bool ", "char ", "[]",
    " = ", ";", " ", ", ", "[] = \x7b", "\x7d;", "(", "for(int ", "; ", " <= ", "++)\x7b", "if(", ")\x7b",
    "else", "else\x7b", "int main()\x7b", "void "]

theorem singleLine_of_mem_ownTexts {text : String} (own : text ∈ ownTexts) : SingleLine text := by
  have all : ∀ text ∈ ownTexts, text ≠ "" ∧ '\n' ∉ text.toList := by decide
  exact ⟨(all text own).1, (all text own).2⟩

/-- What is not copied is a construct's own. -/
def FixedOwn (parts : List LinePart) : Prop := ∀ text, LinePart.fixed text ∈ parts → text ∈ ownTexts

section FixedOwn

variable {first second parts : List LinePart} {text : String} {a : Atom}

@[simp] theorem fixedOwn_nil : FixedOwn [] := by
  simp [FixedOwn]

@[simp] theorem fixedOwn_fixed : FixedOwn (.fixed text :: parts) ↔ text ∈ ownTexts ∧ FixedOwn parts := by
  simp [FixedOwn]

@[simp] theorem fixedOwn_copy : FixedOwn (.copy a :: parts) ↔ FixedOwn parts := by
  simp [FixedOwn]

@[simp] theorem fixedOwn_append : FixedOwn (first ++ second) ↔ FixedOwn first ∧ FixedOwn second := by
  simp [FixedOwn, or_imp, forall_and]

@[simp] theorem fixedOwn_copies (atoms : List Atom) : FixedOwn (atoms.map LinePart.copy) := by
  simp [FixedOwn]

@[simp] theorem fixedOwn_spacedParts (atoms : List Atom) : FixedOwn (spacedParts atoms) := by
  induction atoms with
  | nil => exact fixedOwn_nil
  | cons a rest ih =>
      cases rest with
      | nil => simp [spacedParts]
      | cons b rest =>
          have blank : " " ∈ ownTexts := by decide
          exact fixedOwn_copy.mpr (fixedOwn_fixed.mpr ⟨blank, ih⟩)

theorem fixedOwn_listedParts {items : List (List LinePart)} (own : ∀ item ∈ items, FixedOwn item) :
    FixedOwn (listedParts items) := by
  induction items with
  | nil => exact fixedOwn_nil
  | cons item rest ih =>
      obtain ⟨here, later⟩ := List.forall_mem_cons.mp own
      cases rest with
      | nil => simpa [listedParts] using here
      | cons next rest =>
          have comma : ", " ∈ ownTexts := by decide
          rw [listedParts, List.intercalate_cons_cons, List.append_assoc]
          exact fixedOwn_append.mpr ⟨here, fixedOwn_fixed.mpr ⟨comma, ih later⟩⟩

@[simp] theorem fixedOwn_declaratorParts (cls : SymbolClass) (name : Atom) :
    FixedOwn (declaratorParts cls name) := by
  cases cls <;> simp [declaratorParts, ownTexts]

end FixedOwn

namespace Translator

variable {t t' : Translator} {previous : Option Atom} {i n : Nat} {a : Atom} {rest : List Atom}
  {parts : List LinePart}

theorem Writes.fixedOwn (writes : t.Writes a rest parts) : FixedOwn parts := by
  cases writes with
  | printFormatted word rule =>
      simp only [List.mem_cons, Prod.mk.injEq, List.not_mem_nil, or_false] at rule
      rcases rule with ⟨-, rfl⟩ | ⟨-, rfl⟩ <;> simp [ownTexts]
  | @call arguments =>
      have listed : ∀ item ∈ arguments.map spacedParts, FixedOwn item := by simp
      simp [ownTexts, fixedOwn_listedParts listed]
  | @namedFunction name tail parameters =>
      have listed : ∀ item ∈ parameters.map fun p => declaratorParts p.2 p.1, FixedOwn item := by
        intro item member
        obtain ⟨p, -, rfl⟩ := List.mem_map.mp member
        exact fixedOwn_declaratorParts p.2 p.1
      simp [ownTexts, fixedOwn_listedParts listed]
  | _ => simp [ownTexts]

/-- No construct only copies. -/
theorem Writes.exists_fixed (writes : t.Writes a rest parts) :
    ∃ text, LinePart.fixed text ∈ parts := by
  cases writes with
  | declaration => exact ⟨" = ", by simp⟩
  | _ => simp

/-- A construct writes a line by itself, if none of its atoms has a newline. -/
theorem Writes.singleLine (writes : t.Writes a rest parts)
    (unbroken : ∀ b ∈ a :: rest, '\n' ∉ b.text.toList) : SingleLine (lineOf parts) := by
  have chars : (lineOf parts).toList = parts.flatMap fun part => part.text.toList := by
    rw [lineOf, String.toList_join, List.flatMap_map]
  constructor
  · intro empty
    obtain ⟨text, member⟩ := writes.exists_fixed
    have none : parts.flatMap (fun part => part.text.toList) = [] := by
      rw [← chars, empty]
      rfl
    have own := singleLine_of_mem_ownTexts (writes.fixedOwn text member)
    exact own.filled (String.toList_eq_nil_iff.mp (List.flatMap_eq_nil_iff.mp none _ member))
  · rw [chars, List.mem_flatMap]
    rintro ⟨part, member, found⟩
    cases part with
    | fixed text => exact (singleLine_of_mem_ownTexts (writes.fixedOwn text member)).unbroken found
    | copy b =>
        have copied : b ∈ copiedIn parts := List.mem_flatMap.mpr ⟨_, member, List.mem_singleton_self b⟩
        exact unbroken b (writes.mem_of_copied copied) found

/-- A function adds its prototype with its line, and nothing else adds one. -/
theorem Effect.prototype_cases (effect : Effect t previous i a rest n t') :
    t'.prototypes = t.prototypes ∨ ∃ head, t'.prototypes = t.prototypes ++ [head ++ ";"] ∧
      t'.lines = t.lines ++ [head ++ "\x7b"] := by
  cases isFunction : a.is "function" with
  | false => exact Or.inl (effect.prototypes_eq isFunction)
  | true =>
      obtain ⟨name, tail, -, ⟨-, same⟩ | ⟨-, -, parameters, prototypes, lines⟩⟩ :=
        effect.of_function isFunction
      · exact Or.inl same
      · exact Or.inr ⟨_, prototypes, lines⟩

end Translator

/-- Every prototype is the line of a function with `;` for its brace. -/
theorem Cursor.Runs.prototypes {atoms : List Atom} {start c : Cursor} (runs : Runs atoms start c)
    (fresh : start.state.prototypes = []) :
    ∀ prototype ∈ c.state.prototypes, ∃ head, prototype = head ++ ";" ∧
      head ++ "\x7b" ∈ c.state.lines := by
  induction runs with
  | refl => simp [fresh]
  | @tail c d runs step ih =>
      have kept := step.lines.subset
      obtain ⟨a, rest, n, here, index, effect⟩ := step
      intro prototype member
      rcases effect.prototype_cases with same | ⟨head, added, lines⟩
      · rw [same] at member
        obtain ⟨head, text, line⟩ := ih prototype member
        exact ⟨head, text, kept line⟩
      · rw [added, List.mem_append, List.mem_singleton] at member
        rcases member with old | rfl
        · obtain ⟨head, text, line⟩ := ih prototype old
          exact ⟨head, text, kept line⟩
        · exact ⟨head, rfl, by simp [lines]⟩

theorem SingleLine.prototype {head : String} (line : SingleLine (head ++ "\x7b")) :
    SingleLine (head ++ ";") := by
  have unbroken := line.unbroken
  rw [String.toList_append, List.mem_append, not_or] at unbroken
  exact .append unbroken.1 ⟨by decide, by decide⟩

namespace CompilationUnit

/-- Each header, prototype and emitted line is a line by itself. -/
structure LineByLine (u : CompilationUnit) : Prop where
  headers : ∀ header ∈ u.headers, SingleLine header
  prototypes : ∀ prototype ∈ u.prototypes, SingleLine prototype
  lines : ∀ line ∈ u.lines, SingleLine line

theorem exists_of_convert {u v : CompilationUnit} (accepted : u.convert = .ok v) :
    ∃ analyzed translated, u.analyze = .ok analyzed ∧ analyzed.translate = .ok translated ∧
      v = translated.enter .writeC := by
  rw [convert_eq] at accepted
  obtain ⟨analyzed, first, later⟩ := bind_eq_ok.mp accepted
  obtain ⟨translated, second, same⟩ := bind_eq_ok.mp later
  cases same
  exact ⟨analyzed, translated, first, second, rfl⟩

/-- From atoms without newlines every header, prototype and line comes out as a line by itself. -/
theorem convert_lineByLine {file : String} {atoms : List Atom} {v : CompilationUnit}
    (unbroken : ∀ a ∈ atoms, '\n' ∉ a.text.toList)
    (accepted : ({ file, atoms } : CompilationUnit).convert = .ok v) : v.LineByLine := by
  obtain ⟨u, w, analyzed, translated, rfl⟩ := exists_of_convert accepted
  obtain ⟨same, noLines, noPrototypes, -⟩ := analyze_eq_ok analyzed
  have lines : ∀ line ∈ w.lines, SingleLine line := by
    intro line member
    rcases emitted_of_translate noLines translated member with rfl | ⟨a, parts, emits, rfl⟩
    · exact ⟨by decide, by decide⟩
    · obtain ⟨c, d, rest, -, -, here, writes, -⟩ := emits
      refine writes.singleLine fun b inside => unbroken b ?_
      rw [← same]
      exact List.mem_of_mem_drop (here ▸ inside)
  refine ⟨?_, ?_, lines⟩
  · intro header member
    obtain ⟨keyword, rule, -⟩ := ((headers_of_translate analyzed translated).2 header).mp member
    have all : ∀ rule ∈ headerRules, rule.2 ≠ "" ∧ '\n' ∉ rule.2.toList := by decide
    exact ⟨(all _ rule).1, (all _ rule).2⟩
  · intro prototype member
    obtain ⟨c, t, runs, -, closed, rfl⟩ := translate_eq_ok.mp translated
    have member : prototype ∈ t.prototypes := member
    rw [(Translator.closeRemaining_keeps closed).2] at member
    obtain ⟨head, rfl, line⟩ := runs.prototypes noPrototypes prototype member
    have emitted : head ++ "\x7b" ∈ t.lines := by
      rw [Translator.closeRemaining_lines closed]
      exact List.mem_append_left _ line
    exact (lines _ emitted).prototype

end CompilationUnit

end DawnC
