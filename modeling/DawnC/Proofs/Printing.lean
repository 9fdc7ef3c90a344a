import DawnC.Proofs.Spelling
import DawnC.Proofs.Utf8

set_option autoImplicit false

namespace DawnC

/-- The line that atoms are printed as: a `;` and their texts, with spaces between. It starts with a
separator, so it is no comment. -/
def printed (atoms : List Atom) : String := spaced (";" :: atoms.map Atom.text)

def spread (atoms : List Atom) : List Char := atoms.flatMap fun a => ' ' :: a.text.toList

@[simp] theorem spread_nil : spread [] = [] := rfl

theorem spread_cons (a : Atom) (rest : List Atom) :
    spread (a :: rest) = ' ' :: (a.text.toList ++ spread rest) := rfl

theorem toList_printed (atoms : List Atom) : (printed atoms).toList = ';' :: spread atoms := by
  have joined (text : String) :
      (spaced (text :: atoms.map Atom.text)).toList = text.toList ++ spread atoms := by
    induction atoms generalizing text with
    | nil => simp [spaced]
    | cons a rest ih =>
        have later := ih a.text
        rw [spaced] at later
        rw [List.map_cons, spaced, String.intercalate_cons_cons, String.toList_append, String.toList_append,
          later, spread_cons, List.append_assoc]
        rfl
  exact joined ";"

/-- What follows a character outside literals is marked as if it stood alone. -/
theorem marked_eq_cons {text : List Char} {c : Char} {rest : List (Char × Bool)}
    (first : marked text = (c, false) :: rest) : ∃ more, text = c :: more ∧ marked more = rest := by
  cases text with
  | nil => cases first
  | cons d more =>
      by_cases quote : d = '"'
      · rw [marked, if_pos quote] at first
        cases first
      · rw [marked_cons quote] at first
        cases first
        exact ⟨more, rfl, rfl⟩

theorem marked_eq_append {text start : List Char} {rest : List (Char × Bool)}
    (whole : marked text = marked start ++ rest) (stop : ∀ p ∈ rest.head?, joins p = false) :
    ∃ more, text = start ++ more ∧
      (rest = [] ∧ more = [] ∨ isTerminated start = true ∧ marked more = rest) := by
  have chars := congrArg (List.map Prod.fst) whole
  rw [List.map_append, map_fst_marked, map_fst_marked] at chars
  refine ⟨rest.map Prod.fst, chars, ?_⟩
  have later := markedFrom_append .plain start (rest.map Prod.fst)
  rw [← chars] at later
  have same : markedFrom (start.foldl Scanner.Mode.next .plain) (rest.map Prod.fst) = rest :=
    (List.append_cancel_left (whole.symm.trans later)).symm
  cases rest with
  | nil => exact Or.inl ⟨rfl, rfl⟩
  | cons p more =>
      have ends := stop p rfl
      rw [List.map_cons, markedFrom_cons, List.cons.injEq] at same
      cases mode : start.foldl Scanner.Mode.next .plain with
      | plain =>
          refine Or.inr ⟨decide_eq_true mode, ?_⟩
          rw [mode] at later
          exact (List.append_cancel_left (whole.symm.trans later)).symm
      | quoted =>
          rw [← same.1, mode] at ends
          cases ends
      | escaped =>
          rw [← same.1, mode] at ends
          cases ends

namespace Spells

variable {chars : List (Char × Bool)} {atoms : List Atom}

/-- On a line all literals are terminated in their atoms, but that of the last atom may be open up to the
end of the line. -/
theorem open_at_end {text : List Char} (spelt : Spells (marked text) atoms) :
    (∀ a ∈ atoms, isTerminated a.text.toList = true) ∨
      ∃ front last, atoms = front ++ [last] ∧ (∀ a ∈ front, isTerminated a.text.toList = true) ∧
        last.text.toList <:+ text := by
  generalize whole : marked text = chars at spelt
  induction spelt generalizing text with
  | nil => exact Or.inl (by simp)
  | separator _ _ ih =>
      obtain ⟨more, rfl, later⟩ := marked_eq_cons whole
      rcases ih later with all | ⟨front, last, rfl, all, ends⟩
      · exact Or.inl all
      · exact Or.inr ⟨front, last, rfl, all, ends.trans (List.suffix_cons _ _)⟩
  | @punctuation c rest a atoms punctuation shape _ _ ih =>
      have here : isTerminated a.text.toList = true := by
        rw [shape, String.toList_ofList]
        exact isTerminated_singleton punctuation
      obtain ⟨more, rfl, later⟩ := marked_eq_cons whole
      rcases ih later with all | ⟨front, last, rfl, all, ends⟩
      · exact Or.inl (List.forall_mem_cons.mpr ⟨here, all⟩)
      · exact Or.inr ⟨a :: front, last, rfl, List.forall_mem_cons.mpr ⟨here, all⟩,
          ends.trans (List.suffix_cons _ _)⟩
  | @lexeme run rest a atoms _ _ stop shape _ others ih =>
      rw [← shape] at whole
      obtain ⟨more, rfl, ⟨rfl, rfl⟩ | ⟨here, later⟩⟩ := marked_eq_append whole stop
      · obtain rfl := others.of_nil
        exact Or.inr ⟨[], a, rfl, by simp, by simp only [List.append_nil, List.suffix_refl]⟩
      · rcases ih later with all | ⟨front, last, rfl, all, ends⟩
        · exact Or.inl (List.forall_mem_cons.mpr ⟨here, all⟩)
        · exact Or.inr ⟨a :: front, last, rfl, List.forall_mem_cons.mpr ⟨here, all⟩,
            ends.trans (List.suffix_append _ _)⟩

theorem cons_single {a : Atom} (here : Spells (marked a.text.toList) [a]) (later : Spells chars atoms)
    (stop : ∀ p ∈ chars.head?, joins p = false) :
    Spells (marked a.text.toList ++ chars) (a :: atoms) := by
  rcases here.atom_cases List.mem_cons_self with ⟨kind, c, punctuation, text⟩ | ⟨kind, filled, all⟩
  · rw [text, String.toList_ofList, marked_singleton punctuation]
    exact .punctuation punctuation text kind later
  · refine .lexeme (marked_ne_nil ?_) all stop rfl kind later
    rwa [Ne, String.toList_eq_nil_iff]

/-- A separator at the end spells nothing. -/
theorem append_separator (spelt : Spells chars atoms) {c : Char} (separator : isSeparator c = true) :
    Spells (chars ++ [(c, false)]) atoms := by
  induction spelt with
  | nil => exact .separator separator .nil
  | separator other _ ih => exact .separator other ih
  | punctuation punctuation text kind _ ih => exact .punctuation punctuation text kind ih
  | @lexeme run rest a atoms nonempty all stop text kind _ ih =>
      rw [List.append_assoc]
      refine .lexeme nonempty all ?_ text kind ih
      cases rest with
      | nil =>
          rintro p ⟨⟩
          simp [joins, separator]
      | cons q rest => exact stop

end Spells

/-- Atoms with a space before each are read as they are, if only the last has a literal open. -/
theorem spells_spread (front last : List Atom) (few : last.length ≤ 1)
    (single : ∀ a ∈ front ++ last, Spells (marked a.text.toList) [a])
    (ends : ∀ a ∈ front, isTerminated a.text.toList = true) :
    Spells (marked (spread (front ++ last))) (front ++ last) := by
  induction front with
  | nil =>
      match last, few, single with
      | [], _, _ => exact .nil
      | [a], _, single =>
          rw [List.nil_append, spread_cons, marked_cons (by decide), spread_nil,
            List.append_nil]
          exact .separator rfl (single a (by simp))
  | cons a front ih =>
      rw [List.cons_append, List.forall_mem_cons] at single
      rw [List.forall_mem_cons] at ends
      rw [List.cons_append, spread_cons, marked_cons (by decide), marked_append ends.1]
      refine .separator rfl (single.1.cons_single (ih single.2 ends.2) ?_)
      -- the next atom has its space before it
      cases front ++ last with
      | nil =>
          rintro p ⟨⟩
      | cons b rest =>
          rw [spread_cons, marked_cons (by decide)]
          rintro p ⟨⟩
          rfl

theorem isTerminated_spread {atoms : List Atom}
    (ends : ∀ a ∈ atoms, isTerminated a.text.toList = true) :
    isTerminated (spread atoms) = true := by
  induction atoms with
  | nil => rfl
  | cons a rest ih =>
      rw [List.forall_mem_cons] at ends
      rw [spread_cons, ← List.singleton_append]
      exact isTerminated_append rfl (isTerminated_append ends.1 (ih ends.2))

/-- What is read from a line that ends with `;` is spelt by the line that it is printed as. -/
theorem spells_printed {text : List Char} {atoms : List Atom} (spelt : Spells (marked text) atoms)
    (stops : text.getLast? = some ';') :
    Spells (marked (terminated (printed atoms).toList)) atoms := by
  have single (a : Atom) (member : a ∈ atoms) := spelt.single member
  rw [toList_printed]
  rcases spelt.open_at_end with all | ⟨front, last, rfl, all, ends⟩
  · have plain := spells_spread atoms [] (Nat.zero_le 1) (by simpa using single) all
    rw [List.append_nil] at plain
    have whole : Spells (marked (';' :: spread atoms)) atoms := by
      rw [marked_cons (by decide)]
      exact .separator rfl plain
    rw [terminated]
    split
    · exact whole
    · have ends : isTerminated ([';'] ++ spread atoms) = true :=
        isTerminated_append rfl (isTerminated_spread all)
      rw [← List.singleton_append, marked_append ends]
      exact whole.append_separator rfl
  · -- the last atom has the `;` of its line, so none is added
    have same : (';' :: spread (front ++ [last])).getLast? = some ';' := by
      obtain ⟨before, rfl⟩ := ends
      have filled : last.text.toList ≠ [] := by
        rw [Ne, String.toList_eq_nil_iff]
        exact spelt.isReading.nonempty last (by simp)
      obtain ⟨c, ends⟩ : ∃ c, last.text.toList.getLast? = some c :=
        Option.ne_none_iff_exists'.mp (mt List.getLast?_eq_none_iff.mp filled)
      rw [List.getLast?_append, ends, Option.some_or] at stops
      rw [spread, List.flatMap_append, List.flatMap_singleton, ← List.cons_append, List.getLast?_append,
        List.getLast?_cons, ends, Option.some_or]
      exact stops
    rw [terminated, if_pos same, marked_cons (by decide)]
    exact .separator rfl (spells_spread front [last] (Nat.le_refl 1) single all)

theorem terminated_getLast? (line : List Char) : (terminated line).getLast? = some ';' := by
  rw [terminated]
  split
  · assumption
  · exact List.getLast?_concat

/-- Printing the atoms of a line and reading the print gives them back: the same texts and kinds, in the
same order. -/
theorem printed_atoms_read_back (file file' : String) (line : Bytes) :
    (lex file' [Utf8.encode (printed (lex file [line]))]).map (fun a => (a.text, a.kind)) =
      (lex file [line]).map fun a => (a.text, a.kind) := by
  have spelt : Spells (marked (terminated (printed (lex file [line])).toList)) (lex file [line]) := by
    cases comment : isComment (Utf8.decode line) with
    | true =>
        rw [lex_single_of_isComment file comment]
        exact .separator rfl .nil
    | false => exact spells_printed (lex_single_spells file comment) (terminated_getLast? _)
  have decoded := Utf8.decode_encode (printed (lex file [line]))
  have code : isComment (Utf8.decode (Utf8.encode (printed (lex file [line])))) = false := by
    rw [decoded, toList_printed]
    rfl
  have again := lex_single_spells file' code
  rw [decoded] at again
  exact again.unique spelt

/-- A literal with separators, a word that runs into a literal, slashes, and a literal left open. -/
example :
    let atoms := lex "a.dawn" [Utf8.encode "x=\"a; \\\" b\"(y, // z\"w"]
    printed atoms = "; x=\"a; \\\" b\" y , // z\"w;" ∧
      (lex "a.dawn" [Utf8.encode (printed atoms)]).map (fun a => (a.text, a.kind)) =
        [("x=\"a; \\\" b\"", .word), ("y", .word), (",", .punct), ("//", .word), ("z\"w;", .word)] := by
  decide

end DawnC
