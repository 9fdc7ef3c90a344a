import DawnC.Proofs.NormalPath
import DawnC.Remote.Reference

set_option autoImplicit false

namespace DawnC

theorem Path.join_names {list : List String} (filled : list ≠ []) (names : ∀ e ∈ list, IsName e) :
    join list = String.intercalate "/" list := by
  let n : Normal := .below list names
  have shape : n.text = String.intercalate "/" list := if_neg filled
  have cleaned : clean n.text = n.text := by
    apply clean_eq_text
    · exact n.isAbsolute_text.symm
    · rw [cleanElements, n.isAbsolute_text, n.foldl_elements, List.reverse_reverse]
  cases list with
  | nil => exact absurd rfl filled
  | cons first rest =>
      have kept : (first :: rest).dropWhile (· = "") = first :: rest := by
        rw [List.dropWhile_cons, if_neg (by simpa using (names first List.mem_cons_self).1)]
      rw [join, kept]
      dsimp only
      rw [← shape, cleaned]

namespace Reference

def HasHost (names : List String) : Prop := ∃ host ∈ names.head?, '.' ∈ host.toList

/-- The location of a file in a repository: four names or more, the first a host. -/
structure IsLocation (names : List String) : Prop where
  long : 4 ≤ names.length
  valid : ∀ name ∈ names, Path.IsName name
  host : HasHost names

/-- What can stand after the last `@`. -/
def IsVersion (ref : String) : Prop := ref ≠ "" ∧ '@' ∉ ref.toList

/-- The parts of a reference are what they say: host, owner and name of the repository, one name or more
for the file, and a ref. -/
structure IsWellFormed (r : Reference) : Prop where
  repo : ∃ names : List String, names.length = 3 ∧ (∀ name ∈ names, Path.IsName name) ∧ HasHost names ∧
    r.repo = String.intercalate "/" names
  file : ∃ names : List String, names ≠ [] ∧ (∀ name ∈ names, Path.IsName name) ∧
    r.file = String.intercalate "/" names
  ref : IsVersion r.ref

variable {text : String} {r : Reference} {names : List String}

theorem IsLocation.join_file (location : IsLocation names) :
    Path.join (names.drop 3) = String.intercalate "/" (names.drop 3) := by
  apply Path.join_names
  · intro none
    have lengths := location.long
    rw [List.drop_eq_nil_iff] at none
    omega
  · exact fun name member => location.valid name (List.mem_of_mem_drop member)

/-- A location, an `@` and a ref are read as what they are. -/
theorem parse_of_location (location : IsLocation names) (version : IsVersion r.ref)
    (repo : r.repo = String.intercalate "/" (names.take 3))
    (file : r.file = String.intercalate "/" (names.drop 3)) :
    parse (String.intercalate "/" names ++ "@" ++ r.ref) = .ok r := by
  have joined := location.join_file
  obtain ⟨long, valid, host, first, dotted⟩ := location
  have filled : names ≠ [] := by
    rintro rfl
    cases first
  have divided : Text.cutLast '@' (String.intercalate "/" names ++ "@" ++ r.ref).toList =
      some ((String.intercalate "/" names).toList, r.ref.toList) := by
    rw [String.toList_append, String.toList_append, List.append_assoc]
    exact Text.cutLast_append _ version.2
  have elements : Path.elements (String.intercalate "/" names) = names :=
    Path.elements_intercalate filled fun name member => (valid name member).2.2.2
  have good : names.find? isBadElement = none := by
    refine List.find?_eq_none.mpr fun name member => ?_
    obtain ⟨nonempty, notHere, notUp, -⟩ := valid name member
    simp [isBadElement, nonempty, notHere, notUp]
  have named : names.headD "" = host := by
    rw [List.headD_eq_head?_getD, Option.mem_def.mp first, Option.getD_some]
  rw [parse, divided]
  split
  · rename_i none
    cases none
  · rename_i none
    rw [Option.some.injEq, Prod.mk.injEq, String.toList_eq_nil_iff] at none
    exact absurd none.2 version.1
  · rename_i parts
    rw [Option.some.injEq, Prod.mk.injEq] at parts
    obtain ⟨rfl, rfl⟩ := parts
    dsimp only
    rw [String.ofList_toList, elements, if_neg (Nat.not_lt.mpr long), good]
    dsimp only
    rw [named, if_neg (by simpa using dotted), String.ofList_toList, joined, ← repo, ← file]

/-- A text is read as a reference if and only if it is a location, an `@` and a ref. -/
theorem parse_eq_ok_iff : parse text = .ok r ↔
    ∃ names, IsLocation names ∧ IsVersion r.ref ∧ text = String.intercalate "/" names ++ "@" ++ r.ref ∧
      r.repo = String.intercalate "/" (names.take 3) ∧ r.file = String.intercalate "/" (names.drop 3) := by
  constructor
  · intro parsed
    rw [parse] at parsed
    split at parsed
    · cases parsed
    · cases parsed
    · rename_i before ref filled found
      dsimp only at parsed
      split at parsed
      · cases parsed
      rename_i long
      split at parsed
      · cases parsed
      rename_i good
      split at parsed
      · cases parsed
      rename_i host
      cases parsed
      have location : IsLocation (Path.elements (String.ofList before)) := by
        refine ⟨by omega, ?_, ?_⟩
        · intro name member
          have fine := List.find?_eq_none.mp good name member
          simp only [isBadElement, Bool.or_eq_true, decide_eq_true_eq, not_or] at fine
          exact ⟨fine.1.1, fine.1.2, fine.2, Path.not_mem_of_mem_elements member⟩
        · cases elements : Path.elements (String.ofList before) with
          | nil => simp [elements] at long
          | cons first rest =>
              rw [elements] at host
              exact ⟨first, rfl, by simpa using host⟩
      refine ⟨_, location, ⟨?_, ?_⟩, ?_, rfl, location.join_file⟩
      · rw [Ne, String.ofList_eq_empty_iff]
        rintro rfl
        exact filled rfl
      · rw [String.toList_ofList]
        exact Text.not_mem_of_cutLast found
      · rw [Path.intercalate_elements, ← String.ofList_toList (s := text), Text.cutLast_eq_some found]
        simp [String.append_assoc]
  · rintro ⟨names, location, version, rfl, repo, file⟩
    exact parse_of_location location version repo file

/-- The names of a location are those of the repository and those of the file. -/
theorem isWellFormed_iff : r.IsWellFormed ↔
    ∃ names, IsLocation names ∧ IsVersion r.ref ∧ r.repo = String.intercalate "/" (names.take 3) ∧
      r.file = String.intercalate "/" (names.drop 3) := by
  constructor
  · rintro ⟨⟨repo, three, valid, ⟨host, first, dotted⟩, repoText⟩, ⟨file, filled, valid', fileText⟩, version⟩
    have some := List.length_pos_iff.mpr filled
    refine ⟨repo ++ file, ⟨?_, List.forall_mem_append.mpr ⟨valid, valid'⟩, host, ?_, dotted⟩, version, ?_, ?_⟩
    · rw [List.length_append]
      omega
    · rw [List.head?_append, Option.mem_def.mp first]
      rfl
    · rw [← three, List.take_left, repoText]
    · rw [← three, List.drop_left, fileText]
  · rintro ⟨names, ⟨long, valid, host, first, dotted⟩, version, repoText, fileText⟩
    refine ⟨⟨names.take 3, ?_, ?_, ⟨host, ?_, dotted⟩, repoText⟩, ⟨names.drop 3, ?_, ?_, fileText⟩, version⟩
    · rw [List.length_take]
      omega
    · exact fun name member => valid name (List.mem_of_mem_take member)
    · rw [List.head?_take, if_neg (by decide)]
      exact first
    · rw [Ne, List.drop_eq_nil_iff]
      omega
    · exact fun name member => valid name (List.mem_of_mem_drop member)

theorem text_eq (long : 4 ≤ names.length) (repo : r.repo = String.intercalate "/" (names.take 3))
    (file : r.file = String.intercalate "/" (names.drop 3)) :
    r.text = String.intercalate "/" names ++ "@" ++ r.ref := by
  have front : names.take 3 ≠ [] := by
    rw [Ne, List.take_eq_nil_iff]
    rintro (impossible | rfl)
    · cases impossible
    · cases long
  have back : names.drop 3 ≠ [] := by
    rw [Ne, List.drop_eq_nil_iff]
    omega
  rw [text, repo, file, ← String.intercalate_append_of_ne_nil front back, List.take_append_drop]

/-- The location of a reference is made of names: three for the repository, the others for the file. -/
theorem names_of_parse (parsed : parse text = .ok r) :
    ∃ names : List String, 4 ≤ names.length ∧ (∀ name ∈ names, Path.IsName name) ∧
      r.repo = String.intercalate "/" (names.take 3) ∧
      r.file = String.intercalate "/" (names.drop 3) := by
  obtain ⟨names, location, -, -, repo, file⟩ := parse_eq_ok_iff.mp parsed
  exact ⟨names, location.long, location.valid, repo, file⟩

/-- Reading gives the well-formed reference that is written so, and no other. -/
theorem parse_eq_ok_iff_text : parse text = .ok r ↔ r.IsWellFormed ∧ r.text = text := by
  rw [parse_eq_ok_iff, isWellFormed_iff]
  constructor
  · rintro ⟨names, location, version, rfl, repo, file⟩
    exact ⟨⟨names, location, version, repo, file⟩, text_eq location.long repo file⟩
  · rintro ⟨⟨names, location, version, repo, file⟩, rfl⟩
    exact ⟨names, location, version, text_eq location.long repo file, repo, file⟩

/-- References go from text to parts and back. A text is a reference if and only if it is names with
slashes between, of which there are four or more and the first has a dot, then an `@`, and then a ref,
which is not empty and has no `@`. Writing what was read gives the text back; the repository has three
elements, and the path of the file is its own elements joined and cleaned. And what a well-formed
reference is written as is read as that reference. -/
theorem references_read_and_write :
    (∀ text, (∃ r, parse text = .ok r) ↔ ∃ names ref, IsLocation names ∧ IsVersion ref ∧
      text = String.intercalate "/" names ++ "@" ++ ref) ∧
    (∀ text r, parse text = .ok r → r.text = text ∧ r.IsWellFormed ∧
      (Path.elements r.repo).length = 3 ∧ 1 ≤ (Path.elements r.file).length ∧
      Path.join (Path.elements r.file) = r.file) ∧
    ∀ r : Reference, r.IsWellFormed → parse r.text = .ok r := by
  refine ⟨fun text => ⟨?_, ?_⟩, fun text r parsed => ?_, fun r valid => ?_⟩
  · rintro ⟨r, parsed⟩
    obtain ⟨names, location, version, shape, -⟩ := parse_eq_ok_iff.mp parsed
    exact ⟨names, r.ref, location, version, shape⟩
  · rintro ⟨names, ref, location, version, shape⟩
    exact ⟨⟨_, _, ref⟩, parse_eq_ok_iff.mpr ⟨names, location, version, shape, rfl, rfl⟩⟩
  · obtain ⟨valid, same⟩ := parse_eq_ok_iff_text.mp parsed
    obtain ⟨repo, three, plain, -, repoText⟩ := valid.repo
    obtain ⟨file, filled, plain', fileText⟩ := valid.file
    have nonempty : repo ≠ [] := by
      rintro rfl
      cases three
    have elements : Path.elements r.file = file := by
      rw [fileText, Path.elements_intercalate filled fun name member => (plain' name member).2.2.2]
    refine ⟨same, valid, ?_, ?_, ?_⟩
    · rw [repoText, Path.elements_intercalate nonempty fun name member => (plain name member).2.2.2]
      exact three
    · rw [elements]
      exact List.length_pos_iff.mpr filled
    · rw [elements, fileText, Path.join_names filled plain']
  · exact parse_eq_ok_iff_text.mpr ⟨valid, rfl⟩

/-- The last `@` divides, so that names may have one; a ref may have slashes. -/
theorem references_read_and_write_divided :
    let text := "h.com/o/r/lib@1/a.dawn@v/2"
    let r : Reference := ⟨"h.com/o/r", "lib@1/a.dawn", "v/2"⟩
    (∃ names ref, IsLocation names ∧ IsVersion ref ∧ text = String.intercalate "/" names ++ "@" ++ ref) ∧
      parse text = .ok r ∧ r.text = text ∧ r.IsWellFormed ∧ (Path.elements r.repo).length = 3 ∧
      parse r.text = .ok r := by
  intro text r
  obtain ⟨accepted, read, written⟩ := references_read_and_write
  have parsed : parse text = .ok r := by decide +kernel
  obtain ⟨same, valid, three, -⟩ := read text r parsed
  exact ⟨(accepted text).mp ⟨r, parsed⟩, parsed, same, valid, three, written r valid⟩

end Reference

end DawnC
