import DawnC.Include.Source
import DawnC.Proofs.Remote.Reference

set_option autoImplicit false

namespace DawnC

namespace Text

variable {α : Type} [DecidableEq α]

theorem length_cut (sep : α) (xs : List α) : (cut sep xs).length = xs.count sep + 1 := by
  induction xs with
  | nil => rfl
  | cons x xs ih =>
      by_cases same : x = sep
      · rw [same, cut_cons_self, List.length_cons, ih, List.count_cons_self]
      · rw [cut_cons_of_ne same, List.count_cons_of_ne same, ← ih]
        cases pieces : cut sep xs with
        | nil => exact absurd pieces (cut_ne_nil sep xs)
        | cons first rest => rfl

theorem head?_cut (sep : α) (xs : List α) : (cut sep xs).head? = some (xs.takeWhile (· ≠ sep)) := by
  induction xs with
  | nil => rfl
  | cons x xs ih =>
      by_cases same : x = sep
      · rw [same, cut_cons_self, List.takeWhile_cons_of_neg (by simp)]
        rfl
      · rw [cut_cons_of_ne same, List.takeWhile_cons_of_pos (by simpa using same)]
        cases pieces : cut sep xs with
        | nil => exact absurd pieces (cut_ne_nil sep xs)
        | cons first rest =>
            rw [pieces, List.head?_cons, Option.some.injEq] at ih
            rw [prepend, List.head?_cons, ih]

end Text

namespace Reference

variable {target : String} {names : List String} {ref : String}

/-- The elements of a location by their shape: what is not looked at is whether each is a name. -/
structure IsOutline (names : List String) : Prop where
  long : 4 ≤ names.length
  plain : ∀ name ∈ names, '/' ∉ name.toList
  host : HasHost names

theorem IsLocation.outline (location : IsLocation names) : IsOutline names :=
  ⟨location.long, fun name member => (location.valid name member).2.2.2, location.host⟩

theorem IsOutline.elements (outline : IsOutline names) :
    Path.elements (String.intercalate "/" names) = names := by
  refine Path.elements_intercalate ?_ outline.plain
  rintro rfl
  cases outline.long

/-- What stands before the last `@`, and after it. -/
theorem cutLast_text (before : String) (noMark : '@' ∉ ref.toList) :
    Text.cutLast '@' (before ++ "@" ++ ref).toList = some (before.toList, ref.toList) := by
  rw [String.toList_append, String.toList_append, List.append_assoc]
  exact Text.cutLast_append _ noMark

/-- Looking at the characters before the `@` is looking at the elements. -/
theorem isOutline_elements (before : List Char) :
    IsOutline (Path.elements (String.ofList before)) ↔
      (before.takeWhile (· ≠ '/')).contains '.' = true ∧ 3 ≤ before.count '/' := by
  have length : (Path.elements (String.ofList before)).length = before.count '/' + 1 := by
    rw [Path.elements, Text.splitAt, List.length_map, Text.length_cut, String.toList_ofList]
  have first : (Path.elements (String.ofList before)).head? =
      some (String.ofList (before.takeWhile (· ≠ '/'))) := by
    rw [Path.elements, Text.splitAt, List.head?_map, Text.head?_cut, String.toList_ofList]
    rfl
  constructor
  · rintro ⟨long, -, host, member, dotted⟩
    rw [first, Option.mem_some_iff] at member
    rw [← member, String.toList_ofList] at dotted
    exact ⟨List.contains_iff_mem.mpr dotted, by omega⟩
  · rintro ⟨dotted, slashes⟩
    refine ⟨by omega, fun name => Path.not_mem_of_mem_elements, _, first, ?_⟩
    rw [String.toList_ofList]
    exact List.contains_iff_mem.mp dotted

/-- A path with a host in front starts with the first character of the host. -/
theorem IsOutline.head? (outline : IsOutline names) (ref : String) :
    ∃ c, c ≠ '/' ∧ (String.intercalate "/" names ++ "@" ++ ref).toList.head? = some c := by
  obtain ⟨host, member, dotted⟩ := outline.host
  match names, outline.plain, member with
  | first :: rest, plain, member =>
      cases member
      obtain ⟨c, chars, shape⟩ := List.exists_cons_of_ne_nil (List.ne_nil_of_mem dotted)
      refine ⟨c, ?_, ?_⟩
      · rintro rfl
        exact plain host List.mem_cons_self (shape ▸ List.mem_cons_self)
      · cases rest with
        | nil => simp [shape]
        | cons second rest => simp [shape]

/-- A path looks remote if and only if it does not begin with a dot and is a location by its shape, an
`@`, and whatever follows. -/
theorem looksRemote_iff : looksRemote target = true ↔ target.toList.head? ≠ some '.' ∧
    ∃ names ref, IsOutline names ∧ '@' ∉ ref.toList ∧
      target = String.intercalate "/" names ++ "@" ++ ref := by
  constructor
  · intro remote
    rw [looksRemote] at remote
    split at remote
    · cases remote
    rename_i elsewhere
    rw [Bool.or_eq_true, not_or, decide_eq_true_eq] at elsewhere
    split at remote
    · cases remote
    rename_i before after found
    rw [Bool.and_eq_true, Bool.and_eq_true, decide_eq_true_eq] at remote
    refine ⟨elsewhere.2, Path.elements (String.ofList before), String.ofList after,
      (isOutline_elements before).mpr ⟨remote.1.2, remote.2⟩, ?_, ?_⟩
    · rw [String.toList_ofList]
      exact Text.not_mem_of_cutLast found
    · rw [Path.intercalate_elements, ← String.ofList_toList (s := target), Text.cutLast_eq_some found]
      simp [String.append_assoc]
  · rintro ⟨noDot, names, ref, outline, noMark, shape⟩
    obtain ⟨c, notSlash, first⟩ := outline.head? ref
    have relative : Path.isAbsolute target = false := by
      rw [Path.isAbsolute, decide_eq_false_iff_not, shape, first]
      simpa using notSlash
    have divided := cutLast_text (String.intercalate "/" names) noMark
    rw [← shape] at divided
    rw [← outline.elements, ← String.ofList_toList (s := String.intercalate "/" names),
      isOutline_elements] at outline
    have filled : (String.intercalate "/" names).toList.isEmpty = false := by
      cases chars : (String.intercalate "/" names).toList with
      | nil =>
          rw [chars] at outline
          cases outline.2
      | cons c rest => rfl
    rw [looksRemote, relative, divided, if_neg (by simpa using noDot)]
    dsimp only
    rw [filled, outline.1, decide_eq_true outline.2]
    rfl

/-- What reading makes of a path whose location has the right shape: it can only find the ref empty or
an element that is no name. -/
theorem parse_of_outline (outline : IsOutline names) (noMark : '@' ∉ ref.toList) :
    (ref = "" ∧ parse (String.intercalate "/" names ++ "@" ++ ref) = .error .emptyRef) ∨
    ref ≠ "" ∧
      ((∃ element ∈ names, isBadElement element = true ∧
        parse (String.intercalate "/" names ++ "@" ++ ref) = .error (.badElement element)) ∨
      (∀ name ∈ names, Path.IsName name) ∧
        ∃ r, parse (String.intercalate "/" names ++ "@" ++ ref) = .ok r) := by
  have divided := cutLast_text (String.intercalate "/" names) noMark
  by_cases empty : ref = ""
  · subst empty
    refine Or.inl ⟨rfl, ?_⟩
    rw [parse, divided]
    rfl
  refine Or.inr ⟨empty, ?_⟩
  cases found : names.find? isBadElement with
  | none =>
      right
      have valid : ∀ name ∈ names, Path.IsName name := by
        intro name member
        have fine := List.find?_eq_none.mp found name member
        simp only [isBadElement, Bool.or_eq_true, decide_eq_true_eq, not_or] at fine
        exact ⟨fine.1.1, fine.1.2, fine.2, outline.plain name member⟩
      have location : IsLocation names := ⟨outline.long, valid, outline.host⟩
      have version : IsVersion ref := ⟨empty, noMark⟩
      exact ⟨valid, ⟨_, _, ref⟩, parse_eq_ok_iff.mpr ⟨names, location, version, rfl, rfl, rfl⟩⟩
  | some element =>
      refine Or.inl ⟨element, List.mem_of_find?_eq_some found, List.find?_some found, ?_⟩
      rw [parse, divided]
      split
      · rename_i none
        cases none
      · rename_i none
        rw [Option.some.injEq, Prod.mk.injEq, String.toList_eq_nil_iff] at none
        exact absurd none.2 empty
      · rename_i parts
        rw [Option.some.injEq, Prod.mk.injEq] at parts
        obtain ⟨rfl, rfl⟩ := parts
        dsimp only
        rw [String.ofList_toList, outline.elements, if_neg (Nat.not_lt.mpr outline.long), found]

/-- A reference looks remote, unless it begins with a dot. -/
theorem looksRemote_of_parse {r : Reference} (parsed : parse target = .ok r)
    (noDot : target.toList.head? ≠ some '.') : looksRemote target = true := by
  obtain ⟨names, location, version, shape, -⟩ := parse_eq_ok_iff.mp parsed
  exact looksRemote_iff.mpr ⟨noDot, names, r.ref, location.outline, version.2, shape⟩

end Reference

/-- A path that looks remote is fetched, or refused where there is no fetcher. -/
theorem resolveTarget_of_looksRemote {target : String} (filled : target ≠ "")
    (remote : Reference.looksRemote target = true) (fetcher : Option Fetcher) (including : String) :
    resolveTarget fetcher including target = fetcher.elim (throw (.noFetcher target)) (fun fetch => do
      let path ← Action.within ("fetching " ++ target) (fetch target)
      pure (path, target)) := by
  unfold resolveTarget
  dsimp only
  rw [if_neg filled, if_pos remote]
  cases fetcher with
  | none => rfl
  | some fetch => rfl

namespace Reference

/-- The test for remote include paths and the reading of references agree. A reference that does not
begin with a dot looks remote, so that an include directive has it fetched and never takes it for a
local path. A path that looks remote is read as a reference if what stands after its last `@` is not
empty and all elements before it are names; it is refused for one of these reasons only. -/
theorem remote_recognition_agrees :
    (∀ target r, parse target = .ok r → target.toList.head? ≠ some '.' →
      looksRemote target = true ∧ ∀ (fetcher : Option Fetcher) (including : String),
        resolveTarget fetcher including target =
          fetcher.elim (throw (.noFetcher target)) (fun fetch => do
            let path ← Action.within ("fetching " ++ target) (fetch target)
            pure (path, target))) ∧
    ∀ target, looksRemote target = true → ∃ before ref, '@' ∉ ref.toList ∧ target = before ++ "@" ++ ref ∧
      ((∃ r, parse target = .ok r) ↔ ref ≠ "" ∧ ∀ element ∈ Path.elements before, Path.IsName element) ∧
      ∀ fault, parse target = .error fault → fault = .emptyRef ∧ ref = "" ∨
        ∃ element ∈ Path.elements before, fault = .badElement element ∧
          (element = "" ∨ element = "." ∨ element = "..") := by
  constructor
  · intro target r parsed noDot
    have remote := looksRemote_of_parse parsed noDot
    have filled : target ≠ "" := by
      rintro rfl
      cases remote
    exact ⟨remote, fun fetcher including => resolveTarget_of_looksRemote filled remote fetcher including⟩
  · intro target remote
    obtain ⟨-, names, ref, outline, noMark, rfl⟩ := looksRemote_iff.mp remote
    refine ⟨String.intercalate "/" names, ref, noMark, rfl, ?_⟩
    rw [outline.elements]
    rcases parse_of_outline outline noMark with ⟨empty, read⟩ | ⟨filled, ⟨element, member, bad, read⟩ |
      ⟨valid, r, read⟩⟩
    · rw [read]
      refine ⟨⟨?_, fun fine => absurd empty fine.1⟩, ?_⟩
      · rintro ⟨r, accepted⟩
        cases accepted
      · intro fault refused
        cases refused
        exact Or.inl ⟨rfl, empty⟩
    · rw [read]
      have shape : element = "" ∨ element = "." ∨ element = ".." := by
        simpa [isBadElement, or_assoc] using bad
      refine ⟨⟨?_, fun fine => ?_⟩, ?_⟩
      · rintro ⟨r, accepted⟩
        cases accepted
      · obtain ⟨nonempty, notHere, notUp, -⟩ := fine.2 element member
        exact absurd shape (by simp [nonempty, notHere, notUp])
      · intro fault refused
        cases refused
        exact Or.inr ⟨element, member, rfl, shape⟩
    · rw [read]
      refine ⟨⟨fun _ => ⟨filled, valid⟩, fun _ => ⟨r, rfl⟩⟩, ?_⟩
      intro fault refused
      cases refused

/-- The elements of a reference may have an `@` of their own; an element that leads up is refused. -/
theorem remote_recognition_agrees_marked :
    let target := "h.com/o/r/lib@1/a.dawn@v/2"
    let outward := "h.com/o/r/../a.dawn@v"
    parse target = .ok ⟨"h.com/o/r", "lib@1/a.dawn", "v/2"⟩ ∧ target.toList.head? ≠ some '.' ∧
      looksRemote target = true ∧
      (∀ including, resolveTarget none including target = throw (.noFetcher target)) ∧
      looksRemote outward = true ∧ parse outward = .error (.badElement "..") ∧
      ∃ before ref, outward = before ++ "@" ++ ref ∧ ".." ∈ Path.elements before := by
  intro target outward
  obtain ⟨accepted, refused⟩ := remote_recognition_agrees
  have parsed : parse target = .ok ⟨"h.com/o/r", "lib@1/a.dawn", "v/2"⟩ := by decide +kernel
  have noDot : target.toList.head? ≠ some '.' := by decide
  obtain ⟨remote, resolved⟩ := accepted target _ parsed noDot
  have remote' : looksRemote outward = true := by decide +kernel
  have fault : parse outward = .error (.badElement "..") := by decide +kernel
  obtain ⟨before, ref, -, shape, -, reasons⟩ := refused outward remote'
  refine ⟨parsed, noDot, remote, fun including => resolved none including, remote', fault, before, ref,
    shape, ?_⟩
  rcases reasons _ fault with ⟨other, -⟩ | ⟨element, member, same, -⟩
  · cases other
  · cases same
    exact member

/-- With a dot in front of its host a reference can be read, but does not look remote. -/
example : (parse ".h.com/o/r/a.dawn@v").isOk = true ∧ looksRemote ".h.com/o/r/a.dawn@v" = false := by
  decide +kernel

end Reference

end DawnC
