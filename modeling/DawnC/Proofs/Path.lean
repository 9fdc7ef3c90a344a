import DawnC.Path
import Mathlib.Data.List.TakeDrop
import Mathlib.Data.List.TakeWhile

set_option autoImplicit false

namespace DawnC

namespace Text

variable {α : Type} [DecidableEq α] {sep : α}

theorem not_mem_of_mem_cut {xs piece : List α} (member : piece ∈ cut sep xs) : sep ∉ piece := by
  induction xs generalizing piece with
  | nil =>
      cases List.mem_singleton.mp member
      exact List.not_mem_nil
  | cons x xs ih =>
      by_cases same : x = sep
      · subst same
        rw [cut_cons_self] at member
        rcases List.mem_cons.mp member with rfl | later
        · exact List.not_mem_nil
        · exact ih later
      · rw [cut_cons_of_ne same] at member
        cases pieces : cut sep xs with
        | nil => exact absurd pieces (cut_ne_nil sep xs)
        | cons first rest =>
            rw [pieces] at ih member
            rcases List.mem_cons.mp member with rfl | later
            · rw [List.mem_cons, not_or]
              exact ⟨fun equal => same equal.symm, ih List.mem_cons_self⟩
            · exact ih (List.mem_cons_of_mem _ later)

theorem cut_append {piece : List α} (absent : sep ∉ piece) (rest : List α) :
    cut sep (piece ++ sep :: rest) = piece :: cut sep rest := by
  induction piece with
  | nil => exact cut_cons_self sep rest
  | cons x piece ih =>
      rw [List.mem_cons, not_or] at absent
      rw [List.cons_append, cut_cons_of_ne (fun same => absent.1 same.symm), ih absent.2, prepend]

theorem cut_append_cons (first second : List α) :
    cut sep (first ++ sep :: second) = cut sep first ++ cut sep second := by
  induction first with
  | nil => exact cut_cons_self sep second
  | cons x first ih =>
      by_cases same : x = sep
      · subst same
        rw [List.cons_append, cut_cons_self, cut_cons_self, ih, List.cons_append]
      · rw [List.cons_append, cut_cons_of_ne same, cut_cons_of_ne same, ih]
        cases pieces : cut sep first with
        | nil => exact absurd pieces (cut_ne_nil sep first)
        | cons piece rest => rfl

theorem cut_self {piece : List α} (absent : sep ∉ piece) : cut sep piece = [piece] := by
  induction piece with
  | nil => rfl
  | cons x piece ih =>
      rw [List.mem_cons, not_or] at absent
      rw [cut_cons_of_ne (fun same => absent.1 same.symm), ih absent.2, prepend]

/-- Cutting at what the pieces were joined with gives them back. -/
theorem cut_intercalate {pieces : List (List α)} (nonempty : pieces ≠ [])
    (absent : ∀ piece ∈ pieces, sep ∉ piece) : cut sep ([sep].intercalate pieces) = pieces := by
  induction pieces with
  | nil => exact absurd rfl nonempty
  | cons piece rest ih =>
      have here := absent piece List.mem_cons_self
      cases rest with
      | nil => rw [List.intercalate_singleton, cut_self here]
      | cons next rest =>
          rw [List.intercalate_cons_cons, List.append_assoc, List.singleton_append, cut_append here,
            ih (List.cons_ne_nil _ _) fun other member =>
              absent other (List.mem_cons_of_mem _ member)]

theorem cutLast_eq_some {xs before after : List α}
    (found : cutLast sep xs = some (before, after)) : xs = before ++ sep :: after := by
  rw [cutLast, List.span_eq_takeWhile_dropWhile] at found
  split at found
  · cases found
  · rename_i after' x before' parts
    cases found
    rw [Prod.mk.injEq] at parts
    have whole : xs.reverse.takeWhile (· ≠ sep) ++ xs.reverse.dropWhile (· ≠ sep) = xs.reverse :=
      List.takeWhile_append_dropWhile
    have first := List.head?_dropWhile_not (· ≠ sep) xs.reverse
    rw [parts.2, List.head?_cons] at first
    have same : x = sep := by simpa using first
    rw [parts.1, parts.2, same] at whole
    rw [← List.reverse_reverse xs, ← whole]
    simp

theorem cutLast_isSome {xs : List α} (member : sep ∈ xs) : (cutLast sep xs).isSome = true := by
  rw [cutLast, List.span_eq_takeWhile_dropWhile]
  split
  · rename_i parts
    rw [Prod.mk.injEq, List.dropWhile_eq_nil_iff] at parts
    have other := parts.2 sep (List.mem_reverse.mpr member)
    simp at other
  · rfl

end Text

namespace Path

variable {path : String}

theorem isAbsolute_iff : isAbsolute path = true ↔ path.toList.head? = some '/' := by
  simp [isAbsolute]

theorem isAbsolute_clean (absolute : isAbsolute path = true) :
    isAbsolute (clean path) = true := by
  rw [clean, if_pos absolute, isAbsolute_iff, String.toList_append]
  rfl

theorem ne_empty (absolute : isAbsolute path = true) : path ≠ "" := by
  rintro rfl
  exact absurd absolute (by decide)

theorem isAbsolute_join {first : String} (absolute : isAbsolute first = true) (second : String) :
    isAbsolute (join [first, second]) = true := by
  have kept : [first, second].dropWhile (· = "") = [first, second] := by
    rw [List.dropWhile_cons, if_neg (by simpa using ne_empty absolute)]
  have whole : isAbsolute (String.intercalate "/" [first, second]) = true := by
    rw [isAbsolute_iff] at absolute ⊢
    rw [String.intercalate_cons_cons, String.toList_append, String.toList_append,
      List.append_assoc, List.head?_append, absolute]
    rfl
  rw [join, kept]
  exact isAbsolute_clean whole

theorem isAbsolute_directory (absolute : isAbsolute path = true) :
    isAbsolute (directory path) = true := by
  have slash : '/' ∈ path.toList := List.mem_of_mem_head? (isAbsolute_iff.mp absolute)
  obtain ⟨⟨before, after⟩, found⟩ := Option.isSome_iff_exists.mp (Text.cutLast_isSome slash)
  rw [directory, found]
  refine isAbsolute_clean ?_
  rw [isAbsolute_iff, String.toList_ofList]
  rw [isAbsolute_iff, Text.cutLast_eq_some found] at absolute
  cases before with
  | nil => rfl
  | cons c before => simpa using absolute

theorem isAbsolute_absolute {cwd : String} (rooted : isAbsolute cwd = true) (path : String) :
    isAbsolute (absolute cwd path) = true := by
  rw [Path.absolute]
  split
  · rename_i isAbsolute
    exact isAbsolute_clean isAbsolute
  · exact isAbsolute_join rooted path

theorem not_mem_of_mem_elements {element : String} (member : element ∈ elements path) :
    '/' ∉ element.toList := by
  obtain ⟨piece, inside, rfl⟩ := List.mem_map.mp member
  rw [String.toList_ofList]
  exact Text.not_mem_of_mem_cut inside

theorem cleanStep_isName {stack : List String} {element : String}
    (names : ∀ e ∈ stack, IsName e) (plain : '/' ∉ element.toList) :
    ∀ e ∈ cleanStep true stack element, IsName e := by
  unfold cleanStep
  split
  · exact names
  · rename_i ordinary
    simp only [Bool.or_eq_true, decide_eq_true_eq, not_or] at ordinary
    split
    · cases stack with
      | nil => exact fun e member => absurd member List.not_mem_nil
      | cons last rest =>
          have notUp := (names last List.mem_cons_self).2.2.1
          simp only [notUp, if_false]
          exact fun e member => names e (List.mem_cons_of_mem _ member)
    · rename_i down
      intro e member
      rcases List.mem_cons.mp member with rfl | below
      · exact ⟨ordinary.1, ordinary.2, down, plain⟩
      · exact names e below

theorem cleanElements_isName (absolute : isAbsolute path = true) :
    ∀ e ∈ cleanElements path, IsName e := by
  have folded (list stack : List String) (plain : ∀ e ∈ list, '/' ∉ e.toList)
      (names : ∀ e ∈ stack, IsName e) : ∀ e ∈ list.foldl (cleanStep true) stack, IsName e := by
    induction list generalizing stack with
    | nil => exact names
    | cons first rest ih =>
        exact ih (cleanStep true stack first) (fun e member => plain e (List.mem_cons_of_mem _ member))
          (cleanStep_isName names (plain first List.mem_cons_self))
  intro e member
  rw [cleanElements, absolute, List.mem_reverse] at member
  exact folded (elements path) [] (fun e => not_mem_of_mem_elements)
    (fun e member => absurd member List.not_mem_nil) e member

theorem foldl_cleanStep {list : List String} (names : ∀ e ∈ list, IsName e) (rooted : Bool)
    (stack : List String) : list.foldl (cleanStep rooted) stack = list.reverse ++ stack := by
  induction list generalizing stack with
  | nil => rfl
  | cons first rest ih =>
      obtain ⟨nonempty, notHere, notUp, -⟩ := names first List.mem_cons_self
      have step : cleanStep rooted stack first = first :: stack := by
        simp [cleanStep, nonempty, notHere, notUp]
      rw [List.foldl_cons, step, ih fun e member => names e (List.mem_cons_of_mem _ member)]
      simp

theorem toList_names (list : List String) :
    ("/" ++ String.intercalate "/" list).toList =
      '/' :: ['/'].intercalate (list.map String.toList) := by
  rw [String.toList_append, String.toList_intercalate]
  rfl

theorem cleanElements_names {list : List String} (names : ∀ e ∈ list, IsName e) :
    cleanElements ("/" ++ String.intercalate "/" list) = list := by
  have rooted : isAbsolute ("/" ++ String.intercalate "/" list) = true := by
    rw [isAbsolute_iff, toList_names]
    rfl
  have empty : cleanStep true [] "" = [] := rfl
  have pieces : elements ("/" ++ String.intercalate "/" list) =
      "" :: if list = [] then [""] else list := by
    rw [elements, Text.splitAt, toList_names, Text.cut_cons_self, List.map_cons]
    split
    · rename_i none
      subst none
      rfl
    · rename_i some
      rw [Text.cut_intercalate (by simpa using some), List.map_map]
      · simp [Function.comp_def]
      · intro piece member
        obtain ⟨e, inside, rfl⟩ := List.mem_map.mp member
        exact (names e inside).2.2.2
  rw [cleanElements, rooted, pieces, List.foldl_cons, empty]
  split
  · rename_i none
    subst none
    rfl
  · rw [foldl_cleanStep names, List.append_nil, List.reverse_reverse]

theorem clean_clean (absolute : isAbsolute path = true) : clean (clean path) = clean path := by
  have names := cleanElements_isName absolute
  have again := isAbsolute_clean absolute
  have shape : clean path = "/" ++ String.intercalate "/" (cleanElements path) := by
    rw [clean, if_pos absolute]
  rw [clean, if_pos again, shape, cleanElements_names names]

end Path

end DawnC
