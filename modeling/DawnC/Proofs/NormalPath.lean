import DawnC.Proofs.Path
import Mathlib.Data.List.Induction

set_option autoImplicit false

namespace DawnC

namespace Text

variable {α : Type} [DecidableEq α] {sep : α}

theorem intercalate_cut (xs : List α) : [sep].intercalate (cut sep xs) = xs := by
  induction xs with
  | nil => rfl
  | cons x xs ih =>
      obtain ⟨piece, rest, pieces⟩ := List.exists_cons_of_ne_nil (cut_ne_nil sep xs)
      rw [pieces] at ih
      by_cases same : x = sep
      · rw [same, cut_cons_self, pieces, List.intercalate_cons_cons, ih]
        rfl
      · rw [cut_cons_of_ne same, pieces]
        cases rest with
        | nil =>
            rw [prepend, List.intercalate_singleton]
            rw [List.intercalate_singleton] at ih
            rw [ih]
        | cons second more =>
            rw [prepend, List.intercalate_cons_cons]
            rw [List.intercalate_cons_cons] at ih
            rw [List.cons_append, List.cons_append, ih]

theorem cutLast_append (before : List α) {after : List α} (absent : sep ∉ after) :
    cutLast sep (before ++ sep :: after) = some (before, after) := by
  have kept : ∀ x ∈ after.reverse, decide (x ≠ sep) = true := by
    intro x member
    rw [decide_eq_true_eq]
    rintro rfl
    exact absent (List.mem_reverse.mp member)
  rw [cutLast, List.reverse_append, List.reverse_cons, List.append_assoc, List.singleton_append,
    List.span_eq_takeWhile_dropWhile, List.takeWhile_append_of_pos kept,
    List.dropWhile_append_of_pos kept, List.takeWhile_cons_of_neg (by simp),
    List.dropWhile_cons_of_neg (by simp)]
  simp

theorem not_mem_of_cutLast {xs before after : List α}
    (found : cutLast sep xs = some (before, after)) : sep ∉ after := by
  rw [cutLast, List.span_eq_takeWhile_dropWhile] at found
  split at found
  · cases found
  · rename_i after' x before' parts
    cases found
    rw [Prod.mk.injEq] at parts
    intro member
    rw [← parts.1, List.mem_reverse] at member
    simpa using List.mem_takeWhile_imp member

theorem cutLast_eq_none {xs : List α} (absent : sep ∉ xs) : cutLast sep xs = none := by
  cases found : cutLast sep xs with
  | none => rfl
  | some parts =>
      obtain ⟨before, after⟩ := parts
      rw [cutLast_eq_some found] at absent
      simp at absent

end Text

namespace Path

variable {path : String}

theorem elements_append (first second : String) :
    elements (first ++ "/" ++ second) = elements first ++ elements second := by
  have shape : (first ++ "/" ++ second).toList = first.toList ++ '/' :: second.toList := by simp
  rw [elements, Text.splitAt, shape, Text.cut_append_cons, List.map_append]
  rfl

theorem elements_self {name : String} (plain : '/' ∉ name.toList) : elements name = [name] := by
  rw [elements, Text.splitAt, Text.cut_self plain, List.map_singleton, String.ofList_toList]

theorem elements_intercalate {list : List String} (nonempty : list ≠ [])
    (plain : ∀ e ∈ list, '/' ∉ e.toList) : elements (String.intercalate "/" list) = list := by
  induction list with
  | nil => exact absurd rfl nonempty
  | cons first rest ih =>
      cases rest with
      | nil => rw [String.intercalate_singleton, elements_self (plain first List.mem_cons_self)]
      | cons second rest =>
          rw [String.intercalate_cons_cons, elements_append,
            elements_self (plain first List.mem_cons_self),
            ih (List.cons_ne_nil _ _) fun e member => plain e (List.mem_cons_of_mem _ member)]
          rfl

theorem intercalate_elements (path : String) : String.intercalate "/" (elements path) = path := by
  apply String.toList_inj.mp
  rw [String.toList_intercalate, elements, Text.splitAt, List.map_map]
  have same : String.toList ∘ String.ofList = id := by
    funext chars
    exact String.toList_ofList
  rw [same, List.map_id]
  exact Text.intercalate_cut path.toList

theorem isAbsolute_append {first : String} (nonempty : first ≠ "") (second : String) :
    isAbsolute (first ++ second) = isAbsolute first := by
  obtain ⟨c, rest, shape⟩ : ∃ c rest, first.toList = c :: rest := by
    cases chars : first.toList with
    | nil => exact absurd (String.toList_eq_nil_iff.mp chars) nonempty
    | cons c rest => exact ⟨c, rest, rfl⟩
  simp [isAbsolute, shape]

theorem join_pair {first : String} (nonempty : first ≠ "") (second : String) :
    join [first, second] = clean (first ++ "/" ++ second) := by
  have kept : [first, second].dropWhile (· = "") = [first, second] := by
    rw [List.dropWhile_cons, if_neg (by simpa using nonempty)]
  rw [join, kept]
  rfl

/-- An element that can stand in a cleaned path. -/
def IsElement (element : String) : Prop := element = ".." ∨ IsName element

theorem IsElement.nonempty {element : String} (valid : IsElement element) : element ≠ "" := by
  rcases valid with rfl | isName
  · decide
  · exact isName.1

theorem IsElement.plain {element : String} (valid : IsElement element) : '/' ∉ element.toList := by
  rcases valid with rfl | isName
  · decide
  · exact isName.2.2.2

def textOf (rooted : Bool) (list : List String) : String :=
  if rooted then "/" ++ String.intercalate "/" list
  else if list = [] then "." else String.intercalate "/" list

theorem intercalate_ne_empty {list : List String} (nonempty : list ≠ [])
    (valid : ∀ e ∈ list, IsElement e) : String.intercalate "/" list ≠ "" := by
  intro empty
  have same := elements_intercalate nonempty fun e member => (valid e member).plain
  rw [empty] at same
  have blank : "" ∈ list := by
    rw [← same]
    decide
  exact (valid "" blank).nonempty rfl

theorem textOf_ne_empty {rooted : Bool} {list : List String} (valid : ∀ e ∈ list, IsElement e) :
    textOf rooted list ≠ "" := by
  unfold textOf
  split
  · simp
  · split
    · decide
    · rename_i nonempty
      exact intercalate_ne_empty nonempty valid

theorem isAbsolute_textOf {rooted : Bool} {list : List String} (valid : ∀ e ∈ list, IsElement e) :
    isAbsolute (textOf rooted list) = rooted := by
  unfold textOf
  split
  · rename_i isRooted
    rw [isRooted, isAbsolute_append (by decide)]
    decide
  · rename_i relative
    rw [Bool.not_eq_true] at relative
    rw [relative]
    cases list with
    | nil => decide
    | cons first rest =>
        have here := valid first List.mem_cons_self
        have relative : isAbsolute first = false := by
          rw [isAbsolute, decide_eq_false_iff_not]
          exact fun slash => here.plain (List.mem_of_mem_head? slash)
        rw [if_neg (List.cons_ne_nil _ _)]
        cases rest with
        | nil => rw [String.intercalate_singleton, relative]
        | cons second rest =>
            rw [String.intercalate_cons_cons, String.append_assoc, isAbsolute_append here.nonempty,
              relative]

/-- The elements of a cleaned path as text: those it has, and empty or `.` ones at the ends. -/
theorem elements_textOf {rooted : Bool} {list : List String} (valid : ∀ e ∈ list, IsElement e) :
    elements (textOf rooted list) =
      if rooted then "" :: (if list = [] then [""] else list)
      else if list = [] then ["."] else list := by
  have plain : ∀ e ∈ list, '/' ∉ e.toList := fun e member => (valid e member).plain
  unfold textOf
  split
  · have shape : "/" ++ String.intercalate "/" list = "" ++ "/" ++ String.intercalate "/" list := by
      simp
    rw [shape, elements_append]
    split
    · rename_i empty
      subst empty
      decide
    · rename_i nonempty
      rw [elements_intercalate nonempty plain]
      rfl
  · split
    · decide
    · rename_i nonempty
      exact elements_intercalate nonempty plain

/-- A path that was cleaned: from the root or from the working directory some directories up, then down
by names. From the root there is nothing above. -/
structure Normal where
  rooted : Bool
  ups : Nat
  names : List String
  valid : ∀ name ∈ names, IsName name
  top : rooted = true → ups = 0

namespace Normal

def elements (n : Normal) : List String := List.replicate n.ups ".." ++ n.names

def text (n : Normal) : String := textOf n.rooted n.elements

def under (n : Normal) (more : List String) (valid : ∀ name ∈ more, IsName name) : Normal where
  rooted := n.rooted
  ups := n.ups
  names := n.names ++ more
  valid name member := (List.mem_append.mp member).elim (n.valid name) (valid name)
  top := n.top

theorem under_nil (n : Normal) (valid : ∀ name ∈ [], IsName name) : n.under [] valid = n := by
  simp only [under, List.append_nil]

theorem under_append (n : Normal) {init more : List String}
    (valid : ∀ name ∈ init ++ more, IsName name) :
    n.under (init ++ more) valid =
      (n.under init fun name member => valid name (List.mem_append_left _ member)).under more
        fun name member => valid name (List.mem_append_right _ member) := by
  simp only [under, List.append_assoc]

/-- A path that only leads up, and then down name by name. -/
@[elab_as_elim]
theorem inductionOn {motive : Normal → Prop} (n : Normal)
    (level : ∀ m : Normal, m.names = [] → motive m)
    (down : ∀ (m : Normal) (last : String) (valid : ∀ name ∈ [last], IsName name),
      motive m → motive (m.under [last] valid)) : motive n := by
  obtain ⟨rooted, ups, names, valid, top⟩ := n
  induction names using List.reverseRecOn with
  | nil => exact level _ rfl
  | append_singleton init last ih =>
      exact down ⟨rooted, ups, init, fun name member => valid name (List.mem_append_left _ member), top⟩
        last (fun name member => valid name (List.mem_append_right _ member)) (ih _)

def below (names : List String) (valid : ∀ name ∈ names, IsName name) : Normal :=
  ⟨false, 0, names, valid, fun rooted => by cases rooted⟩

def fromRoot (names : List String) (valid : ∀ name ∈ names, IsName name) : Normal :=
  ⟨true, 0, names, valid, fun _ => rfl⟩

theorem isElement (n : Normal) : ∀ e ∈ n.elements, IsElement e := by
  intro e member
  rcases List.mem_append.mp member with up | down
  · exact Or.inl (List.eq_of_mem_replicate up)
  · exact Or.inr (n.valid e down)

theorem elements_under (n : Normal) (more : List String) (valid : ∀ name ∈ more, IsName name) :
    (n.under more valid).elements = n.elements ++ more := by
  simp [elements, under]

@[simp] theorem isAbsolute_text (n : Normal) : isAbsolute n.text = n.rooted :=
  isAbsolute_textOf n.isElement

theorem text_ne_empty (n : Normal) : n.text ≠ "" := textOf_ne_empty n.isElement

/-- The names that a lookup follows. -/
theorem names_text (n : Normal) :
    Path.names n.text = if n.rooted = false ∧ n.elements = [] then ["."] else n.elements := by
  have kept : n.elements.filter (· ≠ "") = n.elements := by
    rw [List.filter_eq_self]
    exact fun e member => by simpa using (n.isElement e member).nonempty
  rw [Path.names, text, elements_textOf n.isElement]
  cases n.rooted with
  | false =>
      by_cases empty : n.elements = []
      · simp [empty]
      · simpa [empty] using kept
  | true =>
      by_cases empty : n.elements = []
      · simp [empty]
      · simpa [empty] using kept

end Normal

/-- The elements kept while cleaning: names on top of steps up. -/
def IsStack (rooted : Bool) (stack : List String) : Prop :=
  ∃ n : Normal, n.rooted = rooted ∧ stack = n.elements.reverse

theorem cleanStep_isStack {rooted : Bool} {stack : List String} {element : String}
    (normal : IsStack rooted stack) (plain : '/' ∉ element.toList) :
    IsStack rooted (cleanStep rooted stack element) := by
  obtain ⟨n, same, rfl⟩ := normal
  unfold cleanStep
  split
  · exact ⟨n, same, rfl⟩
  · rename_i ordinary
    simp only [Bool.or_eq_true, decide_eq_true_eq, not_or] at ordinary
    split
    · rcases n.names.eq_nil_or_concat with none | ⟨init, last, split⟩
      · -- only steps up are there: one more, unless the path starts at the root
        obtain ⟨ups, shape⟩ : ∃ ups, n.elements.reverse = List.replicate ups ".." ∧
            (rooted = true → ups = 0) :=
          ⟨n.ups, by simp [Normal.elements, none], fun isRooted => n.top (same.trans isRooted)⟩
        rw [shape.1]
        cases ups with
        | zero =>
            cases rooted with
            | true => exact ⟨⟨true, 0, [], by simp, fun _ => rfl⟩, rfl, rfl⟩
            | false => exact ⟨⟨false, 1, [], by simp, by simp⟩, rfl, rfl⟩
        | succ ups =>
            have relative : rooted = false := by
              cases rooted with
              | true => exact absurd (shape.2 rfl) (Nat.succ_ne_zero ups)
              | false => rfl
            subst relative
            refine ⟨⟨false, ups + 2, [], by simp, by simp⟩, rfl, ?_⟩
            simp only [Normal.elements, List.append_nil, List.reverse_replicate]
            rfl
      · have isName : IsName last := n.valid last (by rw [split]; simp)
        have shape : n.elements.reverse = last :: (List.replicate n.ups ".." ++ init).reverse := by
          simp [Normal.elements, split]
        rw [shape]
        simp only [isName.2.2.1, if_false]
        exact ⟨⟨n.rooted, n.ups, init, fun e member => n.valid e (by rw [split]; simp [member]),
          n.top⟩, same, rfl⟩
    · rename_i down
      have isName : IsName element := ⟨ordinary.1, ordinary.2, down, plain⟩
      refine ⟨n.under [element] (by simpa using isName), same, ?_⟩
      rw [Normal.elements_under, List.reverse_append]
      rfl

theorem foldl_cleanStep_isStack {rooted : Bool} {list stack : List String}
    (normal : IsStack rooted stack) (plain : ∀ e ∈ list, '/' ∉ e.toList) :
    IsStack rooted (list.foldl (cleanStep rooted) stack) := by
  induction list generalizing stack with
  | nil => exact normal
  | cons first rest ih =>
      exact ih (cleanStep_isStack normal (plain first List.mem_cons_self))
        fun e member => plain e (List.mem_cons_of_mem _ member)

theorem clean_eq_text {n : Normal} (rooted : n.rooted = isAbsolute path)
    (cleaned : cleanElements path = n.elements) : clean path = n.text := by
  rw [clean, Normal.text, textOf, rooted, cleaned]
  by_cases empty : n.elements = []
  · simp [empty]
  · simp [empty, intercalate_ne_empty empty n.isElement]

/-- Cleaning gives a cleaned path. -/
theorem exists_normal (path : String) :
    ∃ n : Normal, n.rooted = isAbsolute path ∧ cleanElements path = n.elements ∧
      clean path = n.text := by
  have start : IsStack (isAbsolute path) [] := ⟨⟨_, 0, [], by simp, fun _ => rfl⟩, rfl, rfl⟩
  have plain : ∀ e ∈ elements path, '/' ∉ e.toList := fun e => not_mem_of_mem_elements
  obtain ⟨n, rooted, shape⟩ := foldl_cleanStep_isStack start plain
  have cleaned : cleanElements path = n.elements := by
    rw [cleanElements, shape, List.reverse_reverse]
  exact ⟨n, rooted, cleaned, clean_eq_text rooted cleaned⟩

theorem exists_normal_join (first : String) {second : String} (filled : second ≠ "") :
    ∃ n : Normal, join [first, second] = n.text ∧ (first ≠ "" → n.rooted = isAbsolute first) := by
  by_cases empty : first = ""
  · have alone : join [first, second] = clean second := by
      simp [join, empty, filled]
    obtain ⟨n, -, -, shape⟩ := exists_normal second
    exact ⟨n, alone.trans shape, fun nonempty => absurd empty nonempty⟩
  · obtain ⟨n, rooted, -, shape⟩ := exists_normal (first ++ "/" ++ second)
    refine ⟨n, (join_pair empty second).trans shape, ?_⟩
    intro _
    rw [rooted, String.append_assoc, isAbsolute_append empty]

namespace Normal

variable {n : Normal}

theorem foldl_ups (k ups : Nat) :
    (List.replicate ups "..").foldl (cleanStep false) (List.replicate k "..") =
      List.replicate (k + ups) ".." := by
  induction ups generalizing k with
  | zero => rfl
  | succ ups ih =>
      have step : cleanStep false (List.replicate k "..") ".." = List.replicate (k + 1) ".." := by
        cases k with
        | zero => rfl
        | succ k => rfl
      rw [List.replicate_succ, List.foldl_cons, step, ih]
      congr 1
      omega

/-- Reading a cleaned path gives back its elements. -/
theorem foldl_elements (n : Normal) :
    (Path.elements n.text).foldl (cleanStep n.rooted) [] = n.elements.reverse := by
  have down : n.elements.foldl (cleanStep n.rooted) [] = n.elements.reverse := by
    rw [elements, List.foldl_append, List.reverse_append, List.reverse_replicate,
      foldl_cleanStep n.valid]
    cases rooted : n.rooted with
    | true => rw [n.top rooted]
              rfl
    | false => rw [show ([] : List String) = List.replicate 0 ".." from rfl, foldl_ups, Nat.zero_add]
  rw [text, elements_textOf n.isElement]
  by_cases empty : n.elements = []
  · cases n.rooted with
    | true => simp [empty, cleanStep]
    | false => simp [empty, cleanStep]
  · cases rooted : n.rooted with
    | true =>
        rw [rooted] at down
        simpa [empty, cleanStep] using down
    | false =>
        rw [rooted] at down
        simpa [empty] using down

theorem clean_slash (n : Normal) : clean (n.text ++ "/" ++ "") = n.text := by
  have shape : isAbsolute (n.text ++ "/" ++ "") = n.rooted := by
    rw [String.append_assoc, isAbsolute_append n.text_ne_empty, isAbsolute_text]
  have last (stack : List String) : (Path.elements "").foldl (cleanStep n.rooted) stack = stack := rfl
  apply clean_eq_text
  · exact shape.symm
  · rw [cleanElements, shape, elements_append, List.foldl_append, foldl_elements, last,
      List.reverse_reverse]

theorem join_text (n : Normal) {more : List String} (valid : ∀ name ∈ more, IsName name) :
    join [n.text, (below more valid).text] = (n.under more valid).text := by
  have shape : isAbsolute (n.text ++ "/" ++ (below more valid).text) = n.rooted := by
    rw [String.append_assoc, isAbsolute_append n.text_ne_empty, isAbsolute_text]
  have steps : (Path.elements (below more valid).text).foldl (cleanStep n.rooted) n.elements.reverse =
      more.reverse ++ n.elements.reverse := by
    rw [text, elements_textOf (below more valid).isElement]
    by_cases empty : more = []
    · simp [below, elements, empty, cleanStep]
    · simp only [below, elements, List.replicate_zero, List.nil_append, empty, if_false,
        Bool.false_eq_true]
      exact foldl_cleanStep valid _ _
  rw [join_pair n.text_ne_empty]
  apply clean_eq_text
  · exact shape.symm
  · rw [cleanElements, shape, elements_append, List.foldl_append, foldl_elements, steps,
      elements_under, List.reverse_append, List.reverse_reverse, List.reverse_reverse]

theorem text_below_single {name : String} (isName : IsName name) :
    (below [name] (by simpa using isName)).text = name := by
  simp [text, textOf, below, elements]

theorem join_name (n : Normal) {name : String} (isName : IsName name) :
    join [n.text, name] = (n.under [name] (by simpa using isName)).text := by
  have joined := n.join_text (show ∀ e ∈ [name], IsName e by simpa using isName)
  rwa [text_below_single isName] at joined

theorem cleanElements_text (n : Normal) : cleanElements n.text = n.elements := by
  rw [cleanElements, isAbsolute_text, foldl_elements, List.reverse_reverse]

structure Cleans (n : Normal) (path : String) : Prop where
  filled : path ≠ ""
  rooted : n.rooted = isAbsolute path
  elements : cleanElements path = n.elements

theorem cleans_text (n : Normal) : n.Cleans n.text :=
  ⟨n.text_ne_empty, n.isAbsolute_text.symm, n.cleanElements_text⟩

theorem Cleans.clean (cleans : n.Cleans path) : clean path = n.text :=
  clean_eq_text cleans.rooted cleans.elements

/-- Names that are joined to a path stand under the cleaned path. -/
theorem Cleans.join (cleans : n.Cleans path) {names : List String} (valid : ∀ name ∈ names, IsName name) :
    join (path :: names) = (n.under names valid).text := by
  have kept : (path :: names).dropWhile (· = "") = path :: names := by
    rw [List.dropWhile_cons, if_neg (by simpa using cleans.filled)]
  have plain : ∀ name ∈ names, '/' ∉ name.toList := fun name member => (valid name member).2.2.2
  have elements : Path.elements (String.intercalate "/" (path :: names)) = Path.elements path ++ names := by
    cases names with
    | nil => rw [String.intercalate_singleton, List.append_nil]
    | cons first rest =>
        rw [String.intercalate_cons_cons, elements_append,
          elements_intercalate (List.cons_ne_nil _ _) plain]
  have rooted : isAbsolute (String.intercalate "/" (path :: names)) = isAbsolute path := by
    cases names with
    | nil => rw [String.intercalate_singleton]
    | cons first rest =>
        rw [String.intercalate_cons_cons, String.append_assoc, isAbsolute_append cleans.filled]
  rw [Path.join, kept]
  apply clean_eq_text
  · exact cleans.rooted.trans rooted.symm
  · rw [cleanElements, rooted, elements, List.foldl_append, foldl_cleanStep valid, List.reverse_append,
      List.reverse_reverse, ← cleanElements, cleans.elements, elements_under]

end Normal

theorem exists_cleans (filled : path ≠ "") : ∃ n : Normal, n.Cleans path := by
  obtain ⟨n, rooted, elements, -⟩ := exists_normal path
  exact ⟨n, filled, rooted, elements⟩

theorem textOf_concat {rooted : Bool} {list : List String} {last : String} :
    textOf rooted (list ++ [last]) =
      if list = [] then (if rooted then "/" ++ last else last)
      else textOf rooted list ++ "/" ++ last := by
  by_cases empty : list = []
  · subst empty
    cases rooted <;> simp [textOf]
  · have shape : String.intercalate "/" (list ++ [last]) = String.intercalate "/" list ++ "/" ++ last := by
      rw [String.intercalate_append_of_ne_nil empty (List.cons_ne_nil _ _),
        String.intercalate_singleton]
    cases rooted
    · simp [textOf, empty, shape]
    · simp [textOf, empty, shape, String.append_assoc]

/-- The directory of a cleaned path is the path without its last element. -/
theorem directory_concat {n : Normal} {last : String} (isName : IsName last) :
    directory (n.under [last] (by simpa using isName)).text = n.text := by
  have plain : '/' ∉ last.toList := isName.2.2.2
  rw [Normal.text, Normal.elements_under, textOf_concat]
  by_cases empty : n.elements = []
  · have alone : n.text = textOf n.rooted [] := by rw [Normal.text, empty]
    rw [if_pos empty, alone]
    change directory (if n.rooted = true then "/" ++ last else last) = _
    cases n.rooted with
    | true =>
        have cutting : Text.cutLast '/' ("/" ++ last).toList = some ([], last.toList) := by
          rw [String.toList_append]
          exact Text.cutLast_append [] plain
        rw [if_pos rfl, directory, cutting]
        exact (by decide : clean "/" = textOf true [])
    | false =>
        rw [if_neg (by decide), directory, Text.cutLast_eq_none plain]
        decide
  · have cutting : Text.cutLast '/' (n.text ++ "/" ++ last).toList = some (n.text.toList, last.toList) := by
      rw [String.toList_append, String.toList_append, List.append_assoc]
      exact Text.cutLast_append _ plain
    rw [if_neg empty]
    change directory (n.text ++ "/" ++ last) = n.text
    rw [directory, cutting]
    change clean (String.ofList (n.text.toList ++ ['/'])) = n.text
    have trailing : String.ofList (n.text.toList ++ ['/']) = n.text ++ "/" ++ "" := by
      apply String.toList_inj.mp
      simp
    rw [trailing, n.clean_slash]

theorem Normal.directory_under (n : Normal) {init : List String} {last : String}
    (valid : ∀ name ∈ init ++ [last], IsName name) :
    directory (n.under (init ++ [last]) valid).text =
      (n.under init fun name member => valid name (List.mem_append_left _ member)).text := by
  rw [under_append]
  exact directory_concat (valid last (by simp))

theorem lineageFrom_plain {before rest : List Char} (plain : '/' ∉ rest) :
    lineageFrom before rest = [] := by
  induction rest generalizing before with
  | nil => rfl
  | cons c rest ih =>
      rw [List.mem_cons, not_or] at plain
      have other : ¬ (c = '/' && !before.isEmpty && rest.head?.any (· ≠ '/')) = true := by
        simp [Ne.symm plain.1]
      rw [lineageFrom, if_neg other]
      exact ih plain.2

/-- What stands before the last slash is the last path above. -/
theorem lineageFrom_append {before rest name : List Char} {c : Char}
    (filled : before ≠ [] ∨ rest ≠ []) (ends : rest.getLast? ≠ some '/')
    (starts : name.head? = some c) (plain : '/' ∉ name) :
    lineageFrom before (rest ++ '/' :: name) =
      lineageFrom before rest ++ [String.ofList (before.reverse ++ rest)] := by
  have different : c ≠ '/' := by
    rintro rfl
    exact plain (List.mem_of_mem_head? starts)
  induction rest generalizing before with
  | nil =>
      have nonempty : before ≠ [] := by simpa using filled
      have here : ('/' = '/' && !before.isEmpty && name.head?.any (· ≠ '/')) = true := by
        simp [nonempty, starts, different]
      have found : lineageFrom before ('/' :: name) =
          String.ofList before.reverse :: lineageFrom ('/' :: before) name := if_pos here
      rw [List.nil_append, found, lineageFrom_plain plain, List.append_nil]
      rfl
  | cons x rest ih =>
      have tail (ends : rest.getLast? ≠ some '/') :
          lineageFrom (x :: before) (rest ++ '/' :: name) =
            lineageFrom (x :: before) rest ++ [String.ofList (before.reverse ++ x :: rest)] := by
        rw [ih (Or.inl (List.cons_ne_nil _ _)) ends, List.reverse_cons, List.append_assoc]
        rfl
      cases rest with
      | nil =>
          have notSlash : x ≠ '/' := by simpa using ends
          rw [List.cons_append, lineageFrom, lineageFrom, if_neg (by simp [notSlash]),
            if_neg (by simp [notSlash]), tail (by simp)]
      | cons y rest =>
          have tail := tail (by simpa using ends)
          -- the character after `x` is in `rest`, so what is appended does not matter here
          by_cases cut : (x = '/' && !before.isEmpty && (y :: rest).head?.any (· ≠ '/')) = true
          · have whole : lineageFrom before (x :: (y :: rest ++ '/' :: name)) =
                String.ofList before.reverse :: lineageFrom (x :: before) (y :: rest ++ '/' :: name) :=
              if_pos cut
            have part : lineageFrom before (x :: y :: rest) =
                String.ofList before.reverse :: lineageFrom (x :: before) (y :: rest) := if_pos cut
            rw [List.cons_append, whole, part, tail, List.cons_append]
          · have whole : lineageFrom before (x :: (y :: rest ++ '/' :: name)) =
                lineageFrom (x :: before) (y :: rest ++ '/' :: name) := if_neg cut
            have part : lineageFrom before (x :: y :: rest) = lineageFrom (x :: before) (y :: rest) :=
              if_neg cut
            rw [List.cons_append, whole, part, tail]

theorem getLast?_textOf {rooted : Bool} {list : List String} (nonempty : list ≠ [])
    (valid : ∀ e ∈ list, IsElement e) : (textOf rooted list).toList.getLast? ≠ some '/' := by
  obtain ⟨init, last, rfl⟩ := List.eq_nil_or_concat list |>.resolve_left nonempty
  have isElement : IsElement last := valid last (by simp)
  have filled : last.toList ≠ [] := by simpa using isElement.nonempty
  have ends (front : List Char) : (front ++ last.toList).getLast? ≠ some '/' := by
    rw [List.getLast?_append, List.getLast?_eq_some_getLast filled, Option.some_or, ne_eq,
      Option.some.injEq]
    intro slash
    exact isElement.plain (slash ▸ List.getLast_mem filled)
  rw [List.concat_eq_append, textOf_concat]
  split
  · split
    · rw [String.toList_append]
      exact ends _
    · exact ends []
  · rw [String.toList_append]
    exact ends _

/-- The paths above a cleaned path, the path one element shorter last. -/
theorem lineage_concat {rooted : Bool} {list : List String} {last : String}
    (valid : ∀ e ∈ list, IsElement e) (isElement : IsElement last) :
    lineage (textOf rooted (list ++ [last])) =
      if list = [] then [] else lineage (textOf rooted list) ++ [textOf rooted list] := by
  obtain ⟨c, starts⟩ : ∃ c, last.toList.head? = some c := by
    cases chars : last.toList with
    | nil => exact absurd (String.toList_eq_nil_iff.mp chars) isElement.nonempty
    | cons c rest => exact ⟨c, rfl⟩
  rw [textOf_concat]
  by_cases empty : list = []
  · rw [if_pos empty, if_pos empty]
    cases rooted with
    | true =>
        have first : ¬ ('/' = '/' && !([] : List Char).isEmpty && last.toList.head?.any (· ≠ '/')) = true := by
          simp
        rw [if_pos rfl, lineage, String.toList_append]
        change lineageFrom [] ('/' :: last.toList) = []
        rw [lineageFrom, if_neg first, lineageFrom_plain isElement.plain]
    | false =>
        rw [if_neg (by decide), lineage, lineageFrom_plain isElement.plain]
  · have filled : (textOf rooted list).toList ≠ [] := by simpa using textOf_ne_empty valid
    rw [if_neg empty, if_neg empty, lineage, String.toList_append, String.toList_append,
      List.append_assoc]
    change lineageFrom [] ((textOf rooted list).toList ++ '/' :: last.toList) = _
    rw [lineageFrom_append (Or.inr filled) (getLast?_textOf empty valid) starts isElement.plain, lineage]
    simp

end Path

end DawnC
