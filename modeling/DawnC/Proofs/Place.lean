import DawnC.Proofs.NormalPath

set_option autoImplicit false

namespace DawnC

namespace Path

variable {path : String}

def move (place : List String) (element : String) : List String :=
  if element = "" ∨ element = "." then place
  else if element = ".." then place.dropLast
  else place ++ [element]

def follow (place : List String) (list : List String) : List String := list.foldl move place

/-- The place that a path names, for a working directory `cwd`, whether or not anything is there. -/
def place (cwd : List String) (path : String) : List String :=
  follow (if isAbsolute path then [] else cwd) (elements path)

theorem move_up (place : List String) : move place ".." = place.dropLast := rfl

theorem move_name {name : String} (isName : IsName name) (place : List String) :
    move place name = place ++ [name] := by
  simp [move, isName.1, isName.2.1, isName.2.2.1]

theorem follow_append (place first second : List String) :
    follow place (first ++ second) = follow (follow place first) second := List.foldl_append

theorem follow_names {list : List String} (names : ∀ e ∈ list, IsName e) (place : List String) :
    follow place list = place ++ list := by
  induction list generalizing place with
  | nil => simp [follow]
  | cons first rest ih =>
      have later := ih (fun e member => names e (List.mem_cons_of_mem _ member)) (place ++ [first])
      rw [follow, List.foldl_cons, move_name (names first List.mem_cons_self)]
      rw [follow] at later
      rw [later]
      simp

/-- A step of cleaning leads where the element leads. -/
theorem follow_cleanStep {rooted : Bool} {place stack : List String} {element : String}
    (atRoot : rooted = true → place = []) (valid : ∀ e ∈ stack, IsElement e) :
    follow place (cleanStep rooted stack element).reverse = move (follow place stack.reverse) element := by
  unfold cleanStep
  split
  · rename_i idle
    have idle : element = "" ∨ element = "." := by simpa using idle
    rw [move, if_pos idle]
  · rename_i ordinary
    split
    · rename_i up
      subst up
      rw [move_up]
      cases stack with
      | nil =>
          cases rooted with
          | true => rw [atRoot rfl]
                    rfl
          | false => rfl
      | cons last rest =>
          rw [List.reverse_cons, follow_append]
          dsimp only
          split
          · rename_i isUp
            subst isUp
            rw [List.reverse_cons, List.reverse_cons, follow_append, follow_append]
            rfl
          · rename_i notUp
            have isName := (valid last List.mem_cons_self).resolve_left notUp
            have down : follow (follow place rest.reverse) [last] = follow place rest.reverse ++ [last] :=
              move_name isName _
            rw [down, List.dropLast_concat]
    · rename_i down
      have ordinary : ¬ (element = "" ∨ element = ".") := by simpa using ordinary
      rw [List.reverse_cons, follow_append]
      rfl

/-- A cleaned path leads where the path leads. -/
theorem follow_cleanElements {start : List String} (atRoot : isAbsolute path = true → start = []) :
    follow start (cleanElements path) = follow start (elements path) := by
  have folded (list stack : List String) (plain : ∀ e ∈ list, '/' ∉ e.toList)
      (normal : IsStack (isAbsolute path) stack) :
      follow start (list.foldl (cleanStep (isAbsolute path)) stack).reverse =
        follow (follow start stack.reverse) list := by
    induction list generalizing stack with
    | nil => rfl
    | cons first rest ih =>
        obtain ⟨n, rooted, shape⟩ := normal
        have valid : ∀ e ∈ stack, IsElement e := by
          intro e member
          rw [shape, List.mem_reverse] at member
          exact n.isElement e member
        rw [List.foldl_cons, ih _ (fun e member => plain e (List.mem_cons_of_mem _ member))
            (cleanStep_isStack ⟨n, rooted, shape⟩ (plain first List.mem_cons_self)),
          follow_cleanStep atRoot valid]
        rfl
  exact folded (elements path) [] (fun e => not_mem_of_mem_elements)
    ⟨⟨_, 0, [], by simp, fun _ => rfl⟩, rfl, rfl⟩

/-- The place some directories up; the root is its own parent. -/
def above (place : List String) (ups : Nat) : List String := place.take (place.length - ups)

theorem follow_ups (place : List String) (ups : Nat) :
    follow place (List.replicate ups "..") = above place ups := by
  induction ups generalizing place with
  | zero => simp [follow, above]
  | succ ups ih =>
      have later := ih place.dropLast
      rw [follow] at later
      rw [List.replicate_succ, follow, List.foldl_cons, move_up, later, above, above,
        List.length_dropLast, List.dropLast_eq_take, List.take_take]
      congr 1
      omega

namespace Normal

def base (n : Normal) (cwd : List String) : List String := above (if n.rooted then [] else cwd) n.ups

/-- The place that a cleaned path names. -/
def place (n : Normal) (cwd : List String) : List String := n.base cwd ++ n.names

theorem follow_elements (n : Normal) (start : List String) :
    follow start n.elements = above start n.ups ++ n.names := by
  rw [elements, follow_append, follow_ups, follow_names n.valid]

theorem follow_elements_text (n : Normal) (start : List String) :
    follow start (Path.elements n.text) = follow start n.elements := by
  rw [text, elements_textOf n.isElement]
  by_cases empty : n.elements = []
  · cases n.rooted <;> simp [empty, follow, move]
  · cases n.rooted <;> simp [empty, follow, move]

theorem place_text (n : Normal) (cwd : List String) : Path.place cwd n.text = n.place cwd := by
  rw [Path.place, isAbsolute_text, follow_elements_text, follow_elements]
  rfl

theorem place_under (n : Normal) {more : List String} (valid : ∀ name ∈ more, IsName name)
    (cwd : List String) : (n.under more valid).place cwd = n.place cwd ++ more := by
  rw [place, place, List.append_assoc]
  rfl

end Normal

theorem place_clean (cwd : List String) (path : String) : place cwd (clean path) = place cwd path := by
  obtain ⟨n, rooted, cleaned, shape⟩ := exists_normal path
  have atRoot : isAbsolute path = true → (if isAbsolute path then [] else cwd) = [] :=
    fun absolute => if_pos absolute
  rw [shape, place, Normal.isAbsolute_text, rooted, n.follow_elements_text, ← cleaned,
    follow_cleanElements atRoot]
  rfl

theorem Normal.Cleans.place {n : Normal} {path : String} (cleans : n.Cleans path) (cwd : List String) :
    Path.place cwd path = n.place cwd := by
  rw [← place_clean, cleans.clean, Normal.place_text]

theorem place_join {first : String} (nonempty : first ≠ "") (cwd : List String) (second : String) :
    place cwd (join [first, second]) = follow (place cwd first) (elements second) := by
  rw [join_pair nonempty, place_clean, place, String.append_assoc, isAbsolute_append nonempty,
    ← String.append_assoc, elements_append, follow_append]
  rfl

theorem place_join_name {name : String} (isName : IsName name) (cwd : List String) (first : String) :
    place cwd (join [first, name]) = place cwd first ++ [name] := by
  have alone : elements name = [name] := elements_self isName.2.2.2
  by_cases empty : first = ""
  · have relative : isAbsolute name = false := by
      rw [isAbsolute, decide_eq_false_iff_not]
      exact fun slash => isName.2.2.2 (List.mem_of_mem_head? slash)
    have joined : join [first, name] = clean name := by simp [join, empty, isName.1]
    rw [joined, place_clean, place, relative, alone, empty]
    exact move_name isName cwd
  · rw [place_join empty, alone]
    exact move_name isName _

/-- A path taken from the root by its text names the same place. -/
theorem place_absolute {cwd : List String} (valid : ∀ name ∈ cwd, IsName name)
    (other : List String) (path : String) :
    place other (absolute ("/" ++ String.intercalate "/" cwd) path) = place cwd path := by
  let here : Normal := ⟨true, 0, cwd, valid, fun _ => rfl⟩
  have shape : "/" ++ String.intercalate "/" cwd = here.text := rfl
  have start : place other here.text = cwd := by
    rw [Normal.place_text]
    rfl
  rw [absolute]
  split
  · rename_i isAbsolute
    rw [place_clean, place, place, if_pos isAbsolute, if_pos isAbsolute]
  · rename_i relative
    rw [shape, place_join here.text_ne_empty, start, place, if_neg relative]

end Path

end DawnC
