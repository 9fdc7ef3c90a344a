import DawnC.Proofs.Store.Agreement

set_option autoImplicit false

namespace DawnC

/-- Nothing is new or changed: what is not gone is as it was. -/
def Store.Shrinks (s t : Store) : Prop := ∀ place, t.get? place = s.get? place ∨ t.get? place = none

instance : IsPreorder Store Store.Shrinks where
  refl _ _ := Or.inl rfl
  trans _ _ _ first second place := by
    rcases second place with same | gone
    · rw [same]
      exact first place
    · exact Or.inr gone

namespace Store.Shrinks

variable {s t : Store}

theorem absent (shrinks : Shrinks s t) {place : Location} (missing : s.get? place = none) :
    t.get? place = none := by
  rcases shrinks place with same | gone
  · rw [same, missing]
  · exact gone

theorem before (shrinks : Shrinks s t) {place : Location} {entry : Entry}
    (found : t.get? place = some entry) : s.get? place = some entry := by
  rcases shrinks place with same | gone
  · rw [← same, found]
  · rw [gone] at found
    cases found

theorem erase {place : Location} (down : place ≠ []) : Shrinks s (s.erase place) := by
  intro other
  rw [get?_erase down]
  split
  · exact Or.inr rfl
  · exact Or.inl rfl

theorem eraseTree {place : Location} (down : place ≠ []) : Shrinks s (s.eraseTree place) := by
  intro other
  rw [get?_eraseTree down]
  split
  · exact Or.inr rfl
  · exact Or.inl rfl

end Store.Shrinks

namespace FileAction

open Attempt (Sustains run_bind_ok run_bind_error run_tryCatch_ok run_tryCatch_error)
open Store (Shrinks)

variable {s t : Store} {path : String} {cwd : Location}

theorem Removable.shrinks {place : Location} (removable : Removable s path place) :
    Shrinks s (s.erase place) := .erase removable.ne_nil

theorem removeIfExists_shrinks (path : String) : Sustains Shrinks (removeIfExists path) := by
  intro s
  rcases removeIfExists_cases s path with ⟨result, same⟩ | ⟨place, removable, ran⟩
  · rw [same]
    exact refl_of _ s
  · rw [ran]
    exact removable.shrinks

theorem removeTree_shrinks (path : String) : Sustains Shrinks (removeTree path) := by
  intro s
  rcases removeTree_cases s path with ⟨result, same⟩ | ⟨place, removable, ran⟩ | ⟨place, result, -, ran⟩
  · rw [same]
    exact refl_of _ s
  · rw [ran]
    exact removable.shrinks
  · rw [ran]
    exact .eraseTree (by simp)

theorem splitLast_under (p : Path.Normal) {name : String} (valid : ∀ e ∈ [name], Path.IsName e) :
    splitLast (p.under [name] valid).text = (p.text, name) := by
  have plain : '/' ∉ name.toList := (valid name List.mem_cons_self).2.2.2
  rw [Path.Normal.text, Path.Normal.elements_under, Path.textOf_concat]
  change splitLast (if p.elements = [] then (if p.rooted = true then "/" ++ name else name)
    else Path.textOf p.rooted p.elements ++ "/" ++ name) = (Path.textOf p.rooted p.elements, name)
  by_cases level : p.elements = []
  · rw [if_pos level, level]
    cases p.rooted with
    | false =>
        rw [if_neg (by decide), splitLast, Text.cutLast_eq_none plain]
        rfl
    | true =>
        have cutting : Text.cutLast '/' ("/" ++ name).toList = some ([], name.toList) := by
          rw [String.toList_append]
          exact Text.cutLast_append [] plain
        rw [if_pos rfl, splitLast, cutting]
        simp [Path.textOf]
  · have filled : Path.textOf p.rooted p.elements ≠ "" := Path.textOf_ne_empty p.isElement
    obtain ⟨c, rest, chars⟩ : ∃ c rest, (Path.textOf p.rooted p.elements).toList = c :: rest := by
      cases chars : (Path.textOf p.rooted p.elements).toList with
      | nil => exact absurd (String.toList_eq_nil_iff.mp chars) filled
      | cons c rest => exact ⟨c, rest, rfl⟩
    have cutting : Text.cutLast '/' (Path.textOf p.rooted p.elements ++ "/" ++ name).toList =
        some (c :: rest, name.toList) := by
      rw [String.toList_append, String.toList_append, chars, List.append_assoc]
      exact Text.cutLast_append (c :: rest) plain
    rw [if_neg level, splitLast, cutting]
    simp [← chars]

/-- A removal that finds nothing was led to no place, or to a free one. -/
theorem remove_notFound {fault : FileFault} (failed : (remove path).run s = (.error fault, t))
    (missing : fault.reason = .notFound) :
    s.target path = .error .notFound ∨ ∃ parent name slash,
      s.target path = .ok (.named parent name slash) ∧ s.get? (parent ++ [name]) = none := by
  cases leads : s.target path with
  | error reason =>
      rw [remove, run_bind_error (run_target_error leads)] at failed
      cases failed
      exact Or.inl (congrArg Except.error missing)
  | ok target =>
      rw [remove, run_bind_ok (run_target_ok leads)] at failed
      cases target with
      | self place dots =>
          cases dots with
          | root =>
              cases failed
              cases missing
          | here =>
              cases failed
              cases missing
          | above =>
              cases failed
              cases missing
      | named parent name slash =>
          refine Or.inr ⟨parent, name, slash, rfl, ?_⟩
          dsimp only at failed
          rw [run_bind_ok (Attempt.run_get s)] at failed
          cases there : s.get? (parent ++ [name]) with
          | none => rfl
          | some entry =>
              rw [there] at failed
              dsimp only at failed
              rw [run_bind_ok (Attempt.run_get s)] at failed
              split at failed
              · cases failed
                cases missing
              · cases entry with
                | file contents executable =>
                    cases slash with
                    | true =>
                        cases failed
                        cases missing
                    | false => cases failed
                | directory =>
                    dsimp only at failed
                    rw [run_bind_ok (Attempt.run_get s)] at failed
                    split at failed
                    · cases failed
                    · cases failed
                      cases missing

section Tree

variable (named : (path = "." || (Path.elements path).getLast? = some ".") = false) (filled : path ≠ "")

include named filled

theorem removeTree_of_removed (removed : (remove path).run s = (.ok (), t)) :
    (removeTree path).run s = (.ok (), t) := by
  rw [removeTree, if_neg filled, if_neg (by simp [named])]
  exact run_tryCatch_ok removed

theorem removeTree_of_missing {fault : FileFault} (failed : (remove path).run s = (.error fault, s))
    (missing : fault.reason = .notFound) : (removeTree path).run s = (.ok (), s) := by
  rw [removeTree, if_neg filled, if_neg (by simp [named])]
  refine (run_tryCatch_error failed).trans ?_
  rw [if_pos missing]
  rfl

/-- Anything else is removed by its name in the directory it lies in. -/
theorem removeTree_of_parts {fault : FileFault} (failed : (remove path).run s = (.error fault, s))
    (other : fault.reason ≠ .notFound) {parent name : String} (parts : splitLast path = (parent, name))
    {place : Location} (located : s.locate parent = .ok (place, .directory))
    (noNul : '\x00' ∉ name.toList) (short : name.utf8ByteSize ≤ nameLimit) :
    ∃ result, (removeTree path).run s = (result, s.eraseTree (place ++ [name])) ∧
      (result = .ok () ↔ s.stuckBelow (place ++ [name]) = []) := by
  obtain ⟨result, ran, outcome⟩ := run_removeEntry s place (parent ++ "/" ++ name) noNul short
  refine ⟨result, ?_, outcome⟩
  rw [removeTree, if_neg filled, if_neg (by simp [named])]
  refine (run_tryCatch_error failed).trans ?_
  rw [if_neg other, parts]
  dsimp only
  rw [run_bind_ok (Attempt.run_get s), located]
  exact ran

end Tree

theorem elements_text_under (p : Path.Normal) {name : String} (valid : ∀ e ∈ [name], Path.IsName e) :
    ((p.under [name] valid).text = "." ||
      (Path.elements (p.under [name] valid).text).getLast? = some ".") = false := by
  have isName := valid name List.mem_cons_self
  have last : (Path.elements (p.under [name] valid).text).getLast? = some name := by
    rw [Path.Normal.text, Path.elements_textOf (p.under [name] valid).isElement,
      Path.Normal.elements_under]
    have nonempty : p.elements ++ [name] ≠ [] := by simp
    rw [if_neg nonempty, if_neg nonempty]
    split
    · rw [← List.cons_append, List.getLast?_concat]
    · rw [List.getLast?_concat]
  have notDot : (p.under [name] valid).text ≠ "." := by
    intro dot
    rw [dot] at last
    cases last
    exact isName.2.1 rfl
  rw [last]
  simp [notDot, isName.2.1]

end FileAction

end DawnC
