set_option autoImplicit false

namespace DawnC.Text

variable {α : Type}

/-- Puts `x` at the front of the first piece. -/
def prepend (x : α) : List (List α) → List (List α)
  | [] => [[x]]
  | piece :: pieces => (x :: piece) :: pieces

theorem prepend_ne_nil (x : α) (pieces : List (List α)) : prepend x pieces ≠ [] := by
  cases pieces <;> simp [prepend]

variable [DecidableEq α]

/-- The pieces between the occurrences of `sep`. -/
def cut (sep : α) (xs : List α) : List (List α) :=
  xs.foldr (fun x pieces => if x = sep then [] :: pieces else prepend x pieces) [[]]

@[simp] theorem cut_nil (sep : α) : cut sep [] = [[]] := rfl

theorem cut_cons_self (sep : α) (xs : List α) : cut sep (sep :: xs) = [] :: cut sep xs := by
  simp [cut]

theorem cut_cons_of_ne {sep x : α} (different : x ≠ sep) (xs : List α) :
    cut sep (x :: xs) = prepend x (cut sep xs) := by
  simp [cut, different]

theorem cut_ne_nil (sep : α) (xs : List α) : cut sep xs ≠ [] := by
  cases xs with
  | nil => simp
  | cons x xs =>
    by_cases h : x = sep
    · subst h; simp [cut_cons_self]
    · rw [cut_cons_of_ne h]; exact prepend_ne_nil _ _

/-- The text between the occurrences of `sep`. -/
def splitAt (sep : Char) (text : String) : List String :=
  (cut sep text.toList).map String.ofList

/-- The part before the last occurrence of `sep` and the part after it, if `sep` occurs. -/
def cutLast (sep : α) (xs : List α) : Option (List α × List α) :=
  match xs.reverse.span (· ≠ sep) with
  | (_, []) => none
  | (after, _ :: before) => some (before.reverse, after.reverse)

end DawnC.Text
