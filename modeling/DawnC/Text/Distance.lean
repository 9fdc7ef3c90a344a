set_option autoImplicit false

namespace DawnC.Text

variable {α : Type} [DecidableEq α]

/-- The entries of a row after its first, for the element `x` of the one list along the other. `left`
is the entry before, `diagonal` the one above that, and the last list holds the row above. -/
def distanceEntries (x : α) (left diagonal : Nat) : List α → List Nat → List Nat
  | y :: ys, above :: row =>
    let entry := if x = y then diagonal else min (min above left) diagonal + 1
    entry :: distanceEntries x entry above ys row
  | _, _ => []

def distanceRow (ys : List α) (row : List Nat) (x : α) : List Nat :=
  match row with
  | [] => []
  | first :: rest => (first + 1) :: distanceEntries x (first + 1) first ys rest

def distance (xs ys : List α) : Nat :=
  (xs.foldl (distanceRow ys) (List.range (ys.length + 1))).getLastD 0

end DawnC.Text
