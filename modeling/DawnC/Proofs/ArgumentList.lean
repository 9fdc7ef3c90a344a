import DawnC.Proofs.Program.Reading

set_option autoImplicit false

namespace DawnC

/-- The atom can stand in an argument: it parts no arguments and ends no list. -/
def Atom.InArgument (a : Atom) : Prop :=
  a.is ")" = false ∧ a.is "," = false ∧ a.is "\x7d" = false

instance (a : Atom) : Decidable a.InArgument := inferInstanceAs (Decidable (_ ∧ _))

def argumentText (argument : List Atom) : String := spaced (argument.map Atom.text)

/-- The arguments and the span that they are written as, up to its closing parenthesis. -/
inductive ArgumentList : List (List Atom) → List Atom → Prop where
  | none {close : Atom} (closes : close.is ")" = true) : ArgumentList [] [close]
  | last {argument : List Atom} {close : Atom} (filled : argument ≠ [])
      (inside : ∀ a ∈ argument, a.InArgument) (closes : close.is ")" = true) :
      ArgumentList [argument] (argument ++ [close])
  | more {argument span : List Atom} {comma : Atom} {arguments : List (List Atom)}
      (filled : argument ≠ []) (inside : ∀ a ∈ argument, a.InArgument) (parts : comma.is "," = true)
      (follows : arguments ≠ []) (later : ArgumentList arguments span) :
      ArgumentList (argument :: arguments) (argument ++ comma :: span)

theorem filled_texts {argument : List Atom} (filled : argument ≠ []) :
    (argument.map Atom.text).reverse.isEmpty = false := by
  simpa using filled

/-- What is read is a list of arguments. The atoms of the current argument, `pending`, stand before the
rest of its span. -/
theorem argumentsFrom_sound {args args' : List String} {taken taken' index : Nat}
    {pending atoms : List Atom} (inside : ∀ a ∈ pending, a.InArgument)
    (success : argumentsFrom args (pending.map Atom.text).reverse taken index atoms =
      .ok (args', taken')) :
    ∃ arguments span, span <+: atoms ∧ ArgumentList arguments (pending ++ span) ∧
      (args ≠ [] → arguments ≠ []) ∧ args' = args.reverse ++ arguments.map argumentText ∧
      taken' = taken + span.length := by
  induction atoms generalizing args taken index pending with
  | nil => cases success
  | cons a rest ih =>
      rw [argumentsFrom] at success
      by_cases closes : a.is ")" = true
      · rw [if_pos closes] at success
        cases pending with
        | nil =>
            cases args with
            | nil =>
                cases success
                exact ⟨[], [a], by simp, .none closes, fun some => absurd rfl some, rfl, rfl⟩
            | cons arg args => cases success
        | cons first more =>
            have filled : first :: more ≠ [] := List.cons_ne_nil _ _
            rw [filled_texts filled] at success
            cases success
            exact ⟨[first :: more], [a], by simp, .last filled inside closes, by simp,
              by simp [argumentText], rfl⟩
      · rw [if_neg closes] at success
        by_cases parts : a.is "," = true
        · rw [if_pos parts] at success
          cases pending with
          | nil => cases success
          | cons first more =>
              have filled : first :: more ≠ [] := List.cons_ne_nil _ _
              rw [filled_texts filled, if_neg (by simp)] at success
              obtain ⟨arguments, span, here, list, follows, texts, count⟩ :=
                @ih _ _ _ [] (by simp) success
              have follows := follows (List.cons_ne_nil _ _)
              refine ⟨(first :: more) :: arguments, a :: span, ?_, .more filled inside parts follows list,
                by simp, ?_, ?_⟩
              · exact List.cons_prefix_cons.mpr ⟨rfl, here⟩
              · simp [texts, argumentText]
              · rw [count, List.length_cons]
                omega
        · rw [if_neg parts] at success
          by_cases brace : a.is "\x7d" = true
          · rw [if_pos brace] at success
            cases success
          · rw [if_neg brace] at success
            have joined : ∀ b ∈ pending ++ [a], b.InArgument := by
              intro b member
              rcases List.mem_append.mp member with old | new
              · exact inside b old
              · rw [List.mem_singleton.mp new]
                exact ⟨by simpa using closes, by simpa using parts, by simpa using brace⟩
            obtain ⟨arguments, span, here, list, follows, texts, count⟩ :=
              @ih _ _ _ (pending ++ [a]) joined (by simpa using success)
            refine ⟨arguments, a :: span, ?_, by simpa using list, follows, texts, ?_⟩
            · exact List.cons_prefix_cons.mpr ⟨rfl, here⟩
            · rw [count, List.length_cons]
              omega

/-- A list of arguments is read, after other arguments if it has some itself. -/
theorem argumentsFrom_complete {arguments : List (List Atom)} {span : List Atom}
    (list : ArgumentList arguments span) (args : List String) (follows : args ≠ [] → arguments ≠ [])
    (taken index : Nat) (rest : List Atom) :
    argumentsFrom args [] taken index (span ++ rest) =
      .ok (args.reverse ++ arguments.map argumentText, taken + span.length) := by
  induction list generalizing args taken index with
  | @none close closes =>
      cases args with
      | nil => simp [argumentsFrom, closes]
      | cons arg args => exact absurd rfl (follows (List.cons_ne_nil _ _))
  | @last argument close filled inside closes =>
      rw [List.append_assoc, argumentsFrom_append inside, List.singleton_append, argumentsFrom,
        if_pos closes, List.append_nil, filled_texts filled]
      simp [argumentText, Nat.add_assoc]
  | @more argument span comma arguments filled inside parts some later ih =>
      have unclosed : comma.is ")" = false := is_of_is parts (by decide)
      rw [List.append_assoc, argumentsFrom_append inside, List.cons_append, argumentsFrom, unclosed,
        List.append_nil, filled_texts filled, parts]
      simp only [Bool.false_eq_true, if_false, if_true]
      rw [ih _ (fun _ => some)]
      simp only [argumentText, List.reverse_reverse, List.reverse_cons, List.append_assoc,
        List.singleton_append, List.map_cons, List.length_append, List.length_cons, Except.ok.injEq,
        Prod.mk.injEq, true_and]
      omega

/-- Reading succeeds on exactly the lists of arguments. -/
theorem arguments_eq_ok {index taken : Nat} {atoms : List Atom} {args : List String} :
    arguments index atoms = .ok (args, taken) ↔ ∃ arguments span, span <+: atoms ∧
      ArgumentList arguments span ∧ args = arguments.map argumentText ∧ taken = span.length := by
  constructor
  · intro success
    obtain ⟨arguments, span, here, list, -, texts, count⟩ :=
      @argumentsFrom_sound [] _ _ _ _ [] _ (by simp) success
    exact ⟨arguments, span, here, list, texts, by omega⟩
  · rintro ⟨arguments, span, ⟨rest, rfl⟩, list, rfl, rfl⟩
    rw [DawnC.arguments, argumentsFrom_complete list [] (fun some => absurd rfl some)]
    simp

theorem ArgumentList.span_mem {arguments : List (List Atom)} {span argument : List Atom} {a : Atom}
    (list : ArgumentList arguments span) (listed : argument ∈ arguments) (member : a ∈ argument) :
    a ∈ span ∧ a.InArgument := by
  induction list with
  | none => cases listed
  | last filled inside closes =>
      cases List.mem_singleton.mp listed
      exact ⟨List.mem_append_left _ member, inside a member⟩
  | more filled inside parts follows later ih =>
      rcases List.mem_cons.mp listed with rfl | listed
      · exact ⟨List.mem_append_left _ member, inside a member⟩
      · obtain ⟨found, valid⟩ := ih listed
        exact ⟨List.mem_append_right _ (List.mem_cons_of_mem _ found), valid⟩

end DawnC
