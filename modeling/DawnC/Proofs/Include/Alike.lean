import DawnC.Translator

set_option autoImplicit false

namespace DawnC

/-- The atoms differ in nothing but their place. -/
structure Atom.Same (a b : Atom) : Prop where
  text : a.text = b.text
  kind : a.kind = b.kind

/-- The same atoms one after the other, with the same breaks between statements. -/
inductive Alike : List Atom → List Atom → Prop where
  | nil : Alike [] []
  | cons {a b : Atom} {rest rest' : List Atom} (same : a.Same b)
      (breaks : ∀ next ∈ rest.head?, ∀ next' ∈ rest'.head?,
        a.stmt = next.stmt ↔ b.stmt = next'.stmt)
      (alike : Alike rest rest') : Alike (a :: rest) (b :: rest')

variable {a b : Atom} {atoms atoms' : List Atom}

theorem Atom.Same.is (same : a.Same b) (text : String) : a.is text = b.is text := by
  rw [Atom.is, Atom.is, same.text, same.kind]

theorem Atom.Same.parameterClass? (same : a.Same b) : parameterClass? a = parameterClass? b := by
  simp only [DawnC.parameterClass?, same.kind, same.text]

namespace Alike

theorem drop (alike : Alike atoms atoms') (n : Nat) : Alike (atoms.drop n) (atoms'.drop n) := by
  induction n generalizing atoms atoms' with
  | zero => exact alike
  | succ n ih =>
      cases alike with
      | nil => exact .nil
      | cons same breaks alike => exact ih alike

theorem expect (alike : Alike atoms atoms') (text : String) (index : Nat) :
    expect text index atoms = expect text index atoms' := by
  cases alike with
  | nil => rfl
  | cons same breaks alike => simp only [DawnC.expect, same.is]

theorem expectName (alike : Alike atoms atoms') (index : Nat) :
    expectName index atoms = expectName index atoms' := by
  cases alike with
  | nil => rfl
  | cons same breaks alike => simp only [DawnC.expectName, same.kind, same.text]

theorem expectBound (alike : Alike atoms atoms') (symbols : SymbolTable) (index : Nat) :
    expectBound symbols index atoms = expectBound symbols index atoms' := by
  cases alike with
  | nil => rfl
  | cons same breaks alike => simp only [DawnC.expectBound, same.kind, same.text]

theorem argumentsFrom (alike : Alike atoms atoms') (args current : List String)
    (taken index : Nat) :
    argumentsFrom args current taken index atoms =
      argumentsFrom args current taken index atoms' := by
  induction alike generalizing args current taken index with
  | nil => rfl
  | cons same breaks alike ih => simp only [DawnC.argumentsFrom, same.is, same.text, ih]

theorem elementsFrom (alike : Alike atoms atoms') (texts : List String) (taken index : Nat) :
    elementsFrom texts taken index atoms = elementsFrom texts taken index atoms' := by
  induction alike generalizing texts taken index with
  | nil => rfl
  | cons same breaks alike ih => simp only [DawnC.elementsFrom, same.is, same.text, ih]

theorem parametersFrom (alike : Alike atoms atoms') (symbols : SymbolTable) (texts : List String)
    (taken index : Nat) (state : ParameterState) :
    parametersFrom symbols texts taken index state atoms =
      parametersFrom symbols texts taken index state atoms' := by
  induction alike generalizing symbols texts taken index state with
  | nil => cases state <;> rfl
  | cons same breaks alike ih =>
      cases state <;>
        simp only [DawnC.parametersFrom, same.is, same.text, same.kind, same.parameterClass?, ih]

theorem parameters (alike : Alike atoms atoms') (symbols : SymbolTable) (index : Nat) :
    parameters symbols index atoms = parameters symbols index atoms' :=
  alike.parametersFrom symbols [] 0 index .start

/-- From atoms of two statements on, the rest of both is the same text. -/
theorem takeWhile (alike : Alike atoms atoms') {stmt stmt' : Int}
    (joins : ∀ a ∈ atoms.head?, ∀ b ∈ atoms'.head?, a.stmt = stmt ↔ b.stmt = stmt') :
    (atoms.takeWhile fun a => a.stmt = stmt && !a.is "\x7d").map Atom.text =
      (atoms'.takeWhile fun b => b.stmt = stmt' && !b.is "\x7d").map Atom.text := by
  induction alike with
  | nil => rfl
  | @cons a b rest rest' same breaks alike ih =>
      have here : a.stmt = stmt ↔ b.stmt = stmt' := joins a rfl b rfl
      rw [List.takeWhile_cons, List.takeWhile_cons]
      by_cases inside : a.stmt = stmt
      · have inside' := here.mp inside
        have next := ih fun c head c' head' => by
          have link := breaks c head c' head'
          rw [inside, inside'] at link
          exact eq_comm.trans (link.trans eq_comm)
        by_cases closes : a.is "\x7d" = true
        · have closes' : b.is "\x7d" = true := same.is _ ▸ closes
          simp [closes, closes']
        · have closes' : ¬ b.is "\x7d" = true := same.is _ ▸ closes
          simp only [inside, inside', closes, closes', decide_true, Bool.true_and, Bool.not_false,
            if_true, List.map_cons, same.text, next]
      · have outside' : ¬ b.stmt = stmt' := fun inside' => inside (here.mpr inside')
        simp [inside, outside']

theorem statement (alike : Alike atoms atoms') :
    (statement atoms).map Atom.text = (statement atoms').map Atom.text := by
  cases alike with
  | nil => rfl
  | cons same breaks alike =>
      refine (Alike.cons same breaks alike).takeWhile ?_
      rintro a ⟨⟩ b ⟨⟩
      exact iff_of_true rfl rfl

theorem length_statement (alike : Alike atoms atoms') :
    (DawnC.statement atoms).length = (DawnC.statement atoms').length := by
  rw [← List.length_map Atom.text, alike.statement, List.length_map]

theorem expression (alike : Alike atoms atoms') (index n : Nat) :
    expression index ((DawnC.statement atoms).drop n) =
      expression index ((DawnC.statement atoms').drop n) := by
  have texts : ((DawnC.statement atoms).drop n).map Atom.text =
      ((DawnC.statement atoms').drop n).map Atom.text := by
    rw [List.map_drop, alike.statement, List.map_drop]
  generalize (DawnC.statement atoms).drop n = rest at texts ⊢
  generalize (DawnC.statement atoms').drop n = rest' at texts ⊢
  cases rest with
  | nil =>
      rw [List.map_nil, eq_comm, List.map_eq_nil_iff] at texts
      rw [texts]
  | cons a rest =>
      cases rest' with
      | nil => cases texts
      | cons b rest' => exact congrArg (fun texts => Except.ok (spaced texts)) texts

variable (t : Translator) (i : Nat)

theorem print (alike : Alike atoms atoms') : t.print i atoms = t.print i atoms' := by
  simp only [Translator.print, arguments, (alike.drop 1).argumentsFrom]

theorem printFormatted (alike : Alike atoms atoms') (keyword verb : String) :
    t.printFormatted i atoms keyword verb = t.printFormatted i atoms' keyword verb := by
  simp only [Translator.printFormatted, arguments, (alike.drop 1).argumentsFrom]

theorem printListElement (alike : Alike atoms atoms') :
    t.printListElement i atoms = t.printListElement i atoms' := by
  simp only [Translator.printListElement, arguments, (alike.drop 1).argumentsFrom]

theorem declaration (alike : Alike atoms atoms') (cls : SymbolClass) :
    t.declaration i atoms cls = t.declaration i atoms' cls := by
  simp only [Translator.declaration, (alike.drop 1).expectName, (alike.drop 2).expect,
    alike.expression, alike.length_statement]

theorem intList (alike : Alike atoms atoms') : t.intList i atoms = t.intList i atoms' := by
  simp only [Translator.intList, (alike.drop 1).expectName, (alike.drop 2).expect,
    (alike.drop 3).expect, (alike.drop 4).elementsFrom]

theorem assignment (alike : Alike atoms atoms') (name : String) :
    t.assignment i atoms name = t.assignment i atoms' name := by
  simp only [Translator.assignment, alike.expression, alike.length_statement]

theorem call (alike : Alike atoms atoms') (name : String) :
    t.call i atoms name = t.call i atoms' name := by
  simp only [Translator.call, arguments, (alike.drop 1).argumentsFrom]

theorem forLoop (alike : Alike atoms atoms') : t.forLoop i atoms = t.forLoop i atoms' := by
  simp only [Translator.forLoop, (alike.drop 1).expectName, (alike.drop 2).expect,
    (alike.drop 3).expectBound, (alike.drop 4).expect, (alike.drop 5).expectBound]

theorem thenEnd (alike : Alike atoms atoms') : t.thenEnd i atoms = t.thenEnd i atoms' := by
  simp only [Translator.thenEnd, (alike.drop 1).expect]

theorem conditional (alike : Alike atoms atoms') :
    t.conditional i atoms = t.conditional i atoms' := by
  simp only [Translator.conditional, alike.expression, alike.length_statement]

theorem function (alike : Alike atoms atoms') : t.function i atoms = t.function i atoms' := by
  simp only [Translator.function, (alike.drop 1).expectName, (alike.drop 2).parameters]

theorem identifier {rest rest' : List Atom} (alike : Alike (a :: rest) (b :: rest')) :
    t.identifier i (a :: rest) a = t.identifier i (b :: rest') b := by
  have assigned := alike.assignment t i
  have called := alike.call t i
  cases alike with
  | cons same breaks alike =>
      simp only [Translator.identifier, List.drop_succ_cons, List.drop_zero, assigned, called,
        same.text]
      cases alike with
      | nil => rfl
      | cons next breaks' alike => simp only [breaks _ rfl _ rfl, next.is]

theorem alternative {rest rest' : List Atom} (alike : Alike (a :: rest) (b :: rest'))
    {previous previous' : Option Atom}
    (before : previous.any (·.is "\x7d") = previous'.any (·.is "\x7d")) :
    t.alternative i (a :: rest) previous a = t.alternative i (b :: rest') previous' b := by
  cases alike with
  | cons same breaks alike =>
      simp only [Translator.alternative, List.drop_succ_cons, List.drop_zero, before]
      cases alike with
      | nil => rfl
      | cons next breaks' alike => simp only [breaks _ rfl _ rfl, next.is]

theorem construct {rest rest' : List Atom} (alike : Alike (a :: rest) (b :: rest'))
    {previous previous' : Option Atom}
    (before : previous.any (·.is "\x7d") = previous'.any (·.is "\x7d")) :
    t.construct previous i a (a :: rest) = t.construct previous' i b (b :: rest') := by
  have same : a.Same b := by
    cases alike with
    | cons same breaks alike => exact same
  simp only [Translator.construct, same.kind, same.is, same.text, alike.print, alike.printFormatted,
    alike.printListElement, alike.declaration, alike.intList, alike.forLoop, alike.thenEnd,
    alike.function, alike.conditional, alike.alternative t i before, alike.identifier]

/-- The translator walks over both in the same way, to the same result or the same misstep. -/
theorem walk (alike : Alike atoms atoms') (t : Translator) {previous previous' : Option Atom}
    (before : previous.any (·.is "\x7d") = previous'.any (·.is "\x7d")) (i skip : Nat) :
    t.walk previous i skip atoms = t.walk previous' i skip atoms' := by
  induction alike generalizing t previous previous' i skip with
  | nil => cases skip <;> rfl
  | @cons a b rest rest' same breaks alike ih =>
      have next : (some a).any (·.is "\x7d") = (some b).any (·.is "\x7d") := same.is _
      cases skip with
      | succ skip => exact ih t next (i + 1) skip
      | zero =>
          have here := (Alike.cons same breaks alike).construct t i before
          simp only [Translator.walk, here]
          split
          · rfl
          · exact ih _ next (i + 1) _

theorem declareFunctions (alike : Alike atoms atoms') (table : SymbolTable) (index : Nat) :
    declareFunctions table index atoms = declareFunctions table index atoms' := by
  induction alike generalizing table index with
  | nil => rfl
  | cons same breaks alike ih =>
      cases alike with
      | nil => simp only [DawnC.declareFunctions, same.is]
      | cons next breaks' alike =>
          rw [DawnC.declareFunctions, DawnC.declareFunctions]
          simp only [same.is, next.kind, next.text, ih]

theorem usesWord (alike : Alike atoms atoms') (keyword : String) :
    usesWord atoms keyword = usesWord atoms' keyword := by
  induction alike with
  | nil => rfl
  | cons same breaks alike ih =>
      simp only [DawnC.usesWord, List.any_cons, same.kind, same.text] at ih ⊢
      rw [ih]

theorem requiredHeaders (alike : Alike atoms atoms') (headers : List String) :
    requiredHeaders atoms headers = requiredHeaders atoms' headers := by
  simp only [DawnC.requiredHeaders, alike.usesWord]

end Alike

end DawnC
