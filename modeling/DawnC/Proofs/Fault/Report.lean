import DawnC.Cli.Report
import DawnC.Proofs.Fault.Phases

set_option autoImplicit false

namespace DawnC

def firstLine (text : String) : String := String.ofList (text.toList.takeWhile (· ≠ '\n'))

theorem firstLine_append {start : String} (single : '\n' ∉ start.toList) (text : String) :
    firstLine (start ++ text) = start ++ firstLine text := by
  have all : ∀ c ∈ start.toList, decide (c ≠ '\n') = true := by
    intro c inside
    rw [decide_eq_true_eq]
    rintro rfl
    exact single inside
  rw [firstLine, firstLine, String.toList_append, List.takeWhile_append_of_pos all,
    String.ofList_append, String.ofList_toList]

theorem firstLine_line {line : String} (single : '\n' ∉ line.toList) (text : String) :
    firstLine (line ++ "\n" ++ text) = line := by
  have stop : firstLine ("\n" ++ text) = "" := by
    rw [firstLine, String.toList_append]
    rfl
  rw [String.append_assoc, firstLine_append single, stop, String.append_empty]

theorem Phase.codeLine_single (p : Phase) : '\n' ∉ ("ERROR CODE: " ++ p.code).toList := by
  cases p with
  | other name => exact (by decide : '\n' ∉ ("ERROR CODE: " ++ "a000").toList)
  | _ => decide

theorem append_ne {start line : String} (other : ¬ start.toList <+: line.toList) (text : String) :
    start ++ text ≠ line := by
  rintro rfl
  rw [String.toList_append] at other
  exact other (List.prefix_append _ _)

namespace Fault

/-- A fault that `P` holds of is somewhere in the tree. -/
def Holds (f : Fault) (P : Fault → Prop) : Prop := ∃ g ∈ f.parts, P g

/-- `g` is the first fault that `P` holds of, in the order of a search. -/
def IsFirst (f : Fault) (P : Fault → Prop) (g : Fault) : Prop :=
  P g ∧ ∃ before after, f.parts = before ++ g :: after ∧ ∀ h ∈ before, ¬ P h

/-- A program that was run ended with a status. -/
def IsExit (f : Fault) : Prop := ∃ code, f = .exit code

def IsMissing (f : Fault) : Prop := ∃ path, f = .sourceNotFound path

def IsPhase (f : Fault) : Prop := ∃ p, f.OfPhase p

def wrapped (f : Fault) (contexts : List String) : Fault := contexts.foldr wrap f

variable {f : Fault}

section Search

variable {α : Type} {select : Fault → Option α} {P : Fault → Prop}

/-- A search gives the answer of the first fault that has one. -/
theorem find?_eq_some (kind : ∀ g, P g ↔ select g ≠ none) {a : α} :
    f.find? select = some a ↔ ∃ g, f.IsFirst P g ∧ select g = some a := by
  rw [find?_eq_findSome?, List.findSome?_eq_some_iff]
  constructor
  · rintro ⟨before, g, after, split, selected, silent⟩
    have holds : P g := by
      rw [kind, selected]
      exact Option.some_ne_none a
    refine ⟨g, ⟨holds, before, after, split, fun h inside => ?_⟩, selected⟩
    rw [kind, silent h inside]
    exact not_not_intro rfl
  · rintro ⟨g, ⟨-, before, after, split, silent⟩, selected⟩
    refine ⟨before, g, after, split, selected, fun h inside => ?_⟩
    have none := silent h inside
    rwa [kind, not_not] at none

theorem find?_eq_none (kind : ∀ g, P g ↔ select g ≠ none) : f.find? select = none ↔ ¬ f.Holds P := by
  rw [find?_eq_findSome?, List.findSome?_eq_none_iff, Holds, not_exists]
  refine forall_congr' fun g => ?_
  rw [not_and, kind, not_not]

/-- Wrappers are passed over by a search that asks for something else. -/
theorem find?_wrapped (silent : ∀ context g, select (wrap context g) = none)
    (contexts : List String) : (f.wrapped contexts).find? select = f.find? select := by
  induction contexts with
  | nil => rfl
  | cons context rest ih =>
      rw [wrapped, List.foldr_cons, find?, silent, Option.none_or]
      exact ih

end Search

theorem exitCode?_eq_none : f.exitCode? = none ↔ ¬ f.Holds IsExit := by
  refine find?_eq_none fun g => ?_
  cases g <;> simp [IsExit]

theorem exitCode?_eq_some {code : Int} : f.exitCode? = some code ↔ f.IsFirst IsExit (.exit code) := by
  rw [exitCode?, find?_eq_some (P := IsExit) fun g => by cases g <;> simp [IsExit]]
  constructor
  · rintro ⟨g, first, selected⟩
    obtain ⟨code', rfl⟩ := first.1
    cases selected
    exact first
  · exact fun first => ⟨_, first, rfl⟩

theorem missingSource?_isSome : f.missingSource? ≠ none ↔ f.Holds IsMissing := by
  rw [Ne, missingSource?, find?_eq_none (P := IsMissing) fun g => by cases g <;> simp [IsMissing],
    not_not]

theorem phaseCode?_eq_none : f.phaseCode? = none ↔ ¬ f.Holds IsPhase := by
  refine find?_eq_none fun g => ?_
  cases g <;> simp [IsPhase, OfPhase]

theorem phaseCode?_eq_some {code : String} :
    f.phaseCode? = some code ↔ ∃ g p, f.IsFirst IsPhase g ∧ g.OfPhase p ∧ code = p.code := by
  rw [phaseCode?, find?_eq_some (P := IsPhase) fun g => by cases g <;> simp [IsPhase, OfPhase]]
  constructor
  · rintro ⟨g, first, selected⟩
    obtain ⟨p, source, line, index, atom, cause, rfl⟩ := first.1
    cases selected
    exact ⟨_, p, first, ⟨source, line, index, atom, cause, rfl⟩, rfl⟩
  · rintro ⟨g, p, first, ⟨source, line, index, atom, cause, rfl⟩, rfl⟩
    exact ⟨_, first, rfl⟩

theorem headline?_of_missing (missing : f.Holds IsMissing) :
    f.headline? = some ("ERROR: File cannot be found" ++ "\n") := by
  obtain ⟨path, found⟩ := Option.ne_none_iff_exists'.mp (missingSource?_isSome.mpr missing)
  rw [headline?, found]
  rfl

theorem headline?_of_sourced (sourced : ¬ f.Holds IsMissing) :
    f.headline? = f.phaseCode?.map fun code => "ERROR CODE: " ++ code ++ "\n" := by
  rw [← missingSource?_isSome, Ne, not_not] at sourced
  rw [headline?, sourced]

theorem headline?_of_phase (sourced : ¬ f.Holds IsMissing) {g : Fault} {p : Phase}
    (first : f.IsFirst IsPhase g) (ofPhase : g.OfPhase p) :
    f.headline? = some ("ERROR CODE: " ++ p.code ++ "\n") := by
  rw [headline?_of_sourced sourced, phaseCode?_eq_some.mpr ⟨g, p, first, ofPhase, rfl⟩,
    Option.map_some]

theorem exists_isFirst (phased : f.Holds IsPhase) : ∃ g p, f.IsFirst IsPhase g ∧ g.OfPhase p := by
  have coded : f.phaseCode? ≠ none := fun none => phaseCode?_eq_none.mp none phased
  obtain ⟨code, found⟩ := Option.ne_none_iff_exists'.mp coded
  obtain ⟨g, p, first, ofPhase, -⟩ := phaseCode?_eq_some.mp found
  exact ⟨g, p, first, ofPhase⟩

theorem exists_headline (known : f.Holds IsMissing ∨ f.Holds IsPhase) :
    ∃ line, '\n' ∉ line.toList ∧ f.headline? = some (line ++ "\n") := by
  by_cases missing : f.Holds IsMissing
  · exact ⟨_, by decide, headline?_of_missing missing⟩
  · obtain ⟨g, p, first, ofPhase⟩ := exists_isFirst (known.resolve_left missing)
    exact ⟨_, p.codeLine_single, headline?_of_phase missing first ofPhase⟩

theorem report_of_exit {code : Int} (ended : f.exitCode? = some code) (detailed : Bool) :
    f.report detailed = ⟨code, ""⟩ := by
  rw [report, ended]

/-- A fault of a known kind that passes no code on is reported by its headline. -/
theorem report_of_headline {line : String} (running : f.exitCode? = none)
    (headline : f.headline? = some (line ++ "\n")) (single : '\n' ∉ line.toList) (detailed : Bool) :
    (f.report detailed).code = 1 ∧ firstLine (f.report detailed).text = line := by
  rw [report, running, headline]
  exact ⟨rfl, firstLine_line single _⟩

theorem report_of_other (running : f.exitCode? = none) (sourced : ¬ f.Holds IsMissing)
    (unphased : ¬ f.Holds IsPhase) (detailed : Bool) :
    f.report detailed = ⟨1, "Error: " ++ f.message ++ "\n"⟩ := by
  rw [report, running, headline?_of_sourced sourced, phaseCode?_eq_none.mpr unphased]
  rfl

/-- A fault of a known kind is reported alike in any wrappers, but for its details. -/
theorem report_wrapped (known : f.Holds IsExit ∨ f.Holds IsMissing ∨ f.Holds IsPhase)
    (contexts : List String) (detailed : Bool) :
    ((f.wrapped contexts).report detailed).code = (f.report detailed).code ∧
      firstLine ((f.wrapped contexts).report detailed).text = firstLine (f.report detailed).text := by
  have exits : (f.wrapped contexts).exitCode? = f.exitCode? := find?_wrapped (fun _ _ => rfl) contexts
  have headlines : (f.wrapped contexts).headline? = f.headline? := by
    have sources : (f.wrapped contexts).missingSource? = f.missingSource? :=
      find?_wrapped (fun _ _ => rfl) contexts
    have codes : (f.wrapped contexts).phaseCode? = f.phaseCode? :=
      find?_wrapped (fun _ _ => rfl) contexts
    rw [headline?, headline?, sources, codes]
  cases ended : f.exitCode? with
  | some code =>
      rw [report_of_exit ended, report_of_exit (exits.trans ended)]
      exact ⟨rfl, rfl⟩
  | none =>
      obtain ⟨line, single, headline⟩ :=
        exists_headline (known.resolve_left (exitCode?_eq_none.mp ended))
      obtain ⟨code, text⟩ := report_of_headline ended headline single detailed
      obtain ⟨code', text'⟩ :=
        report_of_headline (exits.trans ended) (headlines.trans headline) single detailed
      exact ⟨code'.trans code.symm, text'.trans text.symm⟩

/-- A report goes by the kinds of faults in the tree, however deep they are.
- If a program ended anywhere, nothing is printed and the code is that of the first such fault.
- Otherwise the code is 1, and the first line says that a source is missing exactly if one is missing
  anywhere.
- If none is, the first line gives the code of the first phase fault; without one the report is the
  fault's own text.
- Wrapping a fault of one of these three kinds changes neither the code nor the first line. -/
theorem report_goes_by_kind (f : Fault) (detailed : Bool) :
    (f.Holds IsExit →
      ∃ code, f.IsFirst IsExit (.exit code) ∧ f.report detailed = ⟨code, ""⟩) ∧
    (¬ f.Holds IsExit →
      (f.report detailed).code = 1 ∧
      (firstLine (f.report detailed).text = "ERROR: File cannot be found" ↔ f.Holds IsMissing) ∧
      (¬ f.Holds IsMissing →
        (f.Holds IsPhase → ∃ g p, f.IsFirst IsPhase g ∧ g.OfPhase p ∧
          firstLine (f.report detailed).text = "ERROR CODE: " ++ p.code) ∧
        (¬ f.Holds IsPhase → (f.report detailed).text = "Error: " ++ f.message ++ "\n"))) ∧
    ∀ contexts, f.Holds IsExit ∨ f.Holds IsMissing ∨ f.Holds IsPhase →
      ((f.wrapped contexts).report detailed).code = (f.report detailed).code ∧
      firstLine ((f.wrapped contexts).report detailed).text =
        firstLine (f.report detailed).text := by
  refine ⟨fun ended => ?_, fun running => ?_,
    fun contexts known => report_wrapped known contexts detailed⟩
  · have exits : f.exitCode? ≠ none := fun none => exitCode?_eq_none.mp none ended
    obtain ⟨code, found⟩ := Option.ne_none_iff_exists'.mp exits
    exact ⟨code, exitCode?_eq_some.mp found, report_of_exit found detailed⟩
  rw [← exitCode?_eq_none] at running
  by_cases missing : f.Holds IsMissing
  · obtain ⟨code, line⟩ :=
      report_of_headline running (headline?_of_missing missing) (by decide) detailed
    exact ⟨code, iff_of_true line missing, fun sourced => absurd missing sourced⟩
  by_cases phased : f.Holds IsPhase
  · obtain ⟨g, p, first, ofPhase⟩ := exists_isFirst phased
    obtain ⟨code, line⟩ := report_of_headline running (headline?_of_phase missing first ofPhase)
      p.codeLine_single detailed
    refine ⟨code, ?_, fun _ => ⟨fun _ => ⟨g, p, first, ofPhase, line⟩, absurd phased⟩⟩
    rw [line]
    exact iff_of_false (append_ne (by decide) _) missing
  · have other := report_of_other running missing phased detailed
    refine ⟨by rw [other], ?_, fun _ => ⟨fun found => absurd found phased, fun _ => by rw [other]⟩⟩
    rw [other, String.append_assoc, firstLine_append (by decide)]
    exact iff_of_false (append_ne (by decide) _) missing

/-- A missing source deep in a cleanup that failed counts more than the phase around it, and the end of a
program more than both; of two phases, and of two programs, the first counts. -/
theorem report_goes_by_kind_nested :
    let missing : Fault := .multi [none, some (.phase .cleanup "" 0 0 "" (some (.wrap "reading a"
      (.sourceNotFound "a.dawn")))), some (.plain "b")]
    let ended : Fault := .multi [some missing, none, some (.wrap "running" (.exit 3)), some (.exit 4)]
    let coded : Fault := .wrap "building" (.multi [none, some (.phase .compile "" 0 0 "" none),
      some (.phase .read "" 0 0 "" none)])
    missing.Holds IsMissing ∧ firstLine (missing.report true).text = "ERROR: File cannot be found" ∧
    ended.IsFirst IsExit (.exit 3) ∧ ended.report true = ⟨3, ""⟩ ∧
    firstLine (coded.report true).text = "ERROR CODE: cf200" ∧
    firstLine ((coded.wrapped ["dawn", "run"]).report true).text = "ERROR CODE: cf200" := by
  intro missing ended coded
  have unseen : missing.Holds IsMissing :=
    ⟨.sourceNotFound "a.dawn", by simp [missing, parts, partsIn], _, rfl⟩
  have running : ¬ missing.Holds IsExit := by
    rintro ⟨g, inside, code, rfl⟩
    simp [missing, parts, partsIn] at inside
  have stopped : ended.Holds IsExit := ⟨.exit 4, by simp [ended, parts, partsIn], _, rfl⟩
  have phased : coded.Holds IsPhase :=
    ⟨.phase .read "" 0 0 "" none, by simp [coded, parts, partsIn], .read, _, _, _, _, _, rfl⟩
  obtain ⟨-, silent, -⟩ := report_goes_by_kind missing true
  obtain ⟨exits, -, -⟩ := report_goes_by_kind ended true
  obtain ⟨-, -, wraps⟩ := report_goes_by_kind coded true
  obtain ⟨code, first, report⟩ := exits stopped
  have three : ended.report true = ⟨3, ""⟩ := by decide
  rw [three] at report
  cases report
  have line : firstLine (coded.report true).text = "ERROR CODE: cf200" := by decide +kernel
  exact ⟨unseen, (silent running).2.1.mpr unseen, first, three, line,
    (wraps ["dawn", "run"] (Or.inr (Or.inr phased))).2.trans line⟩

end Fault

end DawnC
