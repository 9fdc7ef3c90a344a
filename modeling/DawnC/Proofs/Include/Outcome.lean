import DawnC.Proofs.Include.Alike
import DawnC.Transpile

set_option autoImplicit false

namespace DawnC

/-- The same code, or a failure in the same phase with the same cause. -/
inductive SameOutcome :
    Except (Fault × CompilationUnit) CompilationUnit →
      Except (Fault × CompilationUnit) CompilationUnit → Prop where
  | ok {u v : CompilationUnit} (code : u.code = v.code) : SameOutcome (.ok u) (.ok v)
  | error (phase : Phase) (cause : Fault) {file file' : String} {line line' index index' : Int}
      {atom atom' : String} {u v : CompilationUnit} :
      SameOutcome (.error (.phase phase file line index atom (some cause), u))
        (.error (.phase phase file' line' index' atom' (some cause), v))

namespace CompilationUnit

/-- The result of a phase, with its fault as one of the unit's phase. -/
def reported (progress : Progress) : Except (Fault × CompilationUnit) CompilationUnit :=
  progress.mapError fun (fault, u) => (u.fail fault, u)

/-- What the phases after reading make of a unit. -/
def conclude (u : CompilationUnit) : Except (Fault × CompilationUnit) CompilationUnit := do
  let u ← reported (u.enter .functionScan).scanFunctions
  let u ← reported (u.enter .importScan).resolveImports.translate
  pure (u.enter .writeC)

end CompilationUnit

theorem UnitAction.run_ofProgress (progress : Progress) (w : World) :
    (UnitAction.ofProgress progress).run w = (CompilationUnit.reported progress, w) := by
  rcases progress with ⟨fault, u⟩ | u <;> rfl

section Read

variable {load : Action (List Atom)} {file : String} {w w' : World}

/-- A program that cannot be read comes to the fault of reading it, and to an empty unit. -/
theorem transpileWith_of_unread {fault : Fault}
    (failed : load.run { w with events := w.events ++ [.phaseEntered .read] } = (.error fault, w')) :
    ((transpileWith load file).run w).1 =
      .error (({ file } : CompilationUnit).fail fault, { file }) := by
  simp only [transpileWith, UnitAction.enter, UnitAction.tell, UnitAction.read, Attempt.run_bind,
    Attempt.run_modify, Attempt.run_get, Attempt.run_set, Attempt.run_pure, failed]
  rfl

/-- A program that can be read comes to what its atoms come to. -/
theorem transpileWith_of_read {atoms : List Atom}
    (loaded : load.run { w with events := w.events ++ [.phaseEntered .read] } = (.ok atoms, w')) :
    ((transpileWith load file).run w).1 =
      ({ file, atoms, phase := .read } : CompilationUnit).conclude := by
  simp only [transpileWith, UnitAction.enter, UnitAction.tell, UnitAction.read, Attempt.run_bind,
    Attempt.run_modify, Attempt.run_get, Attempt.run_set, Attempt.run_pure, loaded,
    UnitAction.run_ofProgress]
  simp only [CompilationUnit.conclude, CompilationUnit.enter]
  generalize CompilationUnit.reported (CompilationUnit.scanFunctions _) = scanned
  cases scanned with
  | error e => rfl
  | ok u =>
      simp only [bind, Except.bind]
      generalize CompilationUnit.reported (CompilationUnit.translate _) = translated
      cases translated with
      | error e => rfl
      | ok v => rfl

theorem transpileWith_of_load {atoms : List Atom}
    (loaded : ∀ events, ∃ events',
      load.run { w with events } = (.ok atoms, { w with events := events' })) :
    ((transpileWith load file).run w).1 =
      ({ file, atoms, phase := .read } : CompilationUnit).conclude := by
  obtain ⟨events, loaded⟩ := loaded (w.events ++ [.phaseEntered .read])
  exact transpileWith_of_read loaded

end Read

namespace CompilationUnit

/-- A broken rule is reported where it shows, and as what it is. -/
theorem reported_misstep (u v : CompilationUnit) (m : Misstep) :
    ∃ file line index atom, reported (.error (u.failMisstep m, v)) =
      .error (.phase u.phase file line index atom (some (.violation m.violation)), v) := by
  simp only [failMisstep, failAt]
  split
  · exact ⟨_, _, _, _, rfl⟩
  · exact ⟨_, _, _, _, rfl⟩

theorem sameOutcome_misstep {u v : CompilationUnit} (phase : u.phase = v.phase)
    (u' v' : CompilationUnit) (m : Misstep)
    (next next' : CompilationUnit → Except (Fault × CompilationUnit) CompilationUnit) :
    SameOutcome (reported (.error (u.failMisstep m, u')) >>= next)
      (reported (.error (v.failMisstep m, v')) >>= next') := by
  obtain ⟨_, _, _, _, first⟩ := reported_misstep u u' m
  obtain ⟨_, _, _, _, second⟩ := reported_misstep v v' m
  rw [first, second, phase]
  exact .error v.phase (.violation m.violation)

variable {atoms atoms' : List Atom}

theorem translate_alike (alike : Alike atoms atoms') (u : CompilationUnit) :
    SameOutcome (reported { u with atoms }.translate >>= fun u => pure (u.enter .writeC))
      (reported { u with atoms := atoms' }.translate >>= fun u => pure (u.enter .writeC)) := by
  have walked : u.translator.walk none 0 0 atoms = u.translator.walk none 0 0 atoms' :=
    alike.walk u.translator rfl 0 0
  have whole (atoms : List Atom) : ({ u with atoms }.enter .convert).translator.walk none 0 0
      ({ u with atoms }.enter .convert).atoms = u.translator.walk none 0 0 atoms := rfl
  simp only [translate, whole, walked]
  cases u.translator.walk none 0 0 atoms' with
  | error e =>
      refine sameOutcome_misstep ?_ _ _ e.1 _ _
      rfl
  | ok t => exact .ok rfl

/-- Programs that are alike come to the same. -/
theorem conclude_alike (alike : Alike atoms atoms') (file : String) :
    SameOutcome ({ file, atoms } : CompilationUnit).conclude
      ({ file, atoms := atoms' } : CompilationUnit).conclude := by
  have headers := alike.requiredHeaders []
  simp only [conclude, scanFunctions, enter, alike.declareFunctions]
  cases declareFunctions .empty 0 atoms' with
  | error e =>
      refine sameOutcome_misstep ?_ _ _ e.1 _ _
      rfl
  | ok symbols =>
      change SameOutcome
        (reported
            ({ file, atoms, symbols, headers := requiredHeaders atoms [], phase := .importScan } :
              CompilationUnit).translate >>= fun u => pure (u.enter .writeC)) _
      rw [headers]
      exact translate_alike alike
        { file, symbols, headers := requiredHeaders atoms' [], phase := .importScan }

end CompilationUnit

end DawnC
