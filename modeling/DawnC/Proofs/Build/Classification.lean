import DawnC.Proofs.Build.Output
import DawnC.Proofs.Construct
import DawnC.Proofs.Include.Faults
import DawnC.Proofs.Include.Outcome
import Mathlib.Data.List.Basic

set_option autoImplicit false

namespace DawnC

open Attempt (Throws run_bind_ok)

namespace Fault

/-- A fault of a kind that is reported: a missing source, or a fault of a phase. -/
def Reported (f : Fault) : Prop := (∃ path, f = .sourceNotFound path) ∨ ∃ p, f.OfPhase p

end Fault

namespace CompilationUnit

variable {u v : CompilationUnit} {fault : Fault}

theorem reported_fail (u : CompilationUnit) (fault : Fault) : (u.fail fault).Reported := by
  rw [fail]
  split
  · exact Or.inl ⟨_, rfl⟩
  · exact Or.inr (Fault.exists_ofPhase_inPhase u.phase fault)

theorem fail_of_reading (start : u.phase = .read) (reading : fault.Reading) :
    ∃ p ∈ [Phase.read, .inclusion], (u.fail fault).OfPhase p := by
  rw [fail, reading.1, start]
  exact reading.2

theorem scanFunctions_error (failed : reported u.scanFunctions = .error (fault, v)) :
    fault.OfPhase u.phase ∧ ∃ symbols, v = { u with symbols } := by
  rw [scanFunctions] at failed
  cases declared : declareFunctions u.symbols 0 u.atoms with
  | error e =>
      rw [declared] at failed
      obtain ⟨_, _, _, _, report⟩ := reported_misstep u { u with symbols := e.2 } e.1
      simp only [report] at failed
      cases failed
      exact ⟨⟨_, _, _, _, _, rfl⟩, e.2, rfl⟩
  | ok symbols =>
      rw [declared] at failed
      cases failed

theorem translate_error (failed : reported u.translate = .error (fault, v)) :
    fault.OfPhase .convert ∧ v.phase = .convert := by
  simp only [translate] at failed
  cases walked : (u.enter .convert).translator.walk none 0 0 (u.enter .convert).atoms with
  | error e =>
      rw [walked] at failed
      obtain ⟨_, _, _, _, report⟩ :=
        reported_misstep (u.enter .convert) ((u.enter .convert).absorb e.2) e.1
      simp only [report] at failed
      cases failed
      exact ⟨⟨_, _, _, _, _, rfl⟩, rfl⟩
  | ok t =>
      rw [walked] at failed
      cases failed

/-- After reading, a unit can fail in two phases. Before the second nothing is written. -/
theorem conclude_error (failed : u.conclude = .error (fault, v)) :
    (fault.OfPhase .functionScan ∧ v.phase = .functionScan ∧ v.lines = u.lines ∧
      v.prototypes = u.prototypes) ∨ fault.OfPhase .convert ∧ v.phase = .convert := by
  rcases bind_eq_error.mp failed with scanned | ⟨u', -, later⟩
  · obtain ⟨ofPhase, symbols, rfl⟩ := scanFunctions_error scanned
    exact Or.inl ⟨ofPhase, rfl, rfl, rfl⟩
  · rcases bind_eq_error.mp later with translated | ⟨u'', -, impossible⟩
    · exact Or.inr (translate_error translated)
    · cases impossible

theorem conclude_ok (succeeded : u.conclude = .ok v) : v.phase = .writeC := by
  obtain ⟨u', -, later⟩ := bind_eq_ok.mp succeeded
  obtain ⟨u'', -, entered⟩ := bind_eq_ok.mp later
  cases entered
  rfl

end CompilationUnit

/-- However the fetches fail, the fault of a translation is of a kind that is reported. -/
theorem transpileUnit_reported {fetcher : Option Fetcher} {root : String} {w w' : World} {fault : Fault}
    {u : CompilationUnit} (failed : (transpileUnit fetcher root).run w = (.error (fault, u), w')) :
    fault.Reported := by
  have result := congrArg Prod.fst failed
  rcases loaded : (load fetcher root).run { w with events := w.events ++ [.phaseEntered .read] } with
    ⟨unread | atoms, read⟩
  · rw [transpileUnit, transpileWith_of_unread loaded] at result
    cases result
    exact CompilationUnit.reported_fail _ unread
  · rw [transpileUnit, transpileWith_of_read loaded] at result
    rcases CompilationUnit.conclude_error result with ⟨ofPhase, -⟩ | ⟨ofPhase, -⟩
    · exact Or.inr ⟨_, ofPhase⟩
    · exact Or.inr ⟨_, ofPhase⟩

theorem Action.inPhase_reported {α : Type} (phase : Phase) (action : Action α) :
    Throws Fault.Reported (inPhase phase action) :=
  .tryCatch (fun _ _ _ _ => trivial : Throws (fun _ => True) action) fun fault _ =>
    .throw (Or.inr (fault.exists_ofPhase_inPhase phase))

theorem Workspace.produce_reported (w : Workspace) (config : BuildConfig) (toolchain : Toolchain)
    (code : String) : Throws Fault.Reported (w.produce config toolchain code) :=
  .bind (Action.inPhase_reported _ _) fun _ => .bind (Action.inPhase_reported _ _) fun _ =>
    .bind (Action.inPhase_reported _ _) fun _ => .bind (Action.inPhase_reported _ _) fun _ =>
    .bind (Action.inPhase_reported _ _) fun _ => .bind (Action.inPhase_reported _ _) fun _ =>
    .bind (Action.throws_tell _) fun _ => .bind (Action.inPhase_reported _ _) fun _ =>
    Action.inPhase_reported _ _

theorem BuildConfig.transpile_reported (config : BuildConfig) (around : Surroundings) (input : String) :
    Throws Fault.Reported (config.transpile around input) := by
  intro w fault w' failed
  rw [transpile, DawnC.transpile, run_bind_ok (Attempt.run_get w)] at failed
  rcases ran : (transpileUnit (some ((⟨config.cacheDir⟩ : Cache).fetch around.remotes)) input).run w with
    ⟨⟨fault', u⟩ | u, read⟩
  · rw [ran] at failed
    cases failed
    exact transpileUnit_reported ran
  · rw [ran] at failed
    cases failed

/-- Every fault of a build is of a kind that is reported. -/
theorem BuildConfig.build_reported (config : BuildConfig) (around : Surroundings)
    (input output : String) : Throws Fault.Reported (config.build around input output) := by
  intro w fault w' failed
  rcases build_throws (Action.inPhase_reported _ _) (fun _ => Action.inPhase_reported _ _)
    (fun workspace => workspace.produce_reported config around.toolchain) failed with
    ⟨read, untranslated⟩ | reported
  · exact config.transpile_reported around input w _ _ untranslated
  · exact reported

theorem Store.isFile_eq_false {s : Store} {path : String} : s.isFile path = false ↔
    (∃ reason, s.find path = .error reason) ∨ s.find path = .ok .directory := by
  rw [isFile]
  cases s.find path with
  | error reason => simp
  | ok entry =>
      cases entry with
      | directory => simp
      | file contents executable => simp

variable {fetcher : Option Fetcher} {root : String} {w w' : World}
  {result : Except (Fault × CompilationUnit) CompilationUnit}

/-- What a translation comes to: there is no source, or it cannot be read, or the phases after reading
decide. -/
theorem transpileUnit_cases (bare : ∀ fetch ∈ fetcher, ∀ text, Throws Fault.Bare (fetch text))
    (ran : (transpileUnit fetcher root).run w = (result, w')) :
    (w.store.isFile root = false ∧ result = .error (.sourceNotFound root, { file := root })) ∨
    w.store.isFile root = true ∧
      ((∃ fault, ∃ p ∈ [Phase.read, .inclusion], fault.OfPhase p ∧
        result = .error (fault, { file := root })) ∨
      ∃ atoms, result = ({ file := root, atoms, phase := .read } : CompilationUnit).conclude) := by
  have outcome := (congrArg Prod.fst ran).symm
  cases isFile : w.store.isFile root with
  | false =>
      have unread := load_of_no_file (w := { w with events := w.events ++ [.phaseEntered .read] })
        fetcher isFile
      rw [transpileUnit, transpileWith_of_unread unread] at outcome
      exact Or.inl ⟨rfl, outcome⟩
  | true =>
      refine Or.inr ⟨rfl, ?_⟩
      rcases loaded : (load fetcher root).run { w with events := w.events ++ [.phaseEntered .read] } with
        ⟨unread | atoms, read⟩
      · rw [transpileUnit, transpileWith_of_unread loaded] at outcome
        obtain ⟨p, early, ofPhase⟩ := CompilationUnit.fail_of_reading
          (u := { file := root }) rfl (load_error bare loaded isFile)
        exact Or.inl ⟨_, p, early, ofPhase, outcome⟩
      · rw [transpileUnit, transpileWith_of_read loaded] at outcome
        exact Or.inr ⟨atoms, outcome⟩

/-- With a source, every fault is one of a phase that the unit shows. -/
theorem transpileUnit_phased (bare : ∀ fetch ∈ fetcher, ∀ text, Throws Fault.Bare (fetch text))
    (ran : (transpileUnit fetcher root).run w = (result, w')) (isFile : w.store.isFile root = true)
    {fault : Fault} {u : CompilationUnit} (failed : result = .error (fault, u)) :
    ∃ p ∈ [Phase.read, .inclusion, .functionScan, .convert], fault.OfPhase p ∧
      u.phase = (if p = .inclusion then .read else p) ∧
      (p ≠ .convert → u.lines = [] ∧ u.prototypes = []) := by
  rcases transpileUnit_cases bare ran with ⟨noFile, -⟩ | ⟨-, ⟨_, p, early, ofPhase, same⟩ | ⟨atoms, same⟩⟩
  · rw [isFile] at noFile
    cases noFile
  · rw [failed] at same
    cases same
    rcases List.mem_pair.mp early with rfl | rfl
    · exact ⟨_, by simp, ofPhase, rfl, fun _ => ⟨rfl, rfl⟩⟩
    · exact ⟨_, by simp, ofPhase, rfl, fun _ => ⟨rfl, rfl⟩⟩
  · rw [failed] at same
    rcases CompilationUnit.conclude_error same.symm with
      ⟨ofPhase, phase, lines, prototypes⟩ | ⟨ofPhase, phase⟩
    · exact ⟨_, by simp, ofPhase, phase, fun _ => ⟨lines, prototypes⟩⟩
    · exact ⟨_, by simp, ofPhase, phase, fun other => absurd rfl other⟩

/-- A translation whose fetches have bare faults only:
- it says that its source is missing if and only if the root is not there or is a directory, and then
  the unit is empty;
- every other fault is one of reading, of the includes, of the search for functions or of the
  translation, and the unit is in that phase, or in that of reading for a fault of the includes;
- lines and prototypes are there only if it failed while translating;
- if it succeeds, the unit is in the phase of writing.
And every fault of a build is that of a missing source or one of a phase. -/
theorem failures_are_classified (bare : ∀ fetch ∈ fetcher, ∀ text, Throws Fault.Bare (fetch text))
    (ran : (transpileUnit fetcher root).run w = (result, w')) :
    ((∃ u, result = .error (.sourceNotFound root, u)) ↔
      (∃ reason, w.store.find root = .error reason) ∨ w.store.find root = .ok .directory) ∧
    (∀ u, result = .error (.sourceNotFound root, u) →
      u.atoms = [] ∧ u.symbols = .empty ∧ u.headers = [] ∧ u.prototypes = [] ∧ u.lines = []) ∧
    (∀ fault u, result = .error (fault, u) → fault ≠ .sourceNotFound root →
      ∃ p ∈ [Phase.read, .inclusion, .functionScan, .convert], fault.OfPhase p ∧
        u.phase = (if p = .inclusion then .read else p) ∧
        (p ≠ .convert → u.lines = [] ∧ u.prototypes = [])) ∧
    (∀ u, result = .ok u → u.phase = .writeC) ∧
    ∀ (config : BuildConfig) (around : Surroundings) (input output : String) (v v' : World)
      (fault : Fault), (config.build around input output).run v = (.error fault, v') →
      (∃ path, fault = .sourceNotFound path) ∨ ∃ p, fault.OfPhase p := by
  have sourced (isFile : w.store.isFile root = true) (u : CompilationUnit) :
      result ≠ .error (.sourceNotFound root, u) := by
    intro failed
    obtain ⟨p, -, ⟨_, _, _, _, _, impossible⟩, -⟩ := transpileUnit_phased bare ran isFile failed
    cases impossible
  refine ⟨?_, ?_, ?_, ?_, fun config around input output v v' fault =>
    config.build_reported around input output v fault v'⟩
  · rw [← Store.isFile_eq_false]
    rcases transpileUnit_cases bare ran with ⟨noFile, same⟩ | ⟨isFile, -⟩
    · exact ⟨fun _ => noFile, fun _ => ⟨_, same⟩⟩
    · rw [isFile]
      exact ⟨fun ⟨u, failed⟩ => absurd failed (sourced isFile u), fun impossible => by cases impossible⟩
  · intro u failed
    rcases transpileUnit_cases bare ran with ⟨-, same⟩ | ⟨isFile, -⟩
    · rw [failed] at same
      cases same
      exact ⟨rfl, rfl, rfl, rfl, rfl⟩
    · exact absurd failed (sourced isFile u)
  · intro fault u failed other
    rcases transpileUnit_cases bare ran with ⟨-, same⟩ | ⟨isFile, -⟩
    · rw [failed] at same
      cases same
      exact absurd rfl other
    · exact transpileUnit_phased bare ran isFile failed
  · rintro u rfl
    rcases transpileUnit_cases bare ran with ⟨-, same⟩ | ⟨-, ⟨_, _, _, _, same⟩ | ⟨atoms, same⟩⟩
    · cases same
    · cases same
    · exact CompilationUnit.conclude_ok same.symm

/-- A program with a remote file that no remote has. -/
def unfetchable : Store where
  entries := [(["a.dawn"], .file (Utf8.encode "include \"h.com/o/r/b.dawn@v1\"") false)]

def unfetching : Fetcher := (⟨homeConfig.cacheDir⟩ : Cache).fetch bareSurroundings.remotes

/-- The remote file cannot be had: that is a fault of the includes, met by a unit that is being read. -/
theorem failures_are_classified_unfetched :
    ∃ fault u w', (transpileUnit (some unfetching) "a.dawn").run ⟨unfetchable, []⟩ =
        (.error (fault, u), w') ∧
      fault.OfPhase .inclusion ∧ u.phase = .read ∧ u.lines = [] ∧ u.prototypes = [] := by
  have bare : ∀ fetch ∈ some unfetching, ∀ text, Throws Fault.Bare (fetch text) := by
    rintro fetch member text
    cases member
    refine Cache.fetch_throws _ ⟨?_, ?_, ?_⟩ text
    · intro fault refused
      cases refused
    · intro url fault refused
      cases refused
      exact ⟨rfl, rfl⟩
    · intro url repository version fault cloned
      cases cloned
  have code : (((transpileUnit (some unfetching) "a.dawn").run ⟨unfetchable, []⟩).1.mapError
      fun e => e.1.phaseCode?).map (fun _ => ()) = .error (some "r200") := by decide +kernel
  rcases ran : (transpileUnit (some unfetching) "a.dawn").run ⟨unfetchable, []⟩ with
    ⟨⟨fault, u⟩ | u, w'⟩
  · rw [ran] at code
    have coded : fault.phaseCode? = some "r200" := by injection code
    have other : fault ≠ .sourceNotFound "a.dawn" := by
      rintro rfl
      cases coded
    obtain ⟨p, member, ofPhase, phase, written⟩ :=
      (failures_are_classified bare ran).2.2.1 fault u rfl other
    rw [ofPhase.phaseCode?, Option.some_inj] at coded
    obtain rfl : p = .inclusion := by
      simp only [List.mem_cons, List.not_mem_nil, or_false] at member
      rcases member with rfl | rfl | rfl | rfl
      · exact absurd coded (by decide)
      · rfl
      · exact absurd coded (by decide)
      · exact absurd coded (by decide)
    exact ⟨fault, u, w', rfl, ofPhase, phase, written (by decide)⟩
  · rw [ran] at code
    cases code

end DawnC
