import DawnC.Proofs.Build.Effects

set_option autoImplicit false

namespace DawnC

open Attempt (Throws run_bind_ok run_tryCatch_ok)

namespace Fault

/-- Neither a phase fault nor a missing source is in it. -/
def Bare (f : Fault) : Prop := f.phase? = none ∧ f.missingSource? = none

variable {f : Fault}

theorem Bare.wrap (bare : f.Bare) (context : String) : (Fault.wrap context f).Bare := by
  obtain ⟨noPhase, noSource⟩ := bare
  constructor
  · rw [phase?, find?]
    exact noPhase
  · rw [missingSource?, find?]
    exact noSource

theorem Bare.inPhase (bare : f.Bare) (p : Phase) : (f.inPhase p).missingSource? = none := by
  rw [Fault.inPhase, bare.1, Option.getD_none, missingSource?, find?]
  exact bare.2

end Fault

namespace Action

variable {α : Type} {P : Fault → Prop}

theorem throws_files (action : FileAction α) : Throws Fault.Bare (files action) := by
  intro w fault w' failed
  rcases ran : action.run w.store with ⟨reason | a, s⟩
  · rw [run_files ran] at failed
    cases failed
    exact ⟨rfl, rfl⟩
  · rw [run_files ran] at failed
    cases failed

theorem throws_store : Throws P store := by
  intro w fault w' failed
  cases failed

theorem throws_tell (event : Event) : Throws P (tell event) := by
  intro w fault w' failed
  cases failed

theorem throws_process (run : StateM Store ProcessRun) : Throws P (process run) := by
  intro w fault w' failed
  cases failed

theorem throws_ofExcept {result : Except Fault α} (throws : ∀ fault, result = .error fault → P fault) :
    Throws P (ofExcept result) := by
  cases result with
  | error fault => exact .throw (throws fault rfl)
  | ok a => exact .pure a

theorem throws_within {action : Action α} (context : String) (throws : Throws Fault.Bare action) :
    Throws Fault.Bare (within context action) := .tryCatch throws fun _ bare => .throw (bare.wrap _)

theorem throws_inPhase {action : Action α} (phase : Phase) (throws : Throws Fault.Bare action) :
    Throws (fun fault => fault.missingSource? = none) (inPhase phase action) :=
  .tryCatch throws fun _ bare => .throw (bare.inPhase _)

end Action

namespace Workspace

theorem ofPaths_bare {config : BuildConfig} {s : Store} {input output : String} {fault : Fault}
    (failed : ofPaths config s input output = .error fault) : fault.Bare := by
  have bare : Fault.noWorkingDirectory.Bare := ⟨rfl, rfl⟩
  rcases s.absolute_cases input with first | ⟨-, -, first⟩
  · rcases s.absolute_cases output with second | ⟨-, -, second⟩
    · rw [ofPaths, first, second] at failed
      cases failed
    · rw [ofPaths, first, second] at failed
      cases failed
      exact bare.wrap _
  · rw [ofPaths, first] at failed
    cases failed
    exact bare.wrap _

theorem compile_throws (w : Workspace) (config : BuildConfig) (toolchain : Toolchain) :
    Throws Fault.Bare (w.compile config toolchain) := by
  refine .bind (Action.throws_tell _) fun _ => .bind (Action.throws_process _) fun run => ?_
  cases run.failure with
  | none => exact .pure _
  | some failure => exact .throw ⟨rfl, rfl⟩

theorem awaitArtifact_throws (w : Workspace) (artifact : String) (attempt delay left : Nat) :
    Throws Fault.Bare (w.awaitArtifact artifact attempt delay left) := by
  induction left generalizing attempt delay with
  | zero =>
      refine .bind Action.throws_store fun s => ?_
      split
      · exact .pure _
      · exact .throw ⟨rfl, rfl⟩
  | succ left ih =>
      refine .bind Action.throws_store fun s => ?_
      split
      · exact .pure _
      · exact .bind (Action.throws_tell _) fun _ => ih _ _

theorem removeSource_throws (w : Workspace) : Throws Fault.Bare w.removeSource := by
  refine .bind Action.throws_store fun s => ?_
  split
  · exact .throw ⟨rfl, rfl⟩
  · exact Action.throws_files _

theorem produce_throws (w : Workspace) (config : BuildConfig) (toolchain : Toolchain) (code : String) :
    Throws (fun fault => fault.missingSource? = none) (w.produce config toolchain code) :=
  .bind (Action.throws_inPhase _ (Action.throws_within _ (Action.throws_files _))) fun _ =>
    .bind (Action.throws_inPhase _ (Action.throws_within _ (Action.throws_files _))) fun _ =>
    .bind (Action.throws_inPhase _ (Action.throws_within _ (Action.throws_files _))) fun _ =>
    .bind (Action.throws_inPhase _ (w.compile_throws config toolchain)) fun _ =>
    .bind (Action.throws_inPhase _ (w.awaitArtifact_throws _ _ _ _)) fun _ =>
    .bind (Action.throws_inPhase _ (Action.throws_within _ (Action.throws_files _))) fun _ =>
    .bind (Action.throws_tell _) fun _ =>
    .bind (Action.throws_inPhase _ w.removeSource_throws) fun _ =>
    Action.throws_inPhase _ (Action.throws_files _)

end Workspace

namespace BuildConfig

variable {config : BuildConfig} {around : Surroundings} {input output : String} {w w' : World}
  {fault : Fault}

/-- A build fails with a fault of the translation, of its directories, of its paths or of its workspace;
cleaning up adds none. -/
theorem build_throws {P : Fault → Prop}
    (directories : Throws P (Action.inPhase .writeC
      (Action.within "creating directories" (Action.files config.ensureDirectories))))
    (placed : ∀ s, Throws P (Action.inPhase .writeC
      (Action.ofExcept (Workspace.ofPaths config s input output))))
    (produced : ∀ workspace code, Throws P (Workspace.produce workspace config around.toolchain code))
    (failed : (config.build around input output).run w = (.error fault, w')) :
    (∃ read, (config.transpile around input).run w = (.error fault, read)) ∨ P fault := by
  rcases translated : (config.transpile around input).run w with ⟨fault' | code, read⟩
  · rw [build_of_untranslated translated] at failed
    cases failed
    exact Or.inl ⟨read, rfl⟩
  · right
    rw [build, run_bind_ok (run_tryCatch_ok translated)] at failed
    refine (Throws.bind directories fun _ => .bind Action.throws_store fun s =>
      .bind (placed s) fun ws => .bind (Action.throws_tell _) fun _ =>
        .tryCatch (produced _ _) fun fault holds => ?_ : Throws P _) _ _ _ failed
    intro v fault' v' failed
    obtain ⟨leftover, discarded⟩ := Workspace.run_discard _ v
    rw [run_bind_ok discarded] at failed
    cases leftover with
    | none =>
        cases failed
        exact holds
    | some found =>
        cases failed
        exact holds

/-- A build that finds no source has not found it when it read the program. -/
theorem build_error (failed : (config.build around input output).run w = (.error fault, w')) :
    (∃ read, (config.transpile around input).run w = (.error fault, read)) ∨
      fault.missingSource? = none :=
  build_throws (Action.throws_inPhase _ (Action.throws_within _ (Action.throws_files _)))
    (fun _ => Action.throws_inPhase _ (Action.throws_ofExcept fun _ => Workspace.ofPaths_bare))
    (fun workspace => workspace.produce_throws config around.toolchain) failed

end BuildConfig

end DawnC
