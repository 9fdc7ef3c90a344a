import DawnC.Proofs.Build.Effects

set_option autoImplicit false

namespace DawnC

open Attempt (Sustains)
open Store (Changes)

variable {config : BuildConfig} {around : Surroundings} {input output : String} {cwd : Location}
  {w : World}

/-- What a build does after reading its sources, it does to the places that its workspace owns. -/
theorem build_changes (compiler : around.toolchain.Confined config.compiler w.store.cwd)
    (input output : String) :
    Changes w.store.cwd (fun _ => True) ((Workspace.ofStore config w.store input output).Owns w.store.cwd)
      ((config.transpile around input).run w).2.store
      ((config.build around input output).run w).2.store := by
  let owns := (Workspace.ofStore config w.store input output).Owns w.store.cwd
  have directories : Sustains (Changes w.store.cwd (fun _ => True) owns) config.ensureDirectories :=
    .bind (FileAction.makeDirectories_changes fun _ => trivial) fun _ =>
      .bind (FileAction.makeDirectories_changes fun _ => trivial) fun _ =>
        FileAction.makeDirectories_changes fun _ => trivial
  have inside := Workspace.dir_isPrefix_sourcePath config w.store input output w.store.cwd
  rcases ran : (config.build around input output).run w with ⟨result, after⟩
  apply (BuildConfig.build_ends ran).sustains _ directories
  · intro read code ws s events result v enters produced
    obtain ⟨-, -, rfl⟩ := enters.treeAt
    refine (Workspace.produce_changes (fun _ owned => owned) inside ?_ ?_ code).of_run produced
    · exact FileAction.makeDirectories_changes fun _ => trivial
    · exact fun arguments => compiler.changes arguments fun place below => Or.inr (Or.inr below)
  · exact Workspace.discard_changes (fun _ owned => owned) inside
  · exact FileAction.removeIfExists_changes
      (Or.inl (Workspace.place_output w.store config input output).symm)

/-- Reading the sources changes nothing that is there, and whatever is there then is there after the
build, failed or not, unless the build works on its place: the output, the artifact or the workspace. -/
theorem files_survive_build (compiler : around.toolchain.Confined config.compiler w.store.cwd)
    (input output : String) :
    (∀ place entry, w.store.get? place = some entry →
      ((config.transpile around input).run w).2.store.get? place = some entry) ∧
    ∀ place entry, ((config.transpile around input).run w).2.store.get? place = some entry →
      ¬ (Workspace.ofStore config w.store input output).Owns w.store.cwd place →
        ((config.build around input output).run w).2.store.get? place = some entry := by
  have grows : Store.Grows w.store.cwd w.store ((config.transpile around input).run w).2.store :=
    config.transpile_grows around input w
  refine ⟨fun place entry => grows.kept ⟨rfl⟩, ?_⟩
  intro place entry found outside
  exact (build_changes compiler input output).kept (grows ⟨rfl⟩).1 found outside

def twoFiles : Store where
  entries := [(["a.dawn"], .file (Utf8.encode "include \"b.dawn\"") false),
    (["b.dawn"], .file (Utf8.encode "int x = 1") false)]

/-- Both files are there after a build into a third. -/
theorem files_survive_build_two :
    ((homeConfig.build bareSurroundings "a.dawn" "out").run ⟨twoFiles, []⟩).2.store.get? ["a.dawn"] =
        twoFiles.get? ["a.dawn"] ∧
      ((homeConfig.build bareSurroundings "a.dawn" "out").run ⟨twoFiles, []⟩).2.store.get? ["b.dawn"] =
        twoFiles.get? ["b.dawn"] := by
  obtain ⟨read, built⟩ :=
    @files_survive_build _ _ ⟨twoFiles, []⟩ (confined_bareSurroundings []) "a.dawn" "out"
  have outside : ∀ place ∈ [["a.dawn"], ["b.dawn"]],
      ¬ (Workspace.ofStore homeConfig twoFiles "a.dawn" "out").Owns [] place := by
    unfold Workspace.Owns
    decide +kernel
  constructor
  · exact built _ _ (read _ _ rfl) (outside _ (by simp))
  · exact built _ _ (read _ _ rfl) (outside _ (by simp))

def untranslatable : Store where
  entries := [(["a.dawn"], .file (Utf8.encode "x = 1") false)]

/-- A build can destroy its own source: it is removed if it is the output, too. -/
theorem source_destroyed_by_build :
    untranslatable.isFile "a.dawn" = true ∧
      ((homeConfig.build bareSurroundings "a.dawn" "a.dawn").run ⟨untranslatable, []⟩).2.store.find
        "a.dawn" = .error .notFound := by
  constructor
  all_goals decide +kernel

end DawnC
