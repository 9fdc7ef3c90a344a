import DawnC.Proofs.Build.Confinement

set_option autoImplicit false

namespace DawnC

open Attempt (Sustains)
open Store (Changes)

/-- No directory gets to the place, and what may be done there stays as it is. -/
def Store.Spares (cwd place : Location) (s t : Store) : Prop :=
  s.TreeAt cwd → s.get? place ≠ some .directory →
    t.TreeAt cwd ∧ t.rule place = s.rule place ∧ t.get? place ≠ some .directory

instance (cwd place : Location) : IsPreorder Store (Store.Spares cwd place) where
  refl _ tree free := ⟨tree, rfl, free⟩
  trans _ _ _ first second := by
    intro tree free
    obtain ⟨tree', rule, free'⟩ := first tree free
    obtain ⟨tree'', rule', free''⟩ := second tree' free'
    exact ⟨tree'', rule'.trans rule, free''⟩

namespace Store

variable {cwd place : Location} {s t : Store} {path : String}

theorem Changes.spares {makes touches : Location → Prop} (changes : Changes cwd makes touches s t)
    (unmade : ¬ makes place) (untouched : ¬ touches place) : Spares cwd place s t := by
  intro tree free
  obtain ⟨tree', outside⟩ := changes tree
  obtain ⟨rule, same | ⟨made, -⟩⟩ := outside place untouched
  · exact ⟨tree', rule, same ▸ free⟩
  · exact absurd made unmade

theorem Spares.erase {other : Location} (down : other ≠ []) : Spares cwd place s (s.erase other) := by
  intro tree free
  exact ⟨tree.erase, rfl, fun there => free ((Shrinks.erase down).before there)⟩

theorem Spares.insert_file {other : Location} {contents : Bytes} {executable : Bool} :
    Spares cwd place s (s.insert other (.file contents executable)) := by
  intro tree free
  refine ⟨tree.insert, rule_congr rules_insert place, ?_⟩
  by_cases fits : s.Fits other (.file contents executable)
  · rw [get?_insert fits]
    split
    · simp
    · exact free
  · rw [insert, dif_neg fits]
    exact free

/-- What a path finds is found by it in its shortest form, which leads to the same place. -/
theorem exists_usable {entry : Entry} (found : s.find path = .ok entry) :
    ∃ n : Path.Normal, Path.clean path = n.text ∧ (∀ cwd, n.place cwd = Path.place cwd path) ∧ n.IsUsable ∧
      s.sees n = some entry := by
  obtain ⟨n, -, -, shape⟩ := Path.exists_normal path
  have tree : s.TreeAt s.cwd := ⟨rfl⟩
  have cleaned := tree.find_clean found
  rw [shape, tree.find_text] at cleaned
  refine ⟨n, shape, ?_, cleaned⟩
  intro cwd
  rw [← Path.Normal.place_text, ← shape, Path.place_clean]

end Store

namespace FileAction

variable {cwd place : Location} {path : String}

theorem remove_spares (path : String) : Sustains (Store.Spares cwd place) (remove path) := by
  intro s
  rcases remove_cases s path with ⟨fault, failed⟩ | ⟨other, removable, ran⟩
  · rw [failed]
    exact refl_of _ s
  · rw [ran]
    exact .erase removable.ne_nil

theorem removeIfExists_spares (path : String) : Sustains (Store.Spares cwd place) (removeIfExists path) := by
  apply Sustains.tryCatch (remove_spares path)
  intro fault
  split
  · exact .pure ()
  · exact .throw fault

theorem moveFile_spares (source destination : String) :
    Sustains (Store.Spares cwd place) (moveFile source destination) := by
  apply Sustains.tryCatch
  · intro s
    rcases rename_cases s source destination with ⟨fault, failed⟩ |
      ⟨parent, name, slash, parent', name', contents, executable, -, -, -, -, ran⟩
    · rw [failed]
      exact refl_of _ s
    · rw [ran]
      exact trans_of _ (Store.Spares.erase (by simp)) .insert_file
  · intro _
    apply Sustains.bind
    · intro s
      rw [readFile, Attempt.run_bind_ok (Attempt.run_get s)]
      cases s.readFile source with
      | error fault => exact refl_of _ s
      | ok contents => exact refl_of _ s
    · intro contents
      refine .bind ?_ fun _ => remove_spares source
      intro s
      rcases writeFileAs_cases s true destination contents with
        ⟨fault, failed⟩ | ⟨parent, name, mode, -, -, -, -, ran⟩
      · rw [failed]
        exact refl_of _ s
      · rw [ran]
        exact .insert_file

/-- Once the output is removed nothing is found there, unless it cannot be removed or is a directory. -/
theorem error_of_removeIfExists {read s t : Store} {output : String} {result : Except FileFault Unit}
    (tree : read.TreeAt cwd) (spares : Store.Spares cwd (Path.place cwd output) read s)
    (noDirectory : read.find (Path.clean output) ≠ .ok .directory)
    (released : (read.rule (Path.place cwd output)).stays = false)
    (ran : (removeIfExists path).run s = (result, t)) (same : Path.place cwd path = Path.place cwd output)
    (found_by_path : t.TreeAt cwd → ∀ contents executable, t.find output = .ok (.file contents executable) →
      t.find path = .ok (.file contents executable)) :
    ∃ reason, t.find output = .error reason := by
  cases found : t.find output with
  | error reason => exact ⟨reason, rfl⟩
  | ok entry =>
      exfalso
      obtain ⟨n, shape, place, usable, seen⟩ := Store.exists_usable found
      rw [shape] at noDirectory
      have free : read.get? (Path.place cwd output) ≠ some .directory := by
        rw [← place]
        intro there
        exact noDirectory (tree.find_text.mpr ⟨usable, tree.sees_of_get? there fun _ => rfl⟩)
      obtain ⟨treeBefore, rule, free'⟩ := spares tree free
      obtain ⟨treeAfter, -, free''⟩ := (removeIfExists_spares path).of_run ran treeBefore free'
      cases entry with
      | directory =>
          by_cases level : n.names = []
          · exact noDirectory (tree.find_text.mpr ⟨usable, Store.sees_level level⟩)
          · rw [treeAfter.sees_down level, place] at seen
            exact free'' seen
      | file contents executable =>
          obtain ⟨-, kept⟩ := stays_of_removeIfExists ran (found_by_path treeAfter _ _ found)
          rw [treeBefore.here, same, rule, released] at kept
          cases kept

end FileAction

namespace Workspace

variable {w : Workspace} {config : BuildConfig} {toolchain : Toolchain} {cwd place : Location}
  {p : Path.Normal} {s : Store}

section Spares

variable (outside : ¬ Path.place cwd w.dir <+: place)

include outside

/-- The build proper makes no directory outside its workspace. -/
theorem LiesIn.produce_spares (lies : w.LiesIn p s) (tree : s.TreeAt cwd)
    (compiler : toolchain.Confined config.compiler cwd)
    (free : s.get? place ≠ some .directory) {code : String} {events : List Event}
    {result : Except Fault Unit} {v : World}
    (ran : (w.produce config toolchain code).run ⟨s, events⟩ = (result, v)) :
    Store.Spares cwd place s v.store := by
  have inside {t t' : Store} (changes : Changes cwd (fun _ => False) (Path.place cwd w.dir <+: ·) t t') :
      Store.Spares cwd place t t' := changes.spares id outside
  have ensured := lies.ensure_changes tree fun _ below => below
  refine (produce_sustains ?_ ?_ ?_ ?_ ?_ ?_ ?_ code : Sustains (World.OnStore (Store.Spares cwd place))
    (w.produce config toolchain code)).of_run ran
  · exact fun t => (ensured t).spares free outside
  · exact fun contents t => inside (FileAction.writeFileAs_changes (lies.inside cwd) false contents t)
  · exact FileAction.removeIfExists_spares w.output
  · exact fun arguments t => inside (compiler.changes arguments (fun _ below => below) t)
  · exact FileAction.moveFile_spares w.artifactPath w.output
  · exact FileAction.remove_spares w.sourcePath
  · exact fun t => inside (FileAction.removeTree_changes (fun _ below => below) t)

/-- Nor does cleaning up, before it comes to the output. -/
theorem discard_spares (v : World) :
    Store.Spares cwd place v.store ((FileAction.removeTree w.dir).run
      ((FileAction.removeIfExists w.sourcePath).run v.store).2).2 := by
  have cleaned : Sustains (Changes cwd (fun _ => False) (Path.place cwd w.dir <+: ·))
      (FileAction.removeTree w.dir) := FileAction.removeTree_changes fun _ below => below
  exact trans_of _ (FileAction.removeIfExists_spares w.sourcePath v.store) ((cleaned _).spares id outside)

end Spares

end Workspace

namespace BuildConfig

variable {config : BuildConfig} {around : Surroundings} {input output : String} {w : World}

/-- The output can be removed: it is no directory, the user may remove it and its path from the root is short
enough, and it is not one of the directories for builds, nor on the way to one, nor in the workspace. -/
structure CanClear (config : BuildConfig) (input output : String) (s : Store) : Prop where
  noDirectory : s.find (Path.clean output) ≠ .ok .directory
  released : (s.rule (Path.place s.cwd output)).stays = false
  short : (Path.absolute s.cwdPath output).utf8ByteSize < pathLimit
  apart : ¬ config.Makes s.cwd (Path.place s.cwd output)
  outside : ¬ Path.place s.cwd (Workspace.ofStore config s input output).dir <+: Path.place s.cwd output

theorem Ends.clears {fault : Fault} {after : Store}
    (ends : Ends config around input output w (.error fault) after)
    (compiler : around.toolchain.Confined config.compiler w.store.cwd)
    (other : fault.missingSource? = none) (entered : ¬ config.StopsEarly around input output w)
    (clear : config.CanClear input output ((config.transpile around input).run w).2.store) :
    ∃ reason, after.find output = .error reason := by
  have tree : ((config.transpile around input).run w).2.store.TreeAt w.store.cwd :=
    (config.transpile_grows around input w ⟨rfl⟩).1
  obtain ⟨noDirectory, released, short, apart, outside⟩ := clear
  rw [tree.here] at released apart outside
  rw [Workspace.ofStore_congr tree.here] at outside
  rw [Store.cwdPath, tree.here, ← Store.cwdPath] at short
  cases ends with
  | untranslated failed =>
      rw [failed] at tree noDirectory released
      rw [other]
      exact FileAction.error_of_removeIfExists tree (refl_of _ _) noDirectory released rfl rfl
        fun _ _ _ found => found
  | stopped _ _ early => exact absurd early entered
  | failed enters produced =>
      rw [enters.translated] at tree noDirectory released
      obtain ⟨p, lies⟩ := enters.exists_liesIn
      obtain ⟨-, treeMade, rfl⟩ := enters.treeAt
      rename_i read v code s events
      obtain ⟨leftover, discarded⟩ := (Workspace.ofStore config w.store input output).run_discard v
      rw [discarded]
      have changes : Changes w.store.cwd (config.Makes w.store.cwd) (fun _ => False) read.store s :=
        config.ensureDirectories_changes.of_run enters.made
      have making : Store.Spares w.store.cwd (Path.place w.store.cwd output) read.store s :=
        changes.spares apart id
      refine FileAction.error_of_removeIfExists tree ?_ noDirectory released rfl
        (Workspace.place_output w.store config input output) ?_
      · intro treeRead free
        obtain ⟨-, rule, free'⟩ := making treeRead free
        exact trans_of _ making (trans_of _ (lies.produce_spares outside treeMade compiler free' produced)
          (Workspace.discard_spares outside v)) treeRead free
      · intro treeAfter contents executable found
        have again := treeAfter.find_absolute found
        rw [Store.cwdPath, treeAfter.here, ← Store.cwdPath] at again
        exact again short

end BuildConfig

/-- Nothing is left at the output of a build that failed, if there was a source and the output can be removed
once the sources have been read. A build that stops before it comes to its workspace is the exception; whatever
was at the output then stays. -/
theorem failed_build_leaves_no_output {config : BuildConfig} {around : Surroundings}
    {input output : String} {w w' : World} {fault : Fault}
    (compiler : around.toolchain.Confined config.compiler w.store.cwd)
    (failed : (config.build around input output).run w = (.error fault, w'))
    (other : fault.missingSource? = none) :
    (¬ config.StopsEarly around input output w →
      config.CanClear input output ((config.transpile around input).run w).2.store →
        ∃ reason, w'.store.find output = .error reason) ∧
    (config.StopsEarly around input output w →
      ∀ entry, ((config.transpile around input).run w).2.store.find output = .ok entry →
        w'.store.find output = .ok entry) := by
  have ends := BuildConfig.build_ends failed
  refine ⟨ends.clears compiler other, ?_⟩
  rintro ⟨⟨code, read, translated⟩, early⟩ entry found
  have tree : read.store.TreeAt w.store.cwd :=
    ((config.transpile_grows around input).of_run translated ⟨rfl⟩).1
  rw [translated] at found
  generalize w'.store = after at ends ⊢
  cases ends with
  | untranslated failed => cases translated.symm.trans failed
  | stopped translated' ran =>
      cases translated.symm.trans translated'
      exact (config.ensureDirectories_grows.of_run ran).find tree found
  | failed enters => exact absurd enters (early _ _ _ _)

/-- A program that can be translated, next to an old output. -/
def builtBefore : Store where
  entries := [(["a.dawn"], .file (Utf8.encode "int x = 1") false), (["out"], .file [] true)]

/-- Without a compiler the old output goes, too. -/
theorem failed_build_leaves_no_output_uncompiled :
    ∃ fault w', (homeConfig.build bareSurroundings "a.dawn" "out").run ⟨builtBefore, []⟩ =
      (.error fault, w') ∧ ∃ reason, w'.store.find "out" = .error reason := by
  have ends : ((homeConfig.build bareSurroundings "a.dawn" "out").run
      ⟨builtBefore, []⟩).1.mapError Fault.missingSource? = .error none := by decide +kernel
  have clear : homeConfig.CanClear "a.dawn" "out"
      ((homeConfig.transpile bareSurroundings "a.dawn").run ⟨builtBefore, []⟩).2.store := by
    refine ⟨?_, ?_, ?_, ?_, ?_⟩
    · decide +kernel
    · decide +kernel
    · decide +kernel
    · unfold BuildConfig.Makes
      decide +kernel
    · decide +kernel
  have made : (homeConfig.ensureDirectories.run ((homeConfig.transpile bareSurroundings "a.dawn").run
      ⟨builtBefore, []⟩).2.store).1 = .ok () := by decide +kernel
  have here : (homeConfig.ensureDirectories.run ((homeConfig.transpile bareSurroundings "a.dawn").run
      ⟨builtBefore, []⟩).2.store).2.hasWorkingDirectory = true := by decide +kernel
  have entered : ¬ homeConfig.StopsEarly bareSurroundings "a.dawn" "out" ⟨builtBefore, []⟩ := by
    rintro ⟨⟨code, read, translated⟩, early⟩
    rw [translated] at made here
    rcases ran : homeConfig.ensureDirectories.run read.store with ⟨fault | done, s⟩
    · rw [ran] at made
      cases made
    · rw [ran] at here
      exact early read code _ s ⟨translated, ran, Workspace.ofPaths_of_here here _ _ _⟩
  rcases failed : (homeConfig.build bareSurroundings "a.dawn" "out").run ⟨builtBefore, []⟩ with
    ⟨fault | done, w'⟩
  · rw [failed] at ends
    have other : fault.missingSource? = none := by
      injection ends
    exact ⟨fault, w', rfl, (failed_build_leaves_no_output (confined_bareSurroundings []) failed other).1 entered clear⟩
  · rw [failed] at ends
    cases ends

/-- The same, with a file where the directories for builds should be. -/
def withoutHome : Store := builtBefore.insert ["home"] (.file [] false)

/-- The same, from a working directory that is gone. -/
def withoutHere : Store := { builtBefore with cwd := ["gone"], usable := by decide +kernel }

/-- A failed build can leave an old output: it stops if a directory for builds cannot be made, and if the output
is named from a working directory that is gone. -/
theorem old_output_outlives_failed_build :
    (((homeConfig.build bareSurroundings "a.dawn" "out").run ⟨withoutHome, []⟩).1.mapError
        Fault.missingSource? = .error none ∧
      withoutHome.isDirectory "out" = false ∧
      ((homeConfig.build bareSurroundings "a.dawn" "out").run ⟨withoutHome, []⟩).2.store.isFile "out" =
        true) ∧
    ((homeConfig.build bareSurroundings "/a.dawn" "../out").run ⟨withoutHere, []⟩).1.mapError
      Fault.missingSource? = .error none ∧
    withoutHere.isDirectory "../out" = false ∧
    ((homeConfig.build bareSurroundings "/a.dawn" "../out").run ⟨withoutHere, []⟩).2.store.isFile "../out" =
      true := by
  refine ⟨⟨?_, ?_, ?_⟩, ?_, ?_, ?_⟩
  all_goals decide +kernel

end DawnC
