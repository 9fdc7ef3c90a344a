import DawnC.Proofs.Build.Delivery
import DawnC.Proofs.Build.Faults
import DawnC.Proofs.Include.Cached

set_option autoImplicit false

namespace DawnC

open Attempt (Sustains)
open Store (Changes)

/-- Directories that are there cannot be made. -/
theorem Store.Changes.none_made {cwd : Location} {touches : Location → Prop} {s t : Store}
    (changes : Changes cwd (s.get? · = some .directory) touches s t) :
    Changes cwd (fun _ => False) touches s t := by
  intro tree
  obtain ⟨tree', outside⟩ := changes tree
  refine ⟨tree', ?_⟩
  intro place untouched
  obtain ⟨rule, same | ⟨there, free, -⟩⟩ := outside place untouched
  · exact ⟨rule, Or.inl same⟩
  · rw [free.1] at there
    cases there

namespace Workspace

variable {w : Workspace} {config : BuildConfig} {toolchain : Toolchain} {cwd : Location}
  {p : Path.Normal} {s : Store}

/-- The places that a build changes: the output, and the workspace with all that is in it. -/
def Touches (w : Workspace) (cwd place : Location) : Prop :=
  place = Path.place cwd w.output ∨ Path.place cwd w.dir <+: place

def Gone (w : Workspace) (cwd : Location) (s : Store) : Prop :=
  ∀ place, Path.place cwd w.dir <+: place → s.get? place = none

theorem gone_of_absent (absent : s.get? (Path.place cwd w.dir) = none) : w.Gone cwd s := by
  intro place below
  by_cases same : Path.place cwd w.dir = place
  · rw [← same]
    exact absent
  · exact Store.none_below (by simp [absent]) below same

theorem dir_isPrefix_artifactPath (artifact : Path.IsName config.artifact) (s : Store)
    (input output : String) (cwd : Location) :
    Path.place cwd (ofStore config s input output).dir <+:
      Path.place cwd (ofStore config s input output).artifactPath := by
  have place := Path.place_join_name artifact cwd (ofStore config s input output).dir
  rw [ofStore, ofAbsolute] at place ⊢
  rw [place]
  exact List.prefix_append _ _

/-- The workspace can be made without any directory above it. -/
theorem LiesIn.ensure_changes (lies : w.LiesIn p s) (tree : s.TreeAt cwd) {touches : Location → Prop}
    (inside : ∀ place, Path.place cwd w.dir <+: place → touches place) :
    Sustains (Changes cwd (s.get? · = some .directory) touches) (FileAction.makeDirectories w.dir) := by
  rw [lies.dir]
  apply FileAction.makeDirectories_names_changes
  intro list down upto
  rcases List.prefix_concat_iff.mp upto with whole | shorter
  · refine Or.inr (inside _ ?_)
    rw [whole, lies.dir, Path.Normal.place_text]
    exact List.prefix_rfl
  · -- the directories on the way are there
    have level : p.names ≠ [] := fun flat => down (List.prefix_nil.mp (flat ▸ shorter))
    have there := lies.there
    rw [tree.sees_down level, Path.Normal.place] at there
    obtain ⟨more, split⟩ := shorter
    rw [← split, ← List.append_assoc] at there
    by_cases last : more = []
    · rw [last, List.append_nil] at there
      exact Or.inl there
    · exact Or.inl (Store.directory_above there last)

theorem LiesIn.inside (lies : w.LiesIn p s) (cwd : Location) :
    Path.place cwd w.dir <+: Path.place cwd w.sourcePath := by
  rw [lies.place_source]
  exact List.prefix_append _ _

section Confined

variable (artifact : Path.place cwd w.dir <+: Path.place cwd w.artifactPath)

include artifact

theorem touches_of_owns (place : Location) (owned : w.Owns cwd place) : w.Touches cwd place := by
  rcases owned with output | rfl | below
  · exact Or.inl output
  · exact Or.inr artifact
  · exact Or.inr below

/-- The build proper changes nothing outside, where the directory for its workspace is there. -/
theorem LiesIn.produce_confined (lies : w.LiesIn p s) (tree : s.TreeAt cwd)
    (compiler : toolchain.Confined config.compiler cwd) {code : String} {events : List Event}
    {result : Except Fault Unit} {v : World}
    (ran : (w.produce config toolchain code).run ⟨s, events⟩ = (result, v)) :
    Changes cwd (fun _ => False) (w.Touches cwd) s v.store := by
  have changes := produce_changes (touches_of_owns artifact) (lies.inside cwd)
    (lies.ensure_changes tree fun _ below => Or.inr below)
    (fun arguments => compiler.changes arguments fun _ below => Or.inr below) code
  exact Changes.none_made (changes.of_run ran)

end Confined

end Workspace

namespace BuildConfig

variable {config : BuildConfig} {around : Surroundings} {input output : String} {cwd : Location}
  {w w' : World} {touches : Location → Prop}

/-- The places of the directories that a build makes: those it is configured with, and all that the texts of
their paths lead through. -/
def Makes (config : BuildConfig) (cwd place : Location) : Prop :=
  ∃ dir ∈ [config.home, config.buildDir, config.cacheDir], ∃ above ∈ Path.lineage dir ++ [dir],
    place = Path.place cwd above

theorem ensureDirectories_changes (config : BuildConfig) :
    Sustains (Changes cwd (config.Makes cwd) touches) config.ensureDirectories := by
  have made (dir : String) (member : dir ∈ [config.home, config.buildDir, config.cacheDir]) :
      Sustains (Changes cwd (config.Makes cwd) touches) (FileAction.makeDirectories dir) := by
    apply FileAction.makeDirectories_sustains
    intro above listed
    exact FileAction.ensureDirectory_changes (Or.inl ⟨dir, member, above, listed, rfl⟩)
  exact .bind (made _ (by simp)) fun _ => .bind (made _ (by simp)) fun _ => made _ (by simp)

theorem Enters.exists_liesIn {read : World} {code : String} {ws : Workspace} {s : Store}
    (enters : config.Enters around input output w read code ws s) : ∃ p, ws.LiesIn p s := by
  obtain ⟨-, -, rfl⟩ := enters.treeAt
  exact BuildConfig.exists_liesIn enters.made _ _

namespace Ends

variable {result : Except Fault Unit} {fault : Fault} {after : Store} {ws : Workspace}

section Confined

variable (compiler : around.toolchain.Confined config.compiler w.store.cwd)
  (artifact : Path.IsName config.artifact)

include compiler artifact

/-- However a build ends, it changed the output and its workspace, and made its directories. -/
theorem confined (ends : Ends config around input output w result after) :
    Changes w.store.cwd (config.Makes w.store.cwd)
      ((Workspace.ofStore config w.store input output).Touches w.store.cwd)
      ((config.transpile around input).run w).2.store after := by
  have artifact := Workspace.dir_isPrefix_artifactPath artifact w.store input output w.store.cwd
  apply ends.sustains _ config.ensureDirectories_changes
  · intro read code ws s events result v enters produced
    obtain ⟨p, lies⟩ := enters.exists_liesIn
    obtain ⟨-, tree, rfl⟩ := enters.treeAt
    exact (lies.produce_confined artifact tree compiler produced).mono (fun _ never => never.elim)
      fun _ touched => touched
  · exact Workspace.discard_changes (Workspace.touches_of_owns artifact)
      (Workspace.dir_isPrefix_sourcePath config w.store input output w.store.cwd)
  · exact FileAction.removeIfExists_changes
      (Or.inl (Workspace.place_output w.store config input output).symm)

/-- What is left of the workspace of a build that fails in it is stuck, or leads to what is. -/
theorem discarded (ends : Ends config around input output w (.error fault) after) {read : World}
    {code : String} {s : Store} (enters : config.Enters around input output w read code ws s)
    (outside : ¬ Path.place w.store.cwd ws.dir <+: Path.place w.store.cwd output) (place : Location)
    (below : Path.place w.store.cwd ws.dir <+: place) :
    after.get? place = none ∨ after.Stays (Path.place w.store.cwd ws.dir) place := by
  cases ends with
  | untranslated failed =>
      rw [enters.translated] at failed
      cases failed
  | stopped _ _ early => exact absurd enters (early.2 _ _ _ _)
  | failed enters' produced =>
      obtain ⟨p, lies⟩ := enters'.exists_liesIn
      obtain ⟨-, -, rfl⟩ := enters.treeAt
      obtain ⟨-, tree, rfl⟩ := enters'.treeAt
      have artifact := Workspace.dir_isPrefix_artifactPath artifact w.store input output w.store.cwd
      rw [← Workspace.place_output w.store config input output] at outside
      exact lies.discard_leaves (lies.produce_confined artifact tree compiler produced tree).1 outside place
        below

end Confined

/-- A build that succeeds has put what the compiler left as the artifact at the output, and has removed
its workspace. -/
theorem delivered (ends : Ends config around input output w (.ok ()) after)
    (artifact : Path.IsName config.artifact)
    (within : ws = Workspace.ofStore config w.store input output)
    (outside : ¬ Path.place w.store.cwd ws.dir <+: Path.place w.store.cwd output) :
    ∃ read prepared exited contents executable mode,
      config.RunsCompiler around input output w ws read prepared exited ∧
      exited.find ws.artifactPath = .ok (.file contents executable) ∧
      after.find ws.output = .ok (.file contents mode) ∧ ws.Gone w.store.cwd after := by
  obtain ⟨ws', read, prepared, exited, v, runs, delivers, rfl⟩ := ends.delivers
  obtain ⟨-, tree⟩ := runs.treeAt
  obtain ⟨code, _, s, _, _, _, _, enters, -⟩ := id runs
  obtain ⟨p, lies⟩ := enters.exists_liesIn
  obtain ⟨-, -, same⟩ := enters.treeAt
  obtain rfl : ws' = ws := same.trans within.symm
  subst within
  obtain ⟨names, valid, absolute⟩ := Path.absolute_eq_names w.store.isAbsolute_cwdPath output
  rw [← Workspace.place_output w.store config input output] at outside
  obtain ⟨contents, executable, mode, found, there, absent⟩ := lies.deliver_ok tree absolute rfl outside
    (Workspace.dir_isPrefix_artifactPath artifact w.store input output w.store.cwd) delivers
  exact ⟨read, prepared, exited.store, contents, executable, mode, runs, found, there,
    Workspace.gone_of_absent absent⟩

end Ends

end BuildConfig

/-- A compiler that leaves one byte as the artifact, whatever it is given. -/
def oneByteSurroundings : Surroundings where
  remotes := { clone := fun url => .error (.plain url) }
  toolchain := {
    commands := [("gcc", fun _ dir s =>
      ({}, ((FileAction.writeFileAs true (Path.join [dir, "a.out"]) [1]).run s).2))]
    interpret := fun _ _ _ => Toolchain.refused .killed }

namespace Toolchain

variable {t : Toolchain} {command : String} {program : Program}
  (named : command ≠ "" ∧ command ≠ "/" ∧ ¬ command.toList.contains '/' = true)
  (found : t.commands.lookup command = some program)

include named found

theorem start_of_program (arguments : List String) (dir : String) (s : Store) :
    (t.start command arguments dir).run s = (program arguments dir).run s ∨
      (t.start command arguments dir).run s = (refused .noWorkingDirectory).run s := by
  have ran : (runIn dir (program arguments dir)).run s =
      (if Path.isAbsolute dir || s.hasWorkingDirectory then program arguments dir
        else refused .noWorkingDirectory).run s := rfl
  rw [start, if_neg named.1, if_neg named.2.1, if_neg named.2.2, found]
  dsimp only
  rw [ran]
  split
  · exact Or.inl rfl
  · exact Or.inr rfl

theorem confined_of_program {cwd : Location}
    (confined : ∀ arguments dir s, s.cwd = cwd → ∀ place, ¬ Path.place cwd dir <+: place →
      ((program arguments dir).run s).2.rule place = s.rule place ∧
        ((program arguments dir).run s).2.get? place = s.get? place) : t.Confined command cwd := by
  intro arguments dir s here place outside
  rcases start_of_program named found arguments dir s with runs | refuses
  · rw [runs]
    exact confined arguments dir s here place outside
  · rw [refuses]
    exact ⟨rfl, rfl⟩

end Toolchain

theorem FileAction.writeFileAs_named {name : String} (valid : Path.IsName name) (mode : Bool)
    (contents : Bytes) {dir : String} {s : Store} {place : Location}
    (outside : ¬ Path.place s.cwd dir <+: place) :
    ((writeFileAs mode (Path.join [dir, name]) contents).run s).2.rule place = s.rule place ∧
      ((writeFileAs mode (Path.join [dir, name]) contents).run s).2.get? place = s.get? place := by
  have changes : Sustains (Changes s.cwd (fun _ => False) (Path.place s.cwd dir <+: ·))
      (writeFileAs mode (Path.join [dir, name]) contents) := by
    apply writeFileAs_changes
    rw [Path.place_join_name valid]
    exact List.prefix_append _ _
  obtain ⟨rule, same | ⟨never, -⟩⟩ := (changes s ⟨rfl⟩).2 place outside
  · exact ⟨rule, same⟩
  · exact never.elim

/-- A program with a remote file, which is in the cache. -/
def fetchedBefore : Store where
  entries := [(["a.dawn"], .file (Utf8.encode "include \"h.com/o/r/b.dawn@v1\"") false),
    (["home"], .directory), (["home", "pkg"], .directory), (["home", "pkg", "h.com"], .directory),
    (["home", "pkg", "h.com", "o"], .directory), (["home", "pkg", "h.com", "o", "r@v1"], .directory),
    (["home", "pkg", "h.com", "o", "r@v1", "b.dawn"], .file (Utf8.encode "int x = 1") false)]

/-- A compiler that fails, and leaves in its directory what the user cannot remove. -/
def stickySurroundings : Surroundings where
  remotes := { clone := fun url => .error (.plain url) }
  toolchain := {
    commands := [("gcc", fun _ dir s =>
      let written := ((FileAction.writeFileAs false (Path.join [dir, "core"]) []).run s).2
      ({ failure := some .killed },
        { written with rules := (Path.place s.cwd (Path.join [dir, "core"]), { kept := true }) :: s.rules }))]
    interpret := fun _ _ _ => Toolchain.refused .killed }

def oneFile : Store where
  entries := [(["a.dawn"], .file (Utf8.encode "int x = 1") false)]

/-- The path of the home leads through a directory that it does not lie in. -/
def roundaboutConfig : BuildConfig := { homeConfig with home := "x/../home" }

end DawnC
