import DawnC.Proofs.Build.Confinement

set_option autoImplicit false

namespace DawnC

open Attempt (Sustains run_bind_eq_ok)
open Store (Changes)

/-- A file that is there afterwards and was not touched was there before. -/
theorem Store.Changes.file_before {cwd : Location} {makes touches : Location → Prop} {s t : Store}
    (changes : Changes cwd makes touches s t) (tree : s.TreeAt cwd) {place : Location} {contents : Bytes}
    {executable : Bool} (found : t.get? place = some (.file contents executable))
    (untouched : ¬ touches place) : s.get? place = some (.file contents executable) := by
  obtain ⟨-, same | ⟨-, -, made⟩⟩ := (changes tree).2 place untouched
  · rw [← same, found]
  · rw [found] at made
    cases made

namespace FileAction

variable {s t : Store} {cwd : Location}

theorem remove_ok (tree : s.TreeAt cwd) {path : String} (removed : (remove path).run s = (.ok (), t)) :
    s.get? (Path.place cwd path) ≠ none ∧ t.get? (Path.place cwd path) = none := by
  rcases remove_cases s path with ⟨fault, failed⟩ | ⟨_, ⟨parent, name, slash, leads, rfl, -, there⟩, ran⟩
  · rw [failed] at removed
    cases removed
  · rw [ran] at removed
    cases removed
    rw [← tree.here, Store.target_named leads, Store.get?_erase (by simp), if_pos List.prefix_rfl]
    refine ⟨?_, rfl⟩
    rcases there with ⟨-, contents, executable, file⟩ | ⟨directory, -⟩
    · simp [file]
    · simp [directory]

/-- Nothing is left where a file was moved from. -/
theorem absent_of_moveFile (tree : s.TreeAt cwd) {source destination : String}
    (apart : Path.place cwd source ≠ Path.place cwd destination)
    (moved : (moveFile source destination).run s = (.ok (), t)) :
    t.get? (Path.place cwd source) = none := by
  rcases moveFile_cases moved with
    ⟨parent, name, slash, parent', name', contents, executable, leads, leads', -, renamed⟩ |
    ⟨contents, parent, name, mode, -, leads, noDirectory, removed⟩
  · have origin := Store.target_named leads
    have goal := Store.target_named leads'
    rw [tree.here] at origin goal
    rw [origin, goal] at apart
    rw [origin, renamed, if_neg apart, if_pos rfl]
  · exact (remove_ok tree.insert removed).2

end FileAction

namespace Workspace

variable {w : Workspace} {config : BuildConfig} {v v' prepared exited : World} {cwd place : Location}
  {code : String} {contents : Bytes} {executable : Bool}

/-- Of the files that the compiler finds, only the source is new. -/
theorem file_before_prepare (tree : v.store.TreeAt cwd)
    (prepares : (w.prepare code).run v = (.ok (), prepared))
    (found : prepared.store.get? place = some (.file contents executable))
    (apart : place ≠ Path.place cwd w.sourcePath) :
    v.store.get? place = some (.file contents executable) := by
  obtain ⟨made, written, ensured, wrote, removed⟩ := prepare_ok prepares
  have making : Sustains (Changes cwd (fun _ => True) (fun _ => False))
      (FileAction.makeDirectories w.dir) := FileAction.makeDirectories_changes fun _ => trivial
  have writing : Sustains (Changes cwd (fun _ => False) (· = Path.place cwd w.sourcePath))
      (FileAction.writeFileAs false w.sourcePath (Utf8.encode code)) :=
    FileAction.writeFileAs_changes (by rfl) false _
  have inWritten := ((FileAction.removeIfExists_shrinks w.output).of_run removed).before found
  have inMade := (writing.of_run wrote).file_before (making.of_run ensured tree).1 inWritten apart
  exact (making.of_run ensured).file_before tree inMade id

/-- The compiler finds no file at the output, if the output can be looked up at all. -/
theorem not_file_of_prepare (tree : v.store.TreeAt cwd)
    (prepares : (w.prepare code).run v = (.ok (), prepared)) {n : Path.Normal}
    (output : w.output = n.text) (rooted : n.rooted = true) (usable : n.IsUsable) :
    prepared.store.get? (Path.place cwd w.output) ≠ some (.file contents executable) := by
  intro there
  obtain ⟨made, written, ensured, wrote, removed⟩ := prepare_ok prepares
  have treePrepared : prepared.store.TreeAt cwd := ((prepare_treeAt code).of_run prepares tree).1
  rw [output, Path.Normal.place_text] at there
  have found : prepared.store.find w.output = .ok (.file contents executable) := by
    rw [output]
    refine treePrepared.find_text.mpr ⟨usable, treePrepared.sees_of_get? there ?_⟩
    intro level
    rw [Path.Normal.place, level, Store.base_of_rooted rooted, List.append_nil, Store.get?_root] at there
    cases there
  exact (FileAction.stays_of_removeIfExists removed found).1 rfl

/-- If the delivery succeeds, a file that the compiler found in the artifact's place was there before the
workspace was prepared. The source was not, but a build whose artifact is the source does not succeed. -/
theorem artifact_before_prepare (tree : v.store.TreeAt cwd)
    (prepares : (w.prepare code).run v = (.ok (), prepared)) (treeExited : exited.store.TreeAt cwd)
    {n : Path.Normal} (output : w.output = n.text) (rooted : n.rooted = true)
    (delivers : (w.deliver config).run exited = (.ok (), v'))
    (found : prepared.store.get? (Path.place cwd w.artifactPath) = some (.file contents executable)) :
    v.store.get? (Path.place cwd w.artifactPath) = some (.file contents executable) := by
  by_cases source : Path.place cwd w.artifactPath = Path.place cwd w.sourcePath
  · exfalso
    obtain ⟨_, _, moved, _, -, move, sourced, -⟩ := deliver_steps delivers
    by_cases same : Path.place cwd w.artifactPath = Path.place cwd w.output
    · -- the source was written to the output, which was removed before the compiler ran
      obtain ⟨target, leads⟩ := FileAction.target_of_moveFile move
      rw [output] at leads
      rw [same] at found
      exact not_file_of_prepare tree prepares output rooted (Store.usable_of_target leads) found
    · -- the source was moved away, and is missed when it is to be removed
      have moving : Sustains (Changes cwd (fun _ => False) (fun _ => True))
          (FileAction.moveFile w.artifactPath w.output) := FileAction.moveFile_changes trivial trivial
      have gone := FileAction.absent_of_moveFile treeExited same move
      obtain ⟨entry, -, removed⟩ := removeSource_ok sourced
      rw [source] at gone
      exact (FileAction.remove_ok (moving.of_run move treeExited).1 removed).1 gone
  · exact file_before_prepare tree prepares found source

end Workspace

/-- Where a file comes from that is in this place once the compiler has run. `read` are the files after
the program was read, `prepared` those that the compiler was started with. -/
inductive Origin (place : Location) (read prepared : Store) (contents : Bytes) (executable : Bool) :
    Prop where
  /-- no file was there -/
  | created (fresh : ∀ old mode, prepared.get? place ≠ some (.file old mode))
  /-- another file was there -/
  | rewritten {old : Bytes} {mode : Bool} (before : read.get? place = some (.file old mode))
      (there : prepared.get? place = some (.file old mode)) (other : (old, mode) ≠ (contents, executable))
  /-- this file was there already, and the compiler did not change it -/
  | leftOver (before : read.get? place = some (.file contents executable))
      (there : prepared.get? place = some (.file contents executable))

theorem Origin.of_before {place : Location} {read prepared : Store} (contents : Bytes) (executable : Bool)
    (before : ∀ old mode, prepared.get? place = some (.file old mode) →
      read.get? place = some (.file old mode)) :
    Origin place read prepared contents executable := by
  by_cases fresh : ∀ old mode, prepared.get? place ≠ some (.file old mode)
  · exact .created fresh
  · push Not at fresh
    obtain ⟨old, mode, there⟩ := fresh
    by_cases same : (old, mode) = (contents, executable)
    · cases same
      exact .leftOver (before _ _ there) there
    · exact .rewritten (before _ _ there) there same

/-- A build that succeeds has run its compiler without a failure and has moved the file that was then in
the artifact's place to the output. The compiler created that file or rewrote it, or else left it as it
was: a file that was in the artifact's place before the build came to its workspace stays there. -/
theorem BuildConfig.delivered_file_origin {config : BuildConfig} {around : Surroundings}
    {input output : String} {w w' : World}
    (built : (config.build around input output).run w = (.ok (), w')) :
    ∃ ws read prepared exited moved contents executable,
      config.RunsCompiler around input output w ws read prepared exited ∧
      exited.find ws.artifactPath = .ok (.file contents executable) ∧
      (FileAction.moveFile ws.artifactPath ws.output).run exited = (.ok (), moved) ∧
      (Path.place w.store.cwd ws.artifactPath ≠ Path.place w.store.cwd ws.output →
        ∃ mode, moved.get? (Path.place w.store.cwd ws.output) = some (.file contents mode)) ∧
      Origin (Path.place w.store.cwd ws.artifactPath) read prepared contents executable := by
  obtain ⟨ws, read, prepared, exited, v, runs, delivers, -⟩ := (build_ends built).delivers
  obtain ⟨contents, executable, moved, -, found, move, -, -⟩ := Workspace.deliver_steps delivers
  obtain ⟨-, treeExited⟩ := runs.treeAt
  obtain ⟨code, _, s, _, _, _, _, enters, prepares, -⟩ := id runs
  obtain ⟨treeRead, treeMade, within⟩ := enters.treeAt
  obtain ⟨names, valid, absolute⟩ := Path.absolute_eq_names w.store.isAbsolute_cwdPath output
  have making : Sustains (Changes w.store.cwd (config.Makes w.store.cwd) (fun _ => False))
      config.ensureDirectories := config.ensureDirectories_changes
  refine ⟨ws, read, prepared, exited.store, moved.store, contents, executable, runs, found, move, ?_, ?_⟩
  · intro apart
    exact FileAction.moveFile_ok treeExited found apart move
  · apply Origin.of_before
    intro old mode there
    have before := Workspace.artifact_before_prepare treeMade prepares treeExited
      ((congrArg Workspace.output within).trans absolute) rfl delivers there
    exact (making.of_run enters.made).file_before treeRead before id

/-- What an interrupted build of `a.dawn` into `out` can leave: an artifact of one byte is in the
workspace. -/
def interrupted : Store where
  entries := [(["a.dawn"], .file (Utf8.encode "int x = 1") false), (["home"], .directory),
    (["home", "build"], .directory), (["home", "build", "bc40e136c122"], .directory),
    (["home", "build", "bc40e136c122", "a.out"], .file [7] true)]

/-- The build after it succeeds, with a compiler that writes the artifact anew. -/
theorem delivered_file_origin_interrupted :
    ∃ w' ws read prepared exited contents executable,
      (homeConfig.build oneByteSurroundings "a.dawn" "out").run ⟨interrupted, []⟩ = (.ok (), w') ∧
      homeConfig.RunsCompiler oneByteSurroundings "a.dawn" "out" ⟨interrupted, []⟩ ws read prepared
        exited ∧
      exited.find ws.artifactPath = .ok (.file contents executable) ∧
      Origin (Path.place [] ws.artifactPath) read prepared contents executable := by
  have succeeds : ((homeConfig.build oneByteSurroundings "a.dawn" "out").run
      ⟨interrupted, []⟩).1.mapError Fault.missingSource? = .ok () := by decide +kernel
  rcases ran : (homeConfig.build oneByteSurroundings "a.dawn" "out").run ⟨interrupted, []⟩ with
    ⟨fault | done, w'⟩
  · rw [ran] at succeeds
    cases succeeds
  · obtain ⟨ws, read, prepared, exited, -, contents, executable, runs, found, -, -, origin⟩ :=
      BuildConfig.delivered_file_origin ran
    exact ⟨w', ws, read, prepared, exited, contents, executable, rfl, runs, found, origin⟩

def idleSurroundings : Surroundings where
  remotes := { clone := fun url => .error (.plain url) }
  toolchain := {
    commands := [("gcc", fun _ _ s => ({}, s))]
    interpret := fun _ _ _ => Toolchain.refused .killed }

/-- An artifact outside the workspace, which no build cleans up. -/
def outsideConfig : BuildConfig := { homeConfig with artifact := "../a.out" }

def leftOutside : Store where
  entries := [(["a.dawn"], .file (Utf8.encode "int x = 1") false), (["home"], .directory),
    (["home", "build"], .directory), (["home", "build", "a.out"], .file (Utf8.encode "old") false)]

/-- With a compiler that changes no file a build succeeds all the same, if an artifact is there from
before, and delivers that. -/
theorem left_over_artifact_is_delivered :
    (∀ arguments dir s,
      ((idleSurroundings.toolchain.start homeConfig.compiler arguments dir).run s).2 = s) ∧
    (∃ w', (homeConfig.build idleSurroundings "a.dawn" "out").run ⟨interrupted, []⟩ = (.ok (), w') ∧
      w'.store.get? ["out"] = some (.file [7] true)) ∧
    ∃ w', (outsideConfig.build idleSurroundings "a.dawn" "out").run ⟨leftOutside, []⟩ = (.ok (), w') ∧
      w'.store.get? ["out"] = some (.file (Utf8.encode "old") false) := by
  have delivers {config : BuildConfig} {s : Store} {entry : Entry}
      (ends : ((config.build idleSurroundings "a.dawn" "out").run ⟨s, []⟩).map
        (Except.mapError Fault.missingSource?) (·.store.get? ["out"]) = (.ok (), some entry)) :
      ∃ w', (config.build idleSurroundings "a.dawn" "out").run ⟨s, []⟩ = (.ok (), w') ∧
        w'.store.get? ["out"] = some entry := by
    rcases ran : (config.build idleSurroundings "a.dawn" "out").run ⟨s, []⟩ with ⟨fault | done, w'⟩
    · rw [ran] at ends
      cases ends
    · rw [ran] at ends
      exact ⟨w', rfl, (Prod.mk.inj ends).2⟩
  refine ⟨?_, delivers (by decide +kernel), delivers (by decide +kernel)⟩
  intro arguments dir s
  have named : homeConfig.compiler ≠ "" ∧ homeConfig.compiler ≠ "/" ∧
      ¬ homeConfig.compiler.toList.contains '/' = true := by decide
  rcases Toolchain.start_of_program (t := idleSurroundings.toolchain) named rfl arguments dir s with
    runs | refuses
  · exact congrArg Prod.snd runs
  · exact congrArg Prod.snd refuses

end DawnC
