import DawnC.Proofs.Build.Workspace
import DawnC.Proofs.Remote.Agreement

set_option autoImplicit false

namespace DawnC

open Attempt (Sustains run_bind_ok run_bind_error run_bind_eq_ok run_tryCatch_ok run_tryCatch_error)
open Store (Changes)

theorem Action.of_run_inPhase {α : Type} {phase : Phase} {action : Action α} {a : α} {w w' : World}
    (ran : (inPhase phase action).run w = (.ok a, w')) : action.run w = (.ok a, w') := by
  rcases first : action.run w with ⟨fault | b, u⟩
  · rw [inPhase, run_tryCatch_error first] at ran
    cases ran
  · rw [inPhase, run_tryCatch_ok first] at ran
    exact ran

theorem Store.exists_of_isFile {s : Store} {path : String} (isFile : s.isFile path = true) :
    ∃ contents executable, s.find path = .ok (.file contents executable) := by
  rw [Store.isFile] at isFile
  split at isFile
  · rename_i contents executable found
    exact ⟨contents, executable, found⟩
  · cases isFile

namespace FileAction

variable {s t : Store} {source destination : String}

/-- A file that is still found by the path it was to be removed by cannot be removed. -/
theorem stays_of_removeIfExists {path : String} {contents : Bytes} {executable : Bool}
    {result : Except FileFault Unit} (ran : (removeIfExists path).run s = (result, t))
    (found : t.find path = .ok (.file contents executable)) :
    result ≠ .ok () ∧ (s.rule (Path.place s.cwd path)).stays = true := by
  have erased {parent : Location} {name : String} {slash : Bool}
      (leads : s.target path = .ok (.named parent name slash)) (removed : t = s.erase (parent ++ [name])) :
      False := by
    have tree : t.TreeAt s.cwd := by
      rw [removed]
      exact Store.TreeAt.erase ⟨rfl⟩
    have there := tree.file_of_find found
    rw [Store.target_named leads, removed, Store.get?_erase (by simp), if_pos List.prefix_rfl] at there
    cases there
  rcases removeIfExists_cases s path with
    ⟨result', same⟩ | ⟨_, ⟨parent, name, slash, leads, rfl, -⟩, removed⟩
  · obtain rfl : s = t := congrArg Prod.snd (same.symm.trans ran)
    cases kept : (s.rule (Path.place s.cwd path)).stays with
    | false =>
        obtain ⟨parent, name, leads, removed⟩ := remove_of_file found kept
        rw [removeIfExists, run_tryCatch_ok removed] at ran
        exact (erased leads (congrArg Prod.snd ran).symm).elim
    | true =>
        obtain ⟨parent, name, leads, there⟩ := Store.target_of_find_file found
        rw [Store.target_named leads] at kept
        rw [removeIfExists, run_tryCatch_error (remove_of_kept leads there kept)] at ran
        refine ⟨?_, rfl⟩
        rintro rfl
        cases ran
  · exact (erased leads (congrArg Prod.snd (ran.symm.trans removed))).elim

/-- The two ways to move a file: it is renamed, or it is copied and then removed. -/
theorem moveFile_cases (moved : (moveFile source destination).run s = (.ok (), t)) :
    (∃ parent name slash parent' name' contents executable,
      s.target source = .ok (.named parent name slash) ∧
      s.target destination = .ok (.named parent' name' false) ∧
      s.get? (parent ++ [name]) = some (.file contents executable) ∧
      ∀ other, t.get? other = if other = parent' ++ [name'] then some (.file contents executable)
        else if other = parent ++ [name] then none else s.get? other) ∨
    ∃ contents parent name mode, s.readFile source = .ok contents ∧
      s.target destination = .ok (.named parent name false) ∧
      s.get? (parent ++ [name]) ≠ some .directory ∧
      (remove source).run (s.insert (parent ++ [name]) (.file contents mode)) = (.ok (), t) := by
  rcases rename_cases s source destination with ⟨fault, failed⟩ |
    ⟨parent, name, slash, parent', name', contents, executable, leads, leads', there, free, renamed⟩
  · right
    rw [moveFile, run_tryCatch_error failed] at moved
    obtain ⟨contents, _, read, rest⟩ := run_bind_eq_ok.mp moved
    rw [readFile, run_bind_ok (Attempt.run_get s)] at read
    cases found : s.readFile source with
    | error fault =>
        rw [found] at read
        cases read
    | ok bytes =>
        rw [found] at read
        cases read
        obtain ⟨_, s', written, removed⟩ := run_bind_eq_ok.mp rest
        rcases writeFileAs_cases s true destination contents with
          ⟨fault, failed⟩ | ⟨parent, name, mode, leads, noDirectory, -, -, ran⟩
        · rw [failed] at written
          cases written
        · rw [ran] at written
          cases written
          exact ⟨contents, parent, name, mode, rfl, leads, noDirectory, removed⟩
  · left
    rw [moveFile, run_tryCatch_ok renamed] at moved
    cases moved
    exact ⟨parent, name, slash, parent', name', contents, executable, leads, leads', there,
      get?_renamed leads' there free⟩

theorem target_of_moveFile (moved : (moveFile source destination).run s = (.ok (), t)) :
    ∃ target, s.target destination = .ok target := by
  rcases moveFile_cases moved with
    ⟨_, _, _, _, _, _, _, -, leads, -⟩ | ⟨_, _, _, _, -, leads, -⟩
  · exact ⟨_, leads⟩
  · exact ⟨_, leads⟩

/-- A file that was moved is at its new place, however it was moved. -/
theorem moveFile_ok {cwd : Location} (tree : s.TreeAt cwd) {contents : Bytes} {executable : Bool}
    (found : s.find source = .ok (.file contents executable))
    (apart : Path.place cwd source ≠ Path.place cwd destination)
    (moved : (moveFile source destination).run s = (.ok (), t)) :
    ∃ mode, t.get? (Path.place cwd destination) = some (.file contents mode) := by
  have there := tree.file_of_find found
  rcases moveFile_cases moved with
    ⟨parent, name, slash, parent', name', contents', executable', leads, leads', origin, renamed⟩ |
    ⟨contents', parent, name, mode, read, leads, noDirectory, removed⟩
  · rw [← tree.here, Store.target_named leads, origin] at there
    cases there
    refine ⟨executable, ?_⟩
    rw [← tree.here, Store.target_named leads', renamed, if_pos rfl]
  · obtain ⟨⟨executable', same⟩, -⟩ := tree.file_of_readFile read
    rw [there] at same
    cases same
    refine ⟨mode, ?_⟩
    have erased : Sustains (Changes cwd (fun _ => False) (· = Path.place cwd source)) (remove source) :=
      remove_changes rfl
    apply (erased.of_run removed).kept tree.insert _ fun same => apart same.symm
    rw [← tree.here, Store.target_named leads,
      Store.get?_insert (Store.fits_of_named leads (Or.inr noDirectory)), if_pos rfl]

end FileAction

namespace Workspace

variable {w : Workspace} {config : BuildConfig} {toolchain : Toolchain} {v v' : World} {cwd : Location}
  {p : Path.Normal} {s : Store}

/-- What is done before the compiler starts. -/
def prepare (w : Workspace) (code : String) : Action Unit := do
  Action.inPhase .writeC w.ensure
  Action.inPhase .writeC (Action.within ("writing " ++ w.sourcePath) (w.writeSource code))
  Action.inPhase .prepareOutput
    (Action.within "removing previous output" (Action.files (FileAction.removeIfExists w.output)))

/-- What is done once the compiler has ended. -/
def deliver (w : Workspace) (config : BuildConfig) : Action Unit := do
  Action.inPhase .compile (w.awaitArtifact config.artifact 1 config.firstDelay (config.attempts - 1))
  Action.inPhase .compile
    (Action.within "moving artifact" (Action.files (FileAction.moveFile w.artifactPath w.output)))
  Action.tell (.executableBuilt w.output)
  Action.inPhase .cleanup w.removeSource
  Action.inPhase .cleanup w.clean

theorem produce_eq (w : Workspace) (config : BuildConfig) (toolchain : Toolchain) (code : String) :
    w.produce config toolchain code = (do
      w.prepare code
      Action.inPhase .compile (w.compile config toolchain)
      w.deliver config) := by
  simp only [produce, prepare, deliver, bind_assoc]

theorem prepare_ok {code : String} (ran : (w.prepare code).run v = (.ok (), v')) :
    ∃ made written, (FileAction.makeDirectories w.dir).run v.store = (.ok (), made) ∧
      (FileAction.writeFile w.sourcePath (Utf8.encode code)).run made = (.ok (), written) ∧
      (FileAction.removeIfExists w.output).run written = (.ok (), v'.store) := by
  obtain ⟨_, u, ensured, rest⟩ := run_bind_eq_ok.mp ran
  obtain ⟨_, u', written, removed⟩ := run_bind_eq_ok.mp rest
  exact ⟨u.store, u'.store,
    Action.of_run_files (Action.of_run_within (Action.of_run_inPhase ensured)),
    Action.of_run_files (Action.of_run_within (Action.of_run_inPhase written)),
    Action.of_run_files (Action.of_run_within (Action.of_run_inPhase removed))⟩

theorem compile_ok (ran : (w.compile config toolchain).run v = (.ok (), v')) :
    ∃ run left, (toolchain.start config.compiler (intermediateName :: config.flags) w.dir).run v.store =
      (run, left) ∧ run.failure = none ∧ v'.store = v.store.afterProcess left := by
  obtain ⟨_, u, told, rest⟩ := run_bind_eq_ok.mp ran
  cases told
  rcases started : (toolchain.start config.compiler (intermediateName :: config.flags) w.dir).run
    v.store with ⟨run, left⟩
  have processed (events : List Event) : (Action.process (toolchain.start config.compiler
      (intermediateName :: config.flags) w.dir)).run { v with events } =
      (.ok run, ⟨v.store.afterProcess left, events⟩) := by
    have stored : Action.store.run { v with events } = (.ok v.store, { v with events }) := rfl
    rw [Action.process, run_bind_ok stored, started]
    rfl
  rw [run_bind_ok (processed _)] at rest
  cases ends : run.failure with
  | none =>
      rw [ends] at rest
      cases rest
      exact ⟨run, left, rfl, ends, rfl⟩
  | some failure =>
      rw [ends] at rest
      cases rest

theorem awaitArtifact_ok {artifact : String} {attempt delay left : Nat}
    (ran : (w.awaitArtifact artifact attempt delay left).run v = (.ok (), v')) :
    v'.store = v.store ∧ v.store.isFile w.artifactPath = true := by
  induction left generalizing attempt delay v with
  | zero =>
      obtain ⟨s, u, stored, rest⟩ := run_bind_eq_ok.mp ran
      cases stored
      split at rest
      · cases rest
        exact ⟨rfl, by assumption⟩
      · cases rest
  | succ left ih =>
      obtain ⟨s, u, stored, rest⟩ := run_bind_eq_ok.mp ran
      cases stored
      split at rest
      · cases rest
        exact ⟨rfl, by assumption⟩
      · obtain ⟨_, u, told, later⟩ := run_bind_eq_ok.mp rest
        cases told
        have looked := ih later
        exact looked

theorem removeSource_ok (ran : w.removeSource.run v = (.ok (), v')) :
    ∃ entry, v.store.find w.sourcePath = .ok entry ∧
      (FileAction.remove w.sourcePath).run v.store = (.ok (), v'.store) := by
  obtain ⟨s, u, stored, rest⟩ := run_bind_eq_ok.mp ran
  cases stored
  cases found : v.store.find w.sourcePath with
  | error reason =>
      rw [found] at rest
      cases rest
  | ok entry =>
      rw [found] at rest
      exact ⟨entry, rfl, Action.of_run_files rest⟩

theorem LiesIn.place_source (lies : w.LiesIn p s) (cwd : Location) :
    Path.place cwd w.sourcePath = Path.place cwd w.dir ++ [intermediateName] := by
  rw [lies.source]
  exact Path.place_join_name isName_intermediateName cwd w.dir

/-- Cleaning up removes the workspace and nothing else. -/
theorem LiesIn.cleanup_ok (lies : w.LiesIn p s) {u : World}
    (sourced : w.removeSource.run v = (.ok (), u)) (cleaned : w.clean.run u = (.ok (), v'))
    (tree : v.store.TreeAt cwd) :
    v'.store.TreeAt cwd ∧ v'.store.get? (Path.place cwd w.dir) = none ∧
      ∀ place entry, v.store.get? place = some entry → ¬ Path.place cwd w.dir <+: place →
        v'.store.get? place = some entry := by
  obtain ⟨entry, source, remove⟩ := removeSource_ok sourced
  have clean := Action.of_run_files cleaned
  have removing : Sustains (Changes cwd (fun _ => False) (· = Path.place cwd w.sourcePath))
      (FileAction.remove w.sourcePath) := FileAction.remove_changes rfl
  have erasing : Sustains (Changes cwd (fun _ => False) (Path.place cwd w.dir <+: ·))
      (FileAction.removeTree w.dir) := FileAction.removeTree_changes fun _ below => below
  have tree' := (removing.of_run remove tree).1
  refine ⟨(erasing.of_run clean tree').1, (lies.removeTree_leaves tree' clean).1 rfl, ?_⟩
  intro place entry there outside
  have notSource : place ≠ Path.place cwd w.sourcePath := by
    rintro rfl
    rw [lies.place_source] at outside
    exact outside (List.prefix_append _ _)
  exact (erasing.of_run clean).kept tree' ((removing.of_run remove).kept tree there notSource) outside

/-- A delivery that succeeds found the artifact, moved it, and had a source to remove. -/
theorem deliver_steps (ran : (w.deliver config).run v = (.ok (), v')) :
    ∃ contents executable moved u,
      v.store.find w.artifactPath = .ok (.file contents executable) ∧
      (FileAction.moveFile w.artifactPath w.output).run v.store = (.ok (), moved.store) ∧
      w.removeSource.run moved = (.ok (), u) ∧ w.clean.run u = (.ok (), v') := by
  obtain ⟨_, v₁, awaited, rest⟩ := run_bind_eq_ok.mp ran
  obtain ⟨_, v₂, moved, rest⟩ := run_bind_eq_ok.mp rest
  obtain ⟨_, v₃, told, rest⟩ := run_bind_eq_ok.mp rest
  cases told
  obtain ⟨_, v₄, sourced, cleaned⟩ := run_bind_eq_ok.mp rest
  obtain ⟨same, isFile⟩ := awaitArtifact_ok (Action.of_run_inPhase awaited)
  obtain ⟨contents, executable, found⟩ := Store.exists_of_isFile isFile
  have move := Action.of_run_files (Action.of_run_within (Action.of_run_inPhase moved))
  rw [same] at move
  exact ⟨contents, executable, ⟨v₂.store, v₂.events ++ [.executableBuilt w.output]⟩, v₄, found, move,
    Action.of_run_inPhase sourced, Action.of_run_inPhase cleaned⟩

/-- What the compiler left as the artifact is at the output in the end, and the workspace is gone. -/
theorem LiesIn.deliver_ok (lies : w.LiesIn p s) (tree : v.store.TreeAt cwd) {n : Path.Normal}
    (output : w.output = n.text) (rooted : n.rooted = true)
    (outside : ¬ Path.place cwd w.dir <+: Path.place cwd w.output)
    (artifact : Path.place cwd w.dir <+: Path.place cwd w.artifactPath)
    (ran : (w.deliver config).run v = (.ok (), v')) :
    ∃ contents executable mode, v.store.find w.artifactPath = .ok (.file contents executable) ∧
      v'.store.find w.output = .ok (.file contents mode) ∧
      v'.store.get? (Path.place cwd w.dir) = none := by
  obtain ⟨contents, executable, moved, u, found, move, sourced, cleaned⟩ := deliver_steps ran
  have different : Path.place cwd w.artifactPath ≠ Path.place cwd w.output :=
    fun equal => outside (equal ▸ artifact)
  obtain ⟨target, leads⟩ := FileAction.target_of_moveFile move
  obtain ⟨mode, there⟩ := FileAction.moveFile_ok tree found different move
  have moving : Sustains (Changes cwd (fun _ => False) (fun _ => True))
      (FileAction.moveFile w.artifactPath w.output) := FileAction.moveFile_changes trivial trivial
  obtain ⟨tree', gone, kept⟩ := lies.cleanup_ok sourced cleaned (moving.of_run move tree).1
  refine ⟨contents, executable, mode, found, ?_, gone⟩
  -- the output is no part of the workspace
  have delivered := kept _ _ there outside
  rw [output] at leads
  rw [output, Path.Normal.place_text] at delivered
  rw [output]
  refine tree'.find_text.mpr ⟨Store.usable_of_target leads, tree'.sees_of_get? delivered ?_⟩
  intro level
  rw [Path.Normal.place, level, Store.base_of_rooted rooted, List.append_nil, Store.get?_root] at delivered
  cases delivered

theorem prepare_treeAt (code : String) :
    Sustains (World.OnStore (Changes cwd (fun _ => True) (fun _ => True))) (w.prepare code) :=
  .bind (Action.sustains_inPhase _ (Action.sustains_within _ (Action.sustains_files
    (FileAction.makeDirectories_changes fun _ => trivial)))) fun _ =>
  .bind (Action.sustains_inPhase _ (Action.sustains_within _ (Action.sustains_files
    (FileAction.writeFileAs_changes trivial false _)))) fun _ =>
  Action.sustains_inPhase _ (Action.sustains_within _ (Action.sustains_files
    (FileAction.removeIfExists_changes trivial)))

theorem produce_ok {code : String} (ran : (w.produce config toolchain code).run v = (.ok (), v')) :
    ∃ prepared run left exited, (w.prepare code).run v = (.ok (), prepared) ∧
      (toolchain.start config.compiler (intermediateName :: config.flags) w.dir).run prepared.store =
        (run, left) ∧ run.failure = none ∧ exited.store = prepared.store.afterProcess left ∧
      (w.deliver config).run exited = (.ok (), v') := by
  rw [produce_eq] at ran
  obtain ⟨_, prepared, prepares, rest⟩ := run_bind_eq_ok.mp ran
  obtain ⟨_, exited, compiles, delivers⟩ := run_bind_eq_ok.mp rest
  obtain ⟨run, left, started, succeeded, same⟩ := compile_ok (Action.of_run_inPhase compiles)
  exact ⟨prepared, run, left, exited, prepares, started, succeeded, same, delivers⟩

end Workspace

namespace BuildConfig

variable {config : BuildConfig} {around : Surroundings} {input output : String} {w w' : World}

/-- The program was read, which left `read`; the workspace was prepared, which left `prepared`; on these
files the compiler was run without a failure, and it left `exited`. -/
def RunsCompiler (config : BuildConfig) (around : Surroundings) (input output : String) (w : World)
    (ws : Workspace) (read prepared exited : Store) : Prop :=
  ∃ code events s events' events'' run left,
    config.Enters around input output w ⟨read, events⟩ code ws s ∧
    (ws.prepare code).run ⟨s, events'⟩ = (.ok (), ⟨prepared, events''⟩) ∧
    (around.toolchain.start config.compiler (intermediateName :: config.flags) ws.dir).run prepared =
      (run, left) ∧
    run.failure = none ∧ exited = prepared.afterProcess left

theorem RunsCompiler.treeAt {ws : Workspace} {read prepared exited : Store}
    (runs : config.RunsCompiler around input output w ws read prepared exited) :
    prepared.TreeAt w.store.cwd ∧ exited.TreeAt w.store.cwd := by
  obtain ⟨code, _, s, _, _, _, left, enters, prepares, -, -, rfl⟩ := runs
  obtain ⟨-, tree, -⟩ := enters.treeAt
  have tree' : prepared.TreeAt w.store.cwd :=
    ((Workspace.prepare_treeAt code).of_run prepares tree).1
  exact ⟨tree', ⟨tree'.here⟩⟩

/-- A build that succeeds ran the compiler and delivered what it left. -/
theorem Ends.delivers {after : Store} (ends : Ends config around input output w (.ok ()) after) :
    ∃ ws read prepared exited v,
      config.RunsCompiler around input output w ws read prepared exited.store ∧
      (ws.deliver config).run exited = (.ok (), v) ∧ v.store = after := by
  cases ends with
  | built enters produced =>
      obtain ⟨prepared, run, left, exited, prepares, started, succeeded, same, delivers⟩ :=
        Workspace.produce_ok produced
      exact ⟨_, _, _, exited, _, ⟨_, _, _, _, _, run, left, enters, prepares, started, succeeded, same⟩,
        delivers, rfl⟩

end BuildConfig

end DawnC
