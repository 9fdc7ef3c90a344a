import DawnC.Build
import DawnC.Proofs.Include.Effects
import DawnC.Proofs.Remote.Fetch
import DawnC.Proofs.Store.Absolute

set_option autoImplicit false

namespace DawnC

open Attempt (Sustains)
open Store (Changes)

namespace Store

variable (s left : Store) (place : Location)

@[simp] theorem cwd_afterProcess : (s.afterProcess left).cwd = s.cwd := rfl

@[simp] theorem get?_afterProcess : (s.afterProcess left).get? place = left.get? place := rfl

@[simp] theorem rule_afterProcess : (s.afterProcess left).rule place = left.rule place := rfl

end Store

namespace Action

variable {R : Store → Store → Prop}

theorem sustains_process {run : StateM Store ProcessRun}
    (ran : ∀ s, R s (s.afterProcess (run.run s).2)) : Sustains (World.OnStore R) (process run) :=
  fun w => ran w.store

variable [IsPreorder Store R]

theorem sustains_fault? {action : Action Unit} (sustains : Sustains (World.OnStore R) action) :
    Sustains (World.OnStore R) (fault? action) :=
  .tryCatch (.bind sustains fun _ => .pure none) fun _ => .pure _

omit [IsPreorder Store R] in
theorem run_fault? (action : Action Unit) (w : World) :
    ∃ found, (fault? action).run w = (.ok found, (action.run w).2) := by
  rcases ran : action.run w with ⟨fault | done, w'⟩
  · exact ⟨some fault, Attempt.run_tryCatch_error (Attempt.run_bind_error ran)⟩
  · have none : (do action; pure none : Action (Option Fault)).run w = (.ok none, w') :=
      Attempt.run_bind_ok ran
    exact ⟨_, Attempt.run_tryCatch_ok none⟩

omit [IsPreorder Store R] in
theorem run_fault?_files (action : FileAction Unit) (w : World) :
    ∃ found, (fault? (files action)).run w =
      (.ok found, { w with store := (action.run w.store).2 }) := by
  obtain ⟨found, ran⟩ := run_fault? (files action) w
  refine ⟨found, ran.trans ?_⟩
  rcases acted : action.run w.store with ⟨result, s⟩
  rw [run_files acted]

end Action

namespace Toolchain

/-- However it is started, the command changes nothing outside the directory it is started in. -/
def Confined (t : Toolchain) (command : String) (cwd : Location) : Prop :=
  ∀ arguments dir s, s.cwd = cwd → ∀ place, ¬ Path.place cwd dir <+: place →
    ((t.start command arguments dir).run s).2.rule place = s.rule place ∧
      ((t.start command arguments dir).run s).2.get? place = s.get? place

theorem Confined.changes {t : Toolchain} {command : String} {cwd : Location} (confined : t.Confined command cwd)
    {makes touches : Location → Prop} (arguments : List String) {dir : String}
    (inside : ∀ place, Path.place cwd dir <+: place → touches place) (s : Store) :
    Changes cwd makes touches s (s.afterProcess ((t.start command arguments dir).run s).2) := by
  intro tree
  refine ⟨⟨tree.here⟩, ?_⟩
  intro place untouched
  obtain ⟨rule, entry⟩ := confined arguments dir s tree.here place fun below => untouched (inside place below)
  exact ⟨rule, Or.inl entry⟩

end Toolchain

namespace Workspace

variable {w : Workspace} {cwd : Location} {makes touches : Location → Prop} {config : BuildConfig}
  {toolchain : Toolchain}

/-- The places that a build works on: the output, the artifact, and the workspace with all that is in
it. -/
def Owns (w : Workspace) (cwd place : Location) : Prop :=
  place = Path.place cwd w.output ∨ place = Path.place cwd w.artifactPath ∨
    Path.place cwd w.dir <+: place

theorem isName_intermediateName : Path.IsName intermediateName := by
  refine ⟨?_, ?_, ?_, ?_⟩
  all_goals decide

/-- The workspace of a build that is started in the working directory of `s`. -/
def ofStore (config : BuildConfig) (s : Store) (input output : String) : Workspace :=
  ofAbsolute config (Path.absolute s.cwdPath input) (Path.absolute s.cwdPath output)

theorem ofStore_congr {s t : Store} (here : t.cwd = s.cwd) (config : BuildConfig) (input output : String) :
    ofStore config t input output = ofStore config s input output := by
  rw [ofStore, ofStore, Store.cwdPath, Store.cwdPath, here]

theorem eq_ofStore {s : Store} {input output : String} (chosen : ofPaths config s input output = .ok w) :
    w = ofStore config s input output := by
  rcases s.absolute_cases input with first | ⟨-, -, first⟩
  · rcases s.absolute_cases output with second | ⟨-, -, second⟩
    · rw [ofPaths, first, second] at chosen
      cases chosen
      rfl
    · rw [ofPaths, first, second] at chosen
      cases chosen
  · rw [ofPaths, first] at chosen
    cases chosen

theorem ofPaths_of_here {s : Store} (here : s.hasWorkingDirectory = true) (config : BuildConfig)
    (input output : String) : ofPaths config s input output = .ok (ofStore config s input output) := by
  rw [ofPaths, Store.absolute, Store.absolute, here, Bool.or_true, if_pos rfl, Bool.or_true, if_pos rfl]
  rfl

/-- The output has one place, whether it is named from the root or not. -/
theorem place_output (s : Store) (config : BuildConfig) (input output : String) :
    Path.place s.cwd (ofStore config s input output).output = Path.place s.cwd output := by
  have valid : ∀ name ∈ s.cwd, Path.IsName name := fun name member => (s.usable name member).1
  exact Path.place_absolute valid s.cwd output

theorem dir_isPrefix_sourcePath (config : BuildConfig) (s : Store) (input output : String) (cwd : Location) :
    Path.place cwd (ofStore config s input output).dir <+:
      Path.place cwd (ofStore config s input output).sourcePath := by
  have place := Path.place_join_name isName_intermediateName cwd (ofStore config s input output).dir
  rw [ofStore, ofAbsolute] at place ⊢
  rw [place]
  exact List.prefix_append _ _

theorem compile_sustains {R : Store → Store → Prop} [IsPreorder Store R]
    (compiled : ∀ arguments s,
      R s (s.afterProcess ((toolchain.start config.compiler arguments w.dir).run s).2)) :
    Sustains (World.OnStore R) (w.compile config toolchain) := by
  apply Sustains.bind (Action.sustains_tell _)
  intro _
  apply Sustains.bind (Action.sustains_process (compiled _))
  intro run
  cases run.failure with
  | none => exact .pure ()
  | some failure => exact .throw _

theorem awaitArtifact_sustains {R : Store → Store → Prop} [IsPreorder Store R] (artifact : String)
    (attempt delay left : Nat) :
    Sustains (World.OnStore R) (w.awaitArtifact artifact attempt delay left) := by
  induction left generalizing attempt delay with
  | zero =>
      apply Sustains.bind Action.sustains_store
      intro s
      split
      · exact .pure ()
      · exact .throw _
  | succ left ih =>
      apply Sustains.bind Action.sustains_store
      intro s
      split
      · exact .pure ()
      · exact .bind (Action.sustains_tell _) fun _ => ih _ _

theorem removeSource_sustains {R : Store → Store → Prop} [IsPreorder Store R]
    (removed : Sustains R (FileAction.remove w.sourcePath)) :
    Sustains (World.OnStore R) w.removeSource := by
  apply Sustains.bind Action.sustains_store
  intro s
  split
  · exact .throw _
  · exact Action.sustains_files removed

theorem produce_sustains {R : Store → Store → Prop} [IsPreorder Store R]
    (ensured : Sustains R (FileAction.makeDirectories w.dir))
    (written : ∀ contents, Sustains R (FileAction.writeFile w.sourcePath contents))
    (prepared : Sustains R (FileAction.removeIfExists w.output))
    (compiled : ∀ arguments s,
      R s (s.afterProcess ((toolchain.start config.compiler arguments w.dir).run s).2))
    (moved : Sustains R (FileAction.moveFile w.artifactPath w.output))
    (removed : Sustains R (FileAction.remove w.sourcePath))
    (cleaned : Sustains R (FileAction.removeTree w.dir)) (code : String) :
    Sustains (World.OnStore R) (w.produce config toolchain code) := by
  refine .bind (Action.sustains_inPhase _ ?ensure) fun _ =>
    .bind (Action.sustains_inPhase _ ?write) fun _ =>
    .bind (Action.sustains_inPhase _ ?prepare) fun _ =>
    .bind (Action.sustains_inPhase _ ?compile) fun _ =>
    .bind (Action.sustains_inPhase _ ?await) fun _ =>
    .bind (Action.sustains_inPhase _ ?move) fun _ =>
    .bind (Action.sustains_tell _) fun _ =>
    .bind (Action.sustains_inPhase _ ?remove) fun _ => Action.sustains_inPhase _ ?clean
  case ensure => exact Action.sustains_within _ (Action.sustains_files ensured)
  case write => exact Action.sustains_within _ (Action.sustains_files (written _))
  case prepare => exact Action.sustains_within _ (Action.sustains_files prepared)
  case compile => exact compile_sustains compiled
  case await => exact awaitArtifact_sustains _ _ _ _
  case move => exact Action.sustains_within _ (Action.sustains_files moved)
  case remove => exact removeSource_sustains removed
  case clean => exact Action.sustains_files cleaned

section Changes

variable (owned : ∀ place, w.Owns cwd place → touches place)
  (inside : Path.place cwd w.dir <+: Path.place cwd w.sourcePath)

include owned inside

/-- The build proper changes what the workspace owns, and makes the directories above it. -/
theorem produce_changes (ensured : Sustains (Changes cwd makes touches) (FileAction.makeDirectories w.dir))
    (compiled : ∀ arguments s, Changes cwd makes touches s
      (s.afterProcess ((toolchain.start config.compiler arguments w.dir).run s).2)) (code : String) :
    Sustains (World.OnStore (Changes cwd makes touches)) (w.produce config toolchain code) := by
  have output : touches (Path.place cwd w.output) := owned _ (Or.inl rfl)
  have artifact : touches (Path.place cwd w.artifactPath) := owned _ (Or.inr (Or.inl rfl))
  have below : ∀ place, Path.place cwd w.dir <+: place → touches place :=
    fun place under => owned place (Or.inr (Or.inr under))
  apply produce_sustains ensured
  · exact FileAction.writeFileAs_changes (below _ inside) false
  · exact FileAction.removeIfExists_changes output
  · exact compiled
  · exact FileAction.moveFile_changes artifact output
  · exact FileAction.remove_changes (below _ inside)
  · exact FileAction.removeTree_changes below

/-- So does cleaning up after it. -/
theorem discard_changes : Sustains (World.OnStore (Changes cwd makes touches)) w.discard := by
  have output : touches (Path.place cwd w.output) := owned _ (Or.inl rfl)
  have below : ∀ place, Path.place cwd w.dir <+: place → touches place :=
    fun place under => owned place (Or.inr (Or.inr under))
  refine .bind (Action.sustains_fault? ?source) fun _ => .bind (Action.sustains_fault? ?dir) fun _ =>
    .bind (Action.sustains_fault? ?output) fun _ => .pure _
  case source =>
    exact Action.sustains_files (FileAction.removeIfExists_changes (below _ inside))
  case dir => exact Action.sustains_files (FileAction.removeTree_changes below)
  case output => exact Action.sustains_files (FileAction.removeIfExists_changes output)

end Changes

/-- Cleaning up never fails, and the output goes last. -/
theorem run_discard (w : Workspace) (v : World) :
    ∃ leftover, w.discard.run v = (.ok leftover, { v with
      store := ((FileAction.removeIfExists w.output).run ((FileAction.removeTree w.dir).run
        ((FileAction.removeIfExists w.sourcePath).run v.store).2).2).2 }) := by
  obtain ⟨source, ran⟩ := Action.run_fault?_files (FileAction.removeIfExists w.sourcePath) v
  obtain ⟨dir, ran'⟩ := Action.run_fault?_files (FileAction.removeTree w.dir)
    { v with store := ((FileAction.removeIfExists w.sourcePath).run v.store).2 }
  obtain ⟨output, ran''⟩ := Action.run_fault?_files (FileAction.removeIfExists w.output)
    { v with store := ((FileAction.removeTree w.dir).run
        ((FileAction.removeIfExists w.sourcePath).run v.store).2).2 }
  refine ⟨Fault.collect [source, dir, output].reduceOption, ?_⟩
  rw [discard, Attempt.run_bind_ok ran, clean, Attempt.run_bind_ok ran', Attempt.run_bind_ok ran'']
  rfl

end Workspace

namespace BuildConfig

open Attempt (run_bind_ok run_bind_error run_tryCatch_ok run_tryCatch_error)

variable {config : BuildConfig} {around : Surroundings} {input output : String} {cwd : Location} {w : World}

theorem transpile_grows (config : BuildConfig) (around : Surroundings) (input : String) :
    Sustains (World.OnStore (Store.Grows cwd)) (config.transpile around input) := by
  apply transpile_sustains
  intro fetch member text
  cases member
  exact Cache.fetch_sustains (fun r => Cache.provide_grows) text

theorem ensureDirectories_grows (config : BuildConfig) :
    Sustains (Store.Grows cwd) config.ensureDirectories :=
  .bind FileAction.makeDirectories_grows fun _ =>
    .bind FileAction.makeDirectories_grows fun _ => FileAction.makeDirectories_grows

/-- The program is translated, the directories for builds are made, and the workspace is chosen: it is
next. -/
structure Enters (config : BuildConfig) (around : Surroundings) (input output : String) (w read : World)
    (code : String) (ws : Workspace) (s : Store) : Prop where
  translated : (config.transpile around input).run w = (.ok code, read)
  made : config.ensureDirectories.run read.store = (.ok (), s)
  chosen : Workspace.ofPaths config s input output = .ok ws

/-- The program is translated, but the build does not come to its workspace: a directory for builds cannot be
made, or a path is taken from a working directory that is gone. -/
def StopsEarly (config : BuildConfig) (around : Surroundings) (input output : String) (w : World) : Prop :=
  (∃ code read, (config.transpile around input).run w = (.ok code, read)) ∧
    ∀ read code ws s, ¬ config.Enters around input output w read code ws s

/-- The ways in which a build can end, each with the files that it leaves. -/
inductive Ends (config : BuildConfig) (around : Surroundings) (input output : String) (w : World) :
    Except Fault Unit → Store → Prop where
  /-- the program cannot be read or translated; the output is removed, unless there is no source -/
  | untranslated {fault : Fault} {read : World}
      (failed : (config.transpile around input).run w = (.error fault, read)) :
      Ends config around input output w (.error fault)
        (if fault.missingSource?.isNone then ((FileAction.removeIfExists output).run read.store).2
          else read.store)
  | stopped {code : String} {read : World} {made : Except FileFault Unit} {fault : Fault} {s : Store}
      (translated : (config.transpile around input).run w = (.ok code, read))
      (ran : config.ensureDirectories.run read.store = (made, s))
      (early : config.StopsEarly around input output w) :
      Ends config around input output w (.error fault) s
  | built {read v : World} {code : String} {ws : Workspace} {s : Store} {events : List Event}
      (enters : config.Enters around input output w read code ws s)
      (produced : (ws.produce config around.toolchain code).run ⟨s, events⟩ = (.ok (), v)) :
      Ends config around input output w (.ok ()) v.store
  /-- the workspace failed, and was discarded -/
  | failed {read v : World} {code : String} {ws : Workspace} {s : Store} {events : List Event} {fault : Fault}
      (enters : config.Enters around input output w read code ws s)
      (produced : (ws.produce config around.toolchain code).run ⟨s, events⟩ = (.error fault, v)) :
      Ends config around input output w (.error fault) (ws.discard.run v).2.store

theorem build_of_untranslated {fault : Fault} {w' : World}
    (failed : (config.transpile around input).run w = (.error fault, w')) :
    (config.build around input output).run w = (.error fault, { w' with
      store := if fault.missingSource?.isNone then
        ((FileAction.removeIfExists output).run w'.store).2 else w'.store }) := by
  obtain ⟨found, ran⟩ := Action.run_fault?_files (FileAction.removeIfExists output) w'
  rw [build]
  apply run_bind_error
  rw [run_tryCatch_error failed]
  split
  · rw [run_bind_ok ran]
    rfl
  · rfl

variable {code : String} {read : World} {s : Store}

theorem run_ensureDirectories (made : config.ensureDirectories.run read.store = (.ok (), s)) :
    (Action.inPhase .writeC
      (Action.within "creating directories" (Action.files config.ensureDirectories))).run read =
        (.ok (), { read with store := s }) := by
  apply run_tryCatch_ok
  exact run_tryCatch_ok (Action.run_files made)

section Translated

variable (translated : (config.transpile around input).run w = (.ok code, read))

include translated

theorem build_of_no_directories (output : String) {fault : FileFault}
    (failed : config.ensureDirectories.run read.store = (.error fault, s)) :
    ∃ fault', (config.build around input output).run w = (.error fault', { read with store := s }) := by
  have made : (Action.within "creating directories" (Action.files config.ensureDirectories)).run read =
      (.error _, { read with store := s }) := run_tryCatch_error (Action.run_files failed)
  have made' : (Action.inPhase .writeC
      (Action.within "creating directories" (Action.files config.ensureDirectories))).run read =
      (.error _, { read with store := s }) := run_tryCatch_error made
  rw [build, run_bind_ok (run_tryCatch_ok translated), run_bind_error made']
  exact ⟨_, rfl⟩

section Made

variable (made : config.ensureDirectories.run read.store = (.ok (), s))

include made

/-- A build stops if a path is taken from a working directory that is gone. -/
theorem build_of_no_paths {fault : Fault} (lost : Workspace.ofPaths config s input output = .error fault) :
    ∃ fault', (config.build around input output).run w = (.error fault', { read with store := s }) := by
  have made' := run_ensureDirectories made
  have stored : Action.store.run { read with store := s } = (.ok s, { read with store := s }) := rfl
  have stops : (Action.inPhase .writeC
      (Action.ofExcept (.error fault : Except Fault Workspace))).run { read with store := s } =
      (.error _, { read with store := s }) := run_tryCatch_error rfl
  rw [build, run_bind_ok (run_tryCatch_ok translated), run_bind_ok made', run_bind_ok stored, lost,
    run_bind_error stops]
  exact ⟨_, rfl⟩

/-- Otherwise a build is what its workspace produces; if that fails, the workspace is discarded. -/
theorem build_of_workspace {ws : Workspace} (chosen : Workspace.ofPaths config s input output = .ok ws) :
    ∃ events, (∃ v, (ws.produce config around.toolchain code).run ⟨s, events⟩ = (.ok (), v) ∧
        (config.build around input output).run w = (.ok (), v)) ∨
      ∃ fault v events', (ws.produce config around.toolchain code).run ⟨s, events⟩ = (.error fault, v) ∧
        (config.build around input output).run w =
          (.error fault, ⟨(ws.discard.run v).2.store, events'⟩) := by
  have made' := run_ensureDirectories made
  have stored : Action.store.run { read with store := s } = (.ok s, { read with store := s }) := rfl
  have placed : (Action.inPhase .writeC (Action.ofExcept (.ok ws))).run { read with store := s } =
      (.ok ws, { read with store := s }) := run_tryCatch_ok rfl
  let events := read.events ++ [.workspaceChosen ws.dir]
  have told : (Action.tell (.workspaceChosen ws.dir)).run { read with store := s } =
      (.ok (), ⟨s, events⟩) := rfl
  refine ⟨events, ?_⟩
  rw [build, run_bind_ok (run_tryCatch_ok translated), run_bind_ok made', run_bind_ok stored, chosen,
    run_bind_ok placed, run_bind_ok told]
  rcases produced : (ws.produce config around.toolchain code).run ⟨s, events⟩ with ⟨fault | done, v⟩
  · obtain ⟨leftover, discarded⟩ := ws.run_discard v
    refine Or.inr ⟨fault, v, ?_⟩
    rw [run_tryCatch_error produced, run_bind_ok discarded, discarded]
    cases leftover with
    | none => exact ⟨_, rfl, rfl⟩
    | some found => exact ⟨_, rfl, rfl⟩
  · exact Or.inl ⟨v, rfl, run_tryCatch_ok produced⟩

end Made

end Translated

theorem build_ends {result : Except Fault Unit} {w' : World}
    (ends : (config.build around input output).run w = (result, w')) :
    Ends config around input output w result w'.store := by
  rcases translated : (config.transpile around input).run w with ⟨fault | code, read⟩
  · rw [build_of_untranslated translated] at ends
    cases ends
    exact .untranslated translated
  · rcases made : config.ensureDirectories.run read.store with ⟨reason | done, s⟩
    · obtain ⟨fault, ran⟩ := build_of_no_directories translated output made
      rw [ran] at ends
      cases ends
      refine .stopped translated made ⟨⟨code, read, translated⟩, ?_⟩
      rintro read' code' ws s' ⟨translated', made', -⟩
      cases translated.symm.trans translated'
      cases made.symm.trans made'
    · cases chosen : Workspace.ofPaths config s input output with
      | error reason =>
          obtain ⟨fault, ran⟩ := build_of_no_paths translated made chosen
          rw [ran] at ends
          cases ends
          refine .stopped translated made ⟨⟨code, read, translated⟩, ?_⟩
          rintro read' code' ws s' ⟨translated', made', chosen'⟩
          cases translated.symm.trans translated'
          cases made.symm.trans made'
          cases chosen.symm.trans chosen'
      | ok ws =>
          obtain ⟨events, ⟨v, produced, ran⟩ | ⟨fault, v, events', produced, ran⟩⟩ :=
            build_of_workspace translated made chosen
          · rw [ran] at ends
            cases ends
            exact .built ⟨translated, made, chosen⟩ produced
          · rw [ran] at ends
            cases ends
            exact .failed ⟨translated, made, chosen⟩ produced

/-- The files that the build works on, as it comes to its workspace. -/
theorem Enters.treeAt {read : World} {code : String} {ws : Workspace} {s : Store}
    (enters : config.Enters around input output w read code ws s) :
    read.store.TreeAt w.store.cwd ∧ s.TreeAt w.store.cwd ∧
      ws = Workspace.ofStore config w.store input output := by
  have tree : read.store.TreeAt w.store.cwd :=
    ((config.transpile_grows around input).of_run enters.translated ⟨rfl⟩).1
  have tree' := (config.ensureDirectories_grows.of_run enters.made tree).1
  have here := Workspace.ofStore_congr tree'.here config input output
  exact ⟨tree, tree', (Workspace.eq_ofStore enters.chosen).trans here⟩

/-- What each part of a build does to the files after the program was read, all of it does. -/
theorem Ends.sustains {R : Store → Store → Prop} [IsPreorder Store R] {result : Except Fault Unit}
    {after : Store} (ends : Ends config around input output w result after)
    (removed : Sustains R (FileAction.removeIfExists output))
    (directories : Sustains R config.ensureDirectories)
    (produced : ∀ read code ws s events result v, config.Enters around input output w read code ws s →
      (ws.produce config around.toolchain code).run ⟨s, events⟩ = (result, v) → R s v.store)
    (discarded : Sustains (World.OnStore R) (Workspace.ofStore config w.store input output).discard) :
    R ((config.transpile around input).run w).2.store after := by
  cases ends with
  | untranslated failed =>
      rw [failed]
      split
      · exact removed _
      · exact refl_of _ _
  | stopped translated ran =>
      rw [translated]
      exact directories.of_run ran
  | built enters ran =>
      rw [enters.translated]
      exact trans_of _ (directories.of_run enters.made) (produced _ _ _ _ _ _ _ enters ran)
  | failed enters ran =>
      have inside := produced _ _ _ _ _ _ _ enters ran
      obtain ⟨-, -, rfl⟩ := enters.treeAt
      rw [enters.translated]
      exact trans_of _ (directories.of_run enters.made) (trans_of _ inside (discarded _))

end BuildConfig

/-- Settings with everything below `/home`. -/
def homeConfig : BuildConfig where
  home := "/home"
  buildDir := "/home/build"
  cacheDir := "/home/pkg"
  compiler := "gcc"
  flags := ["-w"]
  artifact := "a.out"
  attempts := 2
  firstDelay := 50

/-- No remotes, and no compiler. -/
def bareSurroundings : Surroundings where
  remotes := { clone := fun url => .error (.plain url) }
  toolchain := { interpret := fun _ _ _ => Toolchain.refused .killed }

theorem confined_bareSurroundings (cwd : Location) :
    bareSurroundings.toolchain.Confined homeConfig.compiler cwd := by
  intro arguments dir s here place outside
  rw [homeConfig, Toolchain.start, if_neg (by decide), if_neg (by decide), if_neg (by decide)]
  exact ⟨rfl, rfl⟩

end DawnC
