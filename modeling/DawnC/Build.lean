import DawnC.Build.Toolchain
import DawnC.Build.Workspace
import DawnC.Text.Space
import DawnC.Transpile

set_option autoImplicit false

namespace DawnC

/-- What a build needs from outside: where remote files come from, and the programs it can start. -/
structure Surroundings where
  remotes : Remotes
  toolchain : Toolchain

namespace Action

/-- Runs an action for its effect and gives its fault, if it has one. -/
def fault? (action : Action Unit) : Action (Option Fault) :=
  tryCatch (do action; pure none) fun fault => pure (some fault)

/-- Runs a process on the files. -/
def process (run : StateM Store ProcessRun) : Action ProcessRun := do
  let before ← store
  let (result, left) := run.run before
  modify fun w => { w with store := before.afterProcess left }
  pure result

end Action

/-- Translates a source file, with remote files in the configured cache. -/
def BuildConfig.transpile (config : BuildConfig) (around : Surroundings) (input : String) :
    Action String :=
  DawnC.transpile (some ((⟨config.cacheDir⟩ : Cache).fetch around.remotes)) input

namespace Workspace

/-- Runs the C compiler in the workspace. -/
def compile (w : Workspace) (config : BuildConfig) (toolchain : Toolchain) : Action Unit := do
  let arguments := intermediateName :: config.flags
  Action.tell (.compiling config.compiler arguments)
  let run ← Action.process (toolchain.start config.compiler arguments w.dir)
  match run.failure with
  | none => pure ()
  | some failure =>
    throw (.build (.compilerFailed config.compiler failure (Text.trim run.diagnostics)))

/-- Looks for the artifact, and again after a delay as long as looks are left. -/
def awaitArtifact (w : Workspace) (artifact : String) (attempt delay : Nat) : Nat → Action Unit
  | 0 => do
    if (← Action.store).isFile w.artifactPath then pure ()
    else throw (.build (.noArtifact artifact))
  | left + 1 => do
    if (← Action.store).isFile w.artifactPath then pure ()
    else
      Action.tell (.artifactAwaited attempt delay)
      w.awaitArtifact artifact (attempt + 1) (2 * delay) left

/-- Removes whatever a failed build may have left. Gives the faults that this met. -/
def discard (w : Workspace) : Action (Option Fault) := do
  let source ← Action.fault? (Action.files (FileAction.removeIfExists w.sourcePath))
  let dir ← Action.fault? w.clean
  let output ← Action.fault? (Action.files (FileAction.removeIfExists w.output))
  pure (Fault.collect [source, dir, output].reduceOption)

/-- The build proper, from the generated code to the executable. -/
def produce (w : Workspace) (config : BuildConfig) (toolchain : Toolchain) (code : String) :
    Action Unit := do
  Action.inPhase .writeC w.ensure
  Action.inPhase .writeC (Action.within ("writing " ++ w.sourcePath) (w.writeSource code))
  Action.inPhase .prepareOutput
    (Action.within "removing previous output" (Action.files (FileAction.removeIfExists w.output)))
  Action.inPhase .compile (w.compile config toolchain)
  Action.inPhase .compile (w.awaitArtifact config.artifact 1 config.firstDelay (config.attempts - 1))
  Action.inPhase .compile
    (Action.within "moving artifact" (Action.files (FileAction.moveFile w.artifactPath w.output)))
  Action.tell (.executableBuilt w.output)
  Action.inPhase .cleanup w.removeSource
  Action.inPhase .cleanup w.clean

end Workspace

/-- Compiles the program at `input` into the executable `output`. -/
def BuildConfig.build (config : BuildConfig) (around : Surroundings) (input output : String) :
    Action Unit := do
  let code ← tryCatch (config.transpile around input) fun fault => do
    if fault.missingSource?.isNone then
      let _ ← Action.fault? (Action.files (FileAction.removeIfExists output))
    throw fault
  Action.inPhase .writeC
    (Action.within "creating directories" (Action.files config.ensureDirectories))
  let w ← Action.inPhase .writeC
    (Action.ofExcept (Workspace.ofPaths config (← Action.store) input output))
  Action.tell (.workspaceChosen w.dir)
  tryCatch (w.produce config around.toolchain code) fun fault => do
    if let some leftover ← w.discard then
      Action.tell (.cleanupFailed leftover)
    throw fault

end DawnC
