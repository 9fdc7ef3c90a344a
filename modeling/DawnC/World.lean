import DawnC.Event
import DawnC.Store.Actions

set_option autoImplicit false

namespace DawnC

/-- A path taken from the root. A relative one has none if the working directory was removed. -/
def Store.absolute (s : Store) (path : String) : Except Fault String :=
  if Path.isAbsolute path || s.hasWorkingDirectory then .ok (Path.absolute s.cwdPath path)
  else .error .noWorkingDirectory

/-- What a build acts on. -/
structure World where
  store : Store
  /-- in the order in which they were told -/
  events : List Event := []

/-- A step of a build. -/
abbrev Action := Attempt Fault World

namespace Action

def store : Action Store := return (← get).store

def tell (event : Event) : Action Unit :=
  modify fun w => { w with events := w.events ++ [event] }

def ofExcept {α : Type} : Except Fault α → Action α
  | .ok a => pure a
  | .error fault => throw fault

/-- Runs an action on the files alone. -/
def files {α : Type} (action : FileAction α) : Action α := do
  let (result, store) := action.run (← store)
  modify fun w => { w with store }
  match result with
  | .ok a => pure a
  | .error fault => throw (.file fault)

/-- Names what was being done when the action failed. -/
def within {α : Type} (context : String) (action : Action α) : Action α :=
  tryCatch action fun fault => throw (.wrap context fault)

/-- Faults of the action are faults of the phase. -/
def inPhase {α : Type} (phase : Phase) (action : Action α) : Action α :=
  tryCatch action fun fault => throw (fault.inPhase phase)

end Action

end DawnC
