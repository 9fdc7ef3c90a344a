import DawnC.Include.Splice

set_option autoImplicit false

namespace DawnC

/-- Reads a program: the root file, and all that it includes in place. -/
def load (fetcher : Option Fetcher) (root : String) : Action (List Atom) := do
  let store ← Action.store
  if !store.isFile root then throw (.sourceNotFound root)
  let path ← Action.inPhase .read (Action.ofExcept (store.absolute root))
  let d ← discover fetcher depthLimit path root { graph := .ofRoot path }
  match d.graph.cycle? with
  | some cycle => throw (Fault.inPhase .inclusion (.cycle cycle))
  | none =>
    let atoms := renumber (splice d.sources path)
    Action.tell (.includesResolved root d.graph.size atoms.length)
    pure atoms

end DawnC
