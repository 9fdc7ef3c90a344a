set_option autoImplicit false

namespace DawnC

structure IncludeGraph where
  root : String
  /-- every path once, with the paths it includes in order -/
  nodes : List (String × List String)
  deriving Repr

namespace IncludeGraph

def ofRoot (root : String) : IncludeGraph := ⟨root, [(root, [])]⟩

def contains (g : IncludeGraph) (path : String) : Bool := g.nodes.any (·.1 = path)

def children (g : IncludeGraph) (path : String) : List String := (g.nodes.lookup path).getD []

def size (g : IncludeGraph) : Nat := g.nodes.length

def addNode (g : IncludeGraph) (path : String) : IncludeGraph :=
  if g.contains path then g else { g with nodes := g.nodes ++ [(path, [])] }

/-- Records that the node `source` includes `target`. -/
def addEdge (g : IncludeGraph) (source target : String) : IncludeGraph :=
  { g with nodes := g.nodes.map fun n => if n.1 = source then (n.1, n.2 ++ [target]) else n }

/-- The way from `path` over the nodes above it back to itself; `trail` is last first. -/
def cycleOf (trail : List String) (path : String) : List String :=
  path :: (trail.takeWhile (· ≠ path)).reverse ++ [path]

/-- Visits a node under the nodes of `trail`. Gives the nodes known to lead into no cycle, or the
cycle that was found. -/
def visit (g : IncludeGraph) :
    Nat → List String → List String → String → Except (List String) (List String)
  | 0, _, done, _ => .ok done
  | depth + 1, trail, done, path =>
    if path ∈ done then .ok done
    else if path ∈ trail then .error (cycleOf trail path)
    else do
      let done ← (g.children path).foldlM (g.visit depth (path :: trail)) done
      pure (path :: done)

/-- The first cycle that can be reached from the root. A trail has no node twice, so it is never
longer than the graph is large. -/
def cycle? (g : IncludeGraph) : Option (List String) :=
  match g.visit (g.size + 1) [] [] g.root with
  | .ok _ => none
  | .error cycle => some cycle

end IncludeGraph

end DawnC
