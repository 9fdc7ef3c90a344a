import DawnC.Proofs.Include.Cycles

set_option autoImplicit false

namespace DawnC.IncludeGraph

open Relation (ReflTransGen TransGen)

variable {g : IncludeGraph}

/-- A graph that was started at the root and then got nodes, and edges between nodes it had. `edges`
are the edges it got. -/
inductive Built (root : String) : List (String × String) → IncludeGraph → Prop where
  | start : Built root [] (ofRoot root)
  | node {edges : List (String × String)} {g : IncludeGraph} (built : Built root edges g)
      (path : String) : Built root edges (g.addNode path)
  | edge {edges : List (String × String)} {g : IncludeGraph} (built : Built root edges g)
      {source target : String} (sourceNode : g.contains source = true)
      (targetNode : g.contains target = true) :
      Built root (edges ++ [(source, target)]) (g.addEdge source target)

def Joins (edges : List (String × String)) (source target : String) : Prop := (source, target) ∈ edges

theorem children_ofRoot (root path : String) : (ofRoot root).children path = [] := by
  by_cases same : path = root
  · simp [children, ofRoot, same]
  · have apart : (path == root) = false := by simpa using same
    simp [children, ofRoot, List.lookup_cons, apart]

namespace Built

variable {root : String} {edges : List (String × String)}

theorem root_eq (built : Built root edges g) : g.root = root := by
  induction built with
  | start => rfl
  | node built path ih => rw [root_addNode, ih]
  | edge built _ _ ih => exact ih

theorem contains_root (built : Built root edges g) : g.contains root = true := by
  induction built with
  | start => simp [contains, ofRoot]
  | node built path ih => exact (contains_addNode path).mpr (Or.inr ih)
  | edge built _ _ ih => rwa [contains_addEdge]

/-- The children of a node are the ends of the edges that were added to it. -/
theorem leads_eq (built : Built root edges g) : g.Leads = Joins edges := by
  funext x y
  apply propext
  rw [Leads, Joins]
  induction built with
  | start => simp [children_ofRoot]
  | node built path ih => rw [children_addNode, ih]
  | edge built sourceNode targetNode ih =>
      rw [children_addEdge sourceNode, List.mem_append, List.mem_singleton, Prod.mk.injEq, ← ih]
      split
      · rename_i same
        simp [same]
      · rename_i apart
        simp [apart]

theorem isClosed (built : Built root edges g) : g.IsClosed := by
  induction built with
  | start =>
      intro path target child
      rw [children_ofRoot] at child
      cases child
  | node built path ih =>
      intro x target child
      rw [children_addNode] at child
      exact (contains_addNode path).mpr (Or.inr (ih x target child))
  | edge built sourceNode targetNode ih =>
      intro x target child
      rw [contains_addEdge]
      rw [children_addEdge sourceNode] at child
      split at child
      · rcases List.mem_append.mp child with earlier | last
        · exact ih x target earlier
        · rwa [List.mem_singleton.mp last]
      · exact ih x target child

end Built

/-- The graph that has these edges, and the nodes that they need. -/
def ofEdges (root : String) (edges : List (String × String)) : IncludeGraph :=
  edges.foldl (fun g edge => ((g.addNode edge.1).addNode edge.2).addEdge edge.1 edge.2) (ofRoot root)

theorem built_ofEdges (root : String) (edges : List (String × String)) :
    Built root edges (ofEdges root edges) := by
  induction edges using List.reverseRecOn with
  | nil => exact .start
  | append_singleton edges edge ih =>
      rw [ofEdges, List.foldl_append]
      apply Built.edge ((ih.node edge.1).node edge.2)
      · exact (contains_addNode _).mpr (Or.inr ((contains_addNode _).mpr (Or.inl rfl)))
      · exact (contains_addNode _).mpr (Or.inl rfl)

inductive Colour where
  /-- not visited yet -/
  | fresh
  /-- entered, with nodes below it that are not visited yet -/
  | active
  | done
  deriving DecidableEq

structure Search where
  colour : String → Colour
  /-- the nodes that were entered and not left, in order -/
  path : List String

namespace Search

def start : Search := ⟨fun _ => .fresh, []⟩

def enter (s : Search) (node : String) : Search :=
  ⟨Function.update s.colour node .active, s.path ++ [node]⟩

def leave (s : Search) (node : String) : Search :=
  ⟨Function.update s.colour node .done, s.path.dropLast⟩

theorem colour_enter (s : Search) (node x : String) :
    (s.enter node).colour x = if x = node then .active else s.colour x := Function.update_apply ..

theorem colour_leave (s : Search) (node x : String) :
    (s.leave node).colour x = if x = node then .done else s.colour x := Function.update_apply ..

theorem path_enter (s : Search) (node : String) : (s.enter node).path = s.path ++ [node] := rfl

theorem path_leave (s : Search) (node : String) : (s.leave node).path = s.path.dropLast := rfl

def report : Except (List String) Search → Option (List String)
  | .ok _ => none
  | .error cycle => some cycle

end Search

/-- Visits to nodes one after another, each with the nodes below it, up to the first active one that is
met: a cycle from its place in the path on, or the node alone if the path lacks it. There is no bound
on how deep visits are nested. -/
inductive Visits (g : IncludeGraph) : Search → List String → Except (List String) Search → Prop where
  | nil {s : Search} : Visits g s [] (.ok s)
  | again {s : Search} {node : String} {rest : List String} {result : Except (List String) Search}
      (done : s.colour node = .done) (later : Visits g s rest result) :
      Visits g s (node :: rest) result
  | cycle {s : Search} {node : String} {rest : List String} (active : s.colour node = .active)
      (inside : node ∈ s.path) :
      Visits g s (node :: rest) (.error (s.path.dropWhile (· ≠ node) ++ [node]))
  | lost {s : Search} {node : String} {rest : List String} (active : s.colour node = .active)
      (absent : node ∉ s.path) : Visits g s (node :: rest) (.error [node])
  | passed {s s' : Search} {node : String} {rest : List String}
      {result : Except (List String) Search} (fresh : s.colour node = .fresh)
      (below : Visits g (s.enter node) (g.children node) (.ok s'))
      (later : Visits g (s'.leave node) rest result) : Visits g s (node :: rest) result
  | failed {s : Search} {node : String} {rest cycle : List String} (fresh : s.colour node = .fresh)
      (below : Visits g (s.enter node) (g.children node) (.error cycle)) :
      Visits g s (node :: rest) (.error cycle)

/-- A search comes to one result. -/
theorem Visits.unique {s : Search} {nodes : List String} {first second : Except (List String) Search}
    (visits : Visits g s nodes first) (visits' : Visits g s nodes second) : first = second := by
  induction visits generalizing second with
  | nil =>
      cases visits'
      rfl
  | again done later ih =>
      cases visits' with
      | again _ later' => exact ih later'
      | cycle active => cases done.symm.trans active
      | lost active => cases done.symm.trans active
      | passed fresh => cases done.symm.trans fresh
      | failed fresh => cases done.symm.trans fresh
  | cycle active inside =>
      cases visits' with
      | again done => cases done.symm.trans active
      | cycle => rfl
      | lost _ absent => exact absurd inside absent
      | passed fresh => cases active.symm.trans fresh
      | failed fresh => cases active.symm.trans fresh
  | lost active absent =>
      cases visits' with
      | again done => cases done.symm.trans active
      | cycle _ inside => exact absurd inside absent
      | lost => rfl
      | passed fresh => cases active.symm.trans fresh
      | failed fresh => cases active.symm.trans fresh
  | passed fresh below later ihBelow ihLater =>
      cases visits' with
      | again done => cases done.symm.trans fresh
      | cycle active => cases active.symm.trans fresh
      | lost active => cases active.symm.trans fresh
      | passed _ below' later' =>
          cases ihBelow below'
          exact ihLater later'
      | failed _ below' => cases ihBelow below'
  | failed fresh below ih =>
      cases visits' with
      | again done => cases done.symm.trans fresh
      | cycle active => cases active.symm.trans fresh
      | lost active => cases active.symm.trans fresh
      | passed _ below' => cases ih below'
      | failed _ below' =>
          cases ih below'
          rfl

/-- The nodes that are active are those of the path, each once. -/
structure Search.Coherent (s : Search) : Prop where
  nodup : s.path.Nodup
  active : ∀ x, s.colour x = .active ↔ x ∈ s.path

namespace Search.Coherent

variable {s s' : Search} {node : String}

theorem start : Search.start.Coherent := ⟨List.nodup_nil, fun x => by simp [Search.start]⟩

theorem enter (coherent : s.Coherent) (fresh : s.colour node = .fresh) : (s.enter node).Coherent := by
  have absent : node ∉ s.path := fun member => by
    cases fresh.symm.trans ((coherent.active node).mpr member)
  refine ⟨List.nodup_append.mpr ⟨coherent.nodup, List.nodup_singleton _, ?_⟩, fun x => ?_⟩
  · rintro x inside y single rfl
    exact absent (List.mem_singleton.mp single ▸ inside)
  · rw [colour_enter, path_enter, List.mem_append, List.mem_singleton]
    by_cases same : x = node
    · simp [same]
    · simp [same, coherent.active]

theorem leave (coherent : s'.Coherent) (same : s'.path = s.path ++ [node]) :
    (s'.leave node).Coherent := by
  have nodup := coherent.nodup
  rw [same] at nodup
  have absent : node ∉ s.path := fun member => by
    simpa using (List.nodup_append.mp nodup).2.2 node member
  refine ⟨(List.dropLast_sublist _).nodup coherent.nodup, fun x => ?_⟩
  rw [colour_leave, path_leave, same, List.dropLast_concat]
  by_cases here : x = node
  · simp [here, absent]
  · simp [here, coherent.active, same]

end Search.Coherent

theorem dropWhile_ne_append {node : String} {before : List String} (first : node ∉ before)
    (after : List String) : (before ++ node :: after).dropWhile (· ≠ node) = node :: after := by
  have apart : ∀ x ∈ before, decide (x ≠ node) = true := by
    intro x member
    rw [decide_eq_true_eq]
    intro same
    exact first (same ▸ member)
  rw [List.dropWhile_append_of_pos apart]
  simp

/-- A list of nodes that ends where it starts and holds no other node twice. -/
def IsLoop (cycle : List String) : Prop :=
  ∃ node middle, cycle = node :: (middle ++ [node]) ∧ (node :: middle).Nodup

/-- What visits leave of a coherent search: it is coherent again and at the same path, or it reports a
loop. An active node is always found in the path. -/
inductive Search.Leaves (s : Search) : Except (List String) Search → Prop where
  | ok {s' : Search} (coherent : s'.Coherent) (same : s'.path = s.path) : Leaves s (.ok s')
  | error {cycle : List String} (loop : IsLoop cycle) : Leaves s (.error cycle)

theorem Visits.leaves {s : Search} {nodes : List String} {result : Except (List String) Search}
    (visits : Visits g s nodes result) (coherent : s.Coherent) : s.Leaves result := by
  induction visits with
  | nil => exact .ok coherent rfl
  | again done later ih => exact ih coherent
  | @cycle s node rest active inside =>
      obtain ⟨before, after, place, first⟩ := List.eq_append_cons_of_mem inside
      have nodup := coherent.nodup
      rw [place] at nodup
      rw [place, dropWhile_ne_append first]
      exact .error ⟨node, after, rfl, (List.nodup_append.mp nodup).2.1⟩
  | lost active absent => exact absurd ((coherent.active _).mp active) absent
  | passed fresh below later ihBelow ihLater =>
      cases ihBelow (coherent.enter fresh) with
      | ok coherent' same =>
          have back := ihLater (coherent'.leave same)
          cases back with
          | ok coherent'' same' =>
              refine .ok coherent'' (same'.trans ?_)
              rw [Search.path_leave, same, Search.path_enter, List.dropLast_concat]
          | error loop => exact .error loop
  | failed fresh below ih =>
      cases ih (coherent.enter fresh) with
      | error loop => exact .error loop

/-- The search is where `visit` is with this trail, when it knows these nodes to be done. -/
structure Search.Matches (s : Search) (trail done : List String) : Prop where
  path : s.path = trail.reverse
  done : ∀ x, s.colour x = .done ↔ x ∈ done
  active : ∀ x, s.colour x = .active ↔ x ∈ trail

namespace Search.Matches

variable {s : Search} {trail done : List String} {node : String}

theorem fresh (agreed : s.Matches trail done) (unknown : node ∉ done) (new : node ∉ trail) :
    s.colour node = .fresh := by
  rw [← agreed.done] at unknown
  rw [← agreed.active] at new
  cases colour : s.colour node with
  | fresh => rfl
  | active => exact absurd colour new
  | done => exact absurd colour unknown

theorem enter (agreed : s.Matches trail done) (unknown : node ∉ done) :
    (s.enter node).Matches (node :: trail) done := by
  refine ⟨by simp [path_enter, agreed.path], fun x => ?_, fun x => ?_⟩
  · rw [colour_enter]
    by_cases here : x = node
    · simp [here, unknown]
    · simp [here, agreed.done]
  · rw [colour_enter]
    by_cases here : x = node
    · simp [here]
    · simp [here, agreed.active]

theorem leave (agreed : s.Matches (node :: trail) done) (new : node ∉ trail) :
    (s.leave node).Matches trail (node :: done) := by
  refine ⟨by simp [path_leave, agreed.path], fun x => ?_, fun x => ?_⟩
  · rw [colour_leave]
    by_cases here : x = node
    · simp [here]
    · simp [here, agreed.done]
  · rw [colour_leave]
    by_cases here : x = node
    · simp [here, new]
    · simp [here, agreed.active]

end Search.Matches

/-- The search ends as the computation says. -/
inductive Reached (g : IncludeGraph) (s : Search) (nodes trail : List String) :
    Except (List String) (List String) → Prop where
  | ok {s' : Search} {done : List String} (visits : Visits g s nodes (.ok s'))
      (agreed : s'.Matches trail done) : Reached g s nodes trail (.ok done)
  | error {cycle : List String} (visits : Visits g s nodes (.error cycle)) :
      Reached g s nodes trail (.error cycle)

/-- The depth is on the trail or still to come, so no visit is cut short. -/
theorem reached_foldlM (closed : g.IsClosed) (depth : Nat) {trail done nodes : List String}
    {s : Search} (agreed : s.Matches trail done) (valid : ∀ node ∈ nodes, g.Trail trail node)
    (deep : g.size < depth + trail.length) :
    Reached g s nodes trail (nodes.foldlM (g.visit depth trail) done) := by
  induction depth generalizing trail done nodes s with
  | zero =>
      cases nodes with
      | nil => exact .ok .nil agreed
      | cons node rest =>
          have short := (valid node List.mem_cons_self).length_le
          omega
  | succ depth ih =>
      induction nodes generalizing done s with
      | nil => exact .ok .nil agreed
      | cons node rest ihRest =>
          have here := valid node List.mem_cons_self
          have validRest : ∀ x ∈ rest, g.Trail trail x :=
            fun x member => valid x (List.mem_cons_of_mem _ member)
          rw [List.foldlM_cons, visit]
          by_cases known : node ∈ done
          · rw [if_pos known]
            have later := ihRest agreed validRest
            change Reached g s (node :: rest) trail (rest.foldlM (g.visit (depth + 1) trail) done)
            generalize rest.foldlM (g.visit (depth + 1) trail) done = result at later
            cases later with
            | ok visits agreed' => exact .ok (.again ((agreed.done node).mpr known) visits) agreed'
            | error visits => exact .error (.again ((agreed.done node).mpr known) visits)
          rw [if_neg known]
          by_cases again : node ∈ trail
          · rw [if_pos again]
            obtain ⟨before, after, rfl, new⟩ := List.eq_append_cons_of_mem again
            have apart : node ∉ after := (List.nodup_cons.mp (List.nodup_append.mp here.nodup).2.1).1
            change Reached g s (node :: rest) _ (.error (cycleOf _ node))
            rw [cycleOf_append new]
            have place : s.path = after.reverse ++ node :: before.reverse := by
              rw [agreed.path]
              simp
            have cycle : Visits g s (node :: rest) (.error (s.path.dropWhile (· ≠ node) ++ [node])) :=
              .cycle ((agreed.active node).mpr again) (by simp [place])
            rw [place, dropWhile_ne_append (by rwa [List.mem_reverse])] at cycle
            exact .error cycle
          rw [if_neg again]
          have fresh := agreed.fresh known again
          have trails : ∀ child ∈ g.children node, g.Trail (node :: trail) child :=
            fun child leads => here.cons again leads (closed node child leads)
          have below := ih (agreed.enter known) trails (by rw [List.length_cons]; omega)
          generalize (g.children node).foldlM (g.visit depth (node :: trail)) done = result at below
          cases below with
          | error visits => exact .error (.failed fresh visits)
          | @ok s' done' visits agreed' =>
              have later := ihRest (agreed'.leave again) validRest
              change Reached g s (node :: rest) trail
                (rest.foldlM (g.visit (depth + 1) trail) (node :: done'))
              generalize rest.foldlM (g.visit (depth + 1) trail) (node :: done') = result at later
              cases later with
              | ok visits' agreed'' => exact .ok (.passed fresh visits visits') agreed''
              | error visits' => exact .error (.passed fresh visits visits')

theorem Search.Matches.start : Search.start.Matches [] [] :=
  ⟨rfl, fun x => by simp [Search.start], fun x => by simp [Search.start]⟩

/-- The search from the root comes to what `cycle?` gives. -/
theorem visits_root (closed : g.IsClosed) (node : g.contains g.root = true) :
    ∃ result, Visits g .start [g.root] result ∧ g.cycle? = Search.report result := by
  have trails : ∀ x ∈ [g.root], g.Trail [] x := fun x member => by
    rw [List.mem_singleton.mp member]
    exact trail_root node
  have reached := reached_foldlM closed (g.size + 1) .start trails (by simp)
  rw [List.foldlM_cons] at reached
  rw [cycle?]
  cases ran : g.visit (g.size + 1) [] [] g.root with
  | error cycle =>
      rw [ran] at reached
      cases reached with
      | error visits => exact ⟨_, visits, rfl⟩
  | ok done =>
      rw [ran] at reached
      cases reached with
      | ok visits agreed => exact ⟨_, visits, rfl⟩

theorem isLoop_of_cycle?_eq_some (closed : g.IsClosed) (node : g.contains g.root = true)
    {cycle : List String} (reported : g.cycle? = some cycle) : IsLoop cycle := by
  obtain ⟨result, visits, same⟩ := visits_root closed node
  rw [reported] at same
  cases visits.leaves .start with
  | ok coherent path => cases same
  | error loop =>
      cases same
      exact loop

/-- The search for a cycle ends, with what `cycle?` gives and nothing else; it finds nothing exactly if
no node that the root leads to lies on a cycle; and what it reports is a cycle along the edges that the
root leads to, of at least two entries, of which the first and the last are the same and no other two. -/
theorem cycle_search_exact {root : String} {edges : List (String × String)}
    (built : Built root edges g) :
    (∃ result, Visits g .start [root] result ∧
      (∀ other, Visits g .start [root] other → other = result) ∧
      g.cycle? = Search.report result) ∧
    (g.cycle? = none ↔
      ¬ ∃ node, ReflTransGen (Joins edges) root node ∧ TransGen (Joins edges) node node) ∧
    ∀ cycle, g.cycle? = some cycle →
      2 ≤ cycle.length ∧ cycle.head? = cycle.getLast? ∧ cycle.dropLast.Nodup ∧
        cycle.IsChain (Joins edges) ∧ ∀ node ∈ cycle, ReflTransGen (Joins edges) root node := by
  have rooted := built.root_eq
  have closed := built.isClosed
  have node : g.contains g.root = true := rooted ▸ built.contains_root
  have leads := built.leads_eq
  refine ⟨?_, ⟨?_, ?_⟩, ?_⟩
  · obtain ⟨result, visits, same⟩ := visits_root closed node
    rw [rooted] at visits
    exact ⟨result, visits, fun other visits' => visits'.unique visits, same⟩
  · intro nothing cyclic
    obtain ⟨x, reached, loop⟩ := cyclic
    have ends := ends_of_cycle?_eq_none closed node nothing
    rw [rooted] at ends
    rw [← leads] at reached loop
    exact not_transGen_of_acc ends reached loop
  · intro acyclic
    cases reported : g.cycle? with
    | none => rfl
    | some cycle =>
        obtain ⟨x, middle, shape, reached, chain⟩ := isCycle_of_cycle?_eq_some closed node reported
        rw [leads, rooted] at reached
        rw [leads, shape] at chain
        exact absurd ⟨x, reached, transGen_of_isChain chain⟩ acyclic
  · intro cycle reported
    obtain ⟨x, middle, shape, reached, chain⟩ := isCycle_of_cycle?_eq_some closed node reported
    obtain ⟨y, others, shape', nodup⟩ := isLoop_of_cycle?_eq_some closed node reported
    rw [leads, rooted] at reached
    rw [leads] at chain
    have along : ∀ node ∈ cycle, ReflTransGen (Joins edges) root node := by
      apply chain.induction (ReflTransGen (Joins edges) root)
      · intro first second joined before
        exact before.tail joined
      · intro filled
        simpa [shape] using reached
    refine ⟨?_, ?_, ?_, chain, along⟩
    · simp [shape']
    · simp [shape', List.getLast?_cons]
    · rw [shape', ← List.cons_append, List.dropLast_concat]
      exact nodup

/-- A file that is included twice, a cycle that the root leads to and one that it does not lead to. -/
theorem cycle_search_exact_nested :
    let edges := [("alone", "alone"), ("main", "a"), ("main", "b"), ("a", "b"), ("main", "b"),
      ("b", "c"), ("c", "b")]
    (ofEdges "main" edges).cycle? = some ["b", "c", "b"] ∧
      ∃ node, ReflTransGen (Joins edges) "main" node ∧ TransGen (Joins edges) node node := by
  intro edges
  have exact := cycle_search_exact (built_ofEdges "main" edges)
  have found : (ofEdges "main" edges).cycle? = some ["b", "c", "b"] := by decide +kernel
  refine ⟨found, ?_⟩
  by_contra acyclic
  rw [exact.2.1.mpr acyclic] at found
  cases found

end DawnC.IncludeGraph
