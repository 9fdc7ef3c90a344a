import DawnC.Proofs.Include.Discovery
import Mathlib.Data.List.Chain

set_option autoImplicit false

namespace DawnC

open Relation (ReflTransGen TransGen)

/-- A way along the relation from an element back to it, which the root leads to. -/
def IsCycle (R : String → String → Prop) (root : String) (cycle : List String) : Prop :=
  ∃ x middle, cycle = x :: (middle ++ [x]) ∧ ReflTransGen R root x ∧ cycle.IsChain R

theorem IsCycle.mono {R S : String → String → Prop} {root : String} {cycle : List String}
    (found : IsCycle R root cycle) (imp : ∀ x y, R x y → S x y) : IsCycle S root cycle := by
  obtain ⟨x, middle, shape, reached, chain⟩ := found
  exact ⟨x, middle, shape, ReflTransGen.mono imp _ _ reached, chain.imp imp⟩

theorem transGen_of_isChain {R : String → String → Prop} {x y : String} {middle : List String}
    (chain : (x :: (middle ++ [y])).IsChain R) : TransGen R x y := by
  induction middle generalizing x with
  | nil => exact .single (List.isChain_cons_cons.mp chain).1
  | cons z rest ih =>
      obtain ⟨step, tail⟩ := List.isChain_cons_cons.mp chain
      exact .head step (ih tail)

/-- Nothing comes back to where a way along the relation must end. -/
theorem not_transGen_of_acc {R : String → String → Prop} {root x : String}
    (ends : Acc (Function.swap R) root) (reached : ReflTransGen R root x) : ¬ TransGen R x x := by
  have below : Acc (Function.swap R) x := by
    induction reached with
    | refl => exact ends
    | tail _ step ih => exact ih.inv step
  have irreflexive {y : String} (acc : Acc (TransGen (Function.swap R)) y) :
      ¬ TransGen (Function.swap R) y y := by
    induction acc with
    | intro y _ ih => exact fun loop => ih y loop loop
  exact fun loop => irreflexive below.transGen (Relation.transGen_swap.mpr loop)

def Store.inOrder (s : Store) : List String → Bool
  | [] => true
  | path :: rest => s.readsWithin rest path && s.inOrder rest

theorem Store.readsWithin_of_inOrder {s : Store} {files : List String}
    (ordered : s.inOrder files = true) : ∀ path ∈ files, s.readsWithin files path = true := by
  induction files with
  | nil => simp
  | cons first rest ih =>
      rw [inOrder, Bool.and_eq_true] at ordered
      have wider {path : String} (reads : s.readsWithin rest path = true) :
          s.readsWithin (first :: rest) path = true := by
        obtain ⟨within, readable⟩ := readsWithin_iff.mp reads
        exact readsWithin_iff.mpr
          ⟨fun included step => List.mem_cons_of_mem _ (within included step), readable⟩
      intro path member
      rcases List.mem_cons.mp member with rfl | behind
      · exact wider ordered.1
      · exact wider (ih ordered.2 path behind)

theorem Store.not_cyclic_of_inOrder {s : Store} {root : String} {files : List String}
    (ordered : s.inOrder files = true) (rooted : s.rootPath root ∈ files) : ¬ s.Cyclic root := by
  have ends : ∀ path ∈ files, Acc (Function.swap s.Includes) path := by
    clear rooted
    induction files with
    | nil => simp
    | cons first rest ih =>
        rw [inOrder, Bool.and_eq_true] at ordered
        have later := ih ordered.2
        intro path member
        rcases List.mem_cons.mp member with rfl | behind
        · exact Acc.intro path fun included step =>
            later included ((readsWithin_iff.mp ordered.1).1 included step)
        · exact later path behind
  rintro ⟨path, reached, loop⟩
  exact not_transGen_of_acc (ends _ rooted) reached loop

namespace IncludeGraph

variable {g : IncludeGraph}

def Leads (g : IncludeGraph) (source target : String) : Prop := target ∈ g.children source

def IsClosed (g : IncludeGraph) : Prop :=
  ∀ path, ∀ target ∈ g.children path, g.contains target = true

/-- Every way from the node ends. -/
def Ends (g : IncludeGraph) (path : String) : Prop := Acc (Function.swap g.Leads) path

/-- The node is visited under the nodes of the trail, the last of them first. -/
structure Trail (g : IncludeGraph) (trail : List String) (path : String) : Prop where
  chain : (path :: trail).IsChain (Function.swap g.Leads)
  nodup : trail.Nodup
  nodes : ∀ x ∈ path :: trail, g.contains x = true
  reached : ReflTransGen g.Leads g.root path

theorem Trail.length_le {trail : List String} {path : String} (valid : g.Trail trail path) :
    trail.length ≤ g.size := by
  have inside : trail ⊆ g.nodes.map Prod.fst :=
    fun x member => contains_iff.mp (valid.nodes x (List.mem_cons_of_mem _ member))
  have bound := (valid.nodup.subperm inside).length_le
  rwa [List.length_map] at bound

theorem Trail.cons {trail : List String} {path child : String} (valid : g.Trail trail path)
    (new : path ∉ trail) (leads : g.Leads path child) (node : g.contains child = true) :
    g.Trail (path :: trail) child where
  chain := List.isChain_cons_cons.mpr ⟨leads, valid.chain⟩
  nodup := List.nodup_cons.mpr ⟨new, valid.nodup⟩
  nodes := fun x member => by
    rcases List.mem_cons.mp member with rfl | earlier
    · exact node
    · exact valid.nodes x earlier
  reached := valid.reached.tail leads

/-- The way back starts at the last time the node was met. -/
theorem cycleOf_append {path : String} {before : List String} (new : path ∉ before)
    (rest : List String) :
    cycleOf (before ++ path :: rest) path = path :: (before.reverse ++ [path]) := by
  have cut : (before ++ path :: rest).takeWhile (· ≠ path) = before := by
    have apart : ∀ x ∈ before, decide (x ≠ path) = true := by
      intro x member
      rw [decide_eq_true_eq]
      rintro rfl
      exact new member
    rw [List.takeWhile_append_of_pos apart]
    simp
  rw [cycleOf, cut, List.cons_append]

/-- A node that is met again on its own trail closes a cycle. -/
theorem Trail.isCycle {trail : List String} {path : String} (valid : g.Trail trail path)
    (again : path ∈ trail) : IsCycle g.Leads g.root (cycleOf trail path) := by
  obtain ⟨before, rest, rfl, new⟩ := List.eq_append_cons_of_mem again
  rw [cycleOf_append new]
  refine ⟨path, before.reverse, rfl, valid.reached, ?_⟩
  have back := valid.chain
  rw [← List.cons_append, List.isChain_split] at back
  have forward := List.isChain_reverse.mpr back.1
  simpa using forward

/-- What is known after visits to `paths`: they lead into no cycle, or a cycle was found. -/
inductive Visited (g : IncludeGraph) (done paths : List String) :
    Except (List String) (List String) → Prop where
  | ok {done' : List String} (kept : done ⊆ done') (visited : paths ⊆ done')
      (ends : ∀ x ∈ done', g.Ends x) : Visited g done paths (.ok done')
  | error {cycle : List String} (found : IsCycle g.Leads g.root cycle) :
      Visited g done paths (.error cycle)

theorem visited_foldlM {visit : List String → String → Except (List String) (List String)}
    {paths : List String} {done : List String} (ends : ∀ x ∈ done, g.Ends x)
    (one : ∀ path ∈ paths, ∀ done, (∀ x ∈ done, g.Ends x) →
      g.Visited done [path] (visit done path)) :
    g.Visited done paths (paths.foldlM visit done) := by
  induction paths generalizing done with
  | nil => exact .ok (List.Subset.refl _) (List.nil_subset _) ends
  | cons path rest ih =>
      have first := one path List.mem_cons_self done ends
      rw [List.foldlM_cons]
      generalize visit done path = result at first
      cases first with
      | error found => exact .error found
      | @ok next kept visited ends' =>
          have later := ih ends' fun x member => one x (List.mem_cons_of_mem _ member)
          change g.Visited done (path :: rest) (rest.foldlM visit next)
          generalize rest.foldlM visit next = result at later
          cases later with
          | error found => exact .error found
          | ok kept' visited' ends'' =>
              refine .ok (List.Subset.trans kept kept') ?_ ends''
              exact List.cons_subset.mpr ⟨kept' (visited List.mem_cons_self), visited'⟩

/-- A trail has no node twice, so a visit always has a level left. -/
theorem visit_visited (closed : g.IsClosed) (depth : Nat) {trail done : List String}
    {path : String} (valid : g.Trail trail path) (deep : g.size < depth + trail.length)
    (ends : ∀ x ∈ done, g.Ends x) :
    g.Visited done [path] (g.visit depth trail done path) := by
  induction depth generalizing trail done path with
  | zero =>
      have short := valid.length_le
      omega
  | succ depth ih =>
      rw [visit]
      by_cases known : path ∈ done
      · rw [if_pos known]
        exact .ok (List.Subset.refl _) (by simpa using known) ends
      · rw [if_neg known]
        by_cases again : path ∈ trail
        · rw [if_pos again]
          exact .error (valid.isCycle again)
        · rw [if_neg again]
          have below : g.Visited done (g.children path)
              ((g.children path).foldlM (g.visit depth (path :: trail)) done) := by
            refine visited_foldlM ends fun child leads done' ends' => ?_
            refine ih (valid.cons again leads (closed path child leads)) ?_ ends'
            rw [List.length_cons]
            omega
          generalize (g.children path).foldlM (g.visit depth (path :: trail)) done = result at below
          cases below with
          | error found => exact .error found
          | ok kept visited ends' =>
              refine .ok (List.Subset.trans kept (List.subset_cons_self _ _)) (by simp) ?_
              intro x member
              rcases List.mem_cons.mp member with rfl | earlier
              · exact Acc.intro x fun child leads => ends' child (visited leads)
              · exact ends' x earlier

theorem trail_root (node : g.contains g.root = true) : g.Trail [] g.root where
  chain := List.isChain_singleton _
  nodup := List.nodup_nil
  nodes := fun x member => by rwa [List.mem_singleton.mp member]
  reached := .refl

/-- The search from the root tells whether all ways end. -/
theorem visited_root (closed : g.IsClosed) (node : g.contains g.root = true) :
    g.Visited [] [g.root] (g.visit (g.size + 1) [] [] g.root) :=
  visit_visited closed _ (trail_root node) (by simp) (fun x absent => absurd absent List.not_mem_nil)

theorem ends_of_cycle?_eq_none (closed : g.IsClosed) (node : g.contains g.root = true)
    (nothing : g.cycle? = none) : g.Ends g.root := by
  have visited := visited_root closed node
  rw [cycle?] at nothing
  split at nothing
  · rename_i done ran
    rw [ran] at visited
    cases visited with
    | ok _ inside ends => exact ends _ (inside List.mem_cons_self)
  · cases nothing

theorem isCycle_of_cycle?_eq_some (closed : g.IsClosed) (node : g.contains g.root = true)
    {cycle : List String} (reported : g.cycle? = some cycle) : IsCycle g.Leads g.root cycle := by
  have visited := visited_root closed node
  rw [cycle?] at reported
  split at reported
  · cases reported
  · rename_i found ran
    rw [ran] at visited
    cases reported
    cases visited with
    | error found => exact found

end IncludeGraph

namespace Discovered

variable {s : Store} {root : String} {d : Discovery}

theorem mem_keys_of_leads (found : Discovered s root d) {path target : String}
    (leads : d.graph.Leads path target) : path ∈ d.keys := by
  by_contra unknown
  have absent : d.graph.nodes.lookup path = none := by
    rwa [lookup_none_iff_not_mem, ← IncludeGraph.contains_iff, found.nodes]
  rw [IncludeGraph.Leads, IncludeGraph.children, absent] at leads
  cases leads

theorem includes_of_leads (found : Discovered s root d) {path target : String}
    (leads : d.graph.Leads path target) : s.Includes path target :=
  ((found.records path (found.mem_keys_of_leads leads)).mem_children target).mp leads

theorem closed (found : Discovered s root d) : d.graph.IsClosed := by
  intro path target leads
  have reached := (found.keys path).mp (found.mem_keys_of_leads leads)
  rw [found.nodes, found.keys]
  exact reached.tail (found.includes_of_leads leads)

theorem node_root (found : Discovered s root d) : d.graph.contains d.graph.root = true := by
  rw [found.nodes, found.keys, found.rooted]
  exact .refl

/-- What is reported is a cycle among the files. -/
theorem isCycle (found : Discovered s root d) {cycle : List String}
    (reported : d.graph.cycle? = some cycle) : IsCycle s.Includes (s.rootPath root) cycle := by
  have inGraph := IncludeGraph.isCycle_of_cycle?_eq_some found.closed found.node_root reported
  rw [found.rooted] at inGraph
  exact inGraph.mono fun _ _ => found.includes_of_leads

/-- What ends in the graph ends among the files. -/
theorem acc_of_ends (found : Discovered s root d) {path : String} (ends : d.graph.Ends path)
    (reached : s.Reaches root path) : Acc (Function.swap s.Includes) path := by
  induction ends with
  | intro path _ ih =>
      refine Acc.intro path fun target included => ?_
      have leads := ((found.records path ((found.keys path).mpr reached)).mem_children target).mpr
        included
      exact ih target leads (reached.tail included)

/-- A cycle is found exactly if there is one. -/
theorem cycle?_eq_none_iff (found : Discovered s root d) :
    d.graph.cycle? = none ↔ ¬ s.Cyclic root := by
  constructor
  · rintro nothing ⟨path, reached, loop⟩
    have ends := IncludeGraph.ends_of_cycle?_eq_none found.closed found.node_root nothing
    rw [found.rooted] at ends
    exact not_transGen_of_acc (found.acc_of_ends ends .refl) reached loop
  · intro acyclic
    cases result : d.graph.cycle? with
    | none => rfl
    | some cycle =>
        obtain ⟨x, middle, rfl, reached, chain⟩ := found.isCycle result
        exact absurd ⟨x, reached, transGen_of_isChain chain⟩ acyclic

end Discovered

end DawnC
