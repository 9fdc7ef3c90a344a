import DawnC.Proofs.Include.Relation

set_option autoImplicit false

namespace DawnC

/-- In the store, the action gives `a` and only tells events. -/
def Gives {α : Type} (s : Store) (action : Action α) (a : α) : Prop :=
  ∀ events, ∃ events', action.run ⟨s, events⟩ = (.ok a, ⟨s, events'⟩)

namespace Gives

variable {α β : Type} {s : Store}

theorem pure (a : α) : Gives s (Pure.pure a) a := fun events => ⟨events, rfl⟩

theorem bind {x : Action α} {f : α → Action β} {a : α} {b : β} (first : Gives s x a)
    (second : Gives s (f a) b) : Gives s (x >>= f) b := by
  intro events
  obtain ⟨middle, ran⟩ := first events
  obtain ⟨after, ran'⟩ := second middle
  refine ⟨after, ?_⟩
  rw [Attempt.run_bind, ran]
  exact ran'

theorem tryCatch {x : Action α} {a : α} (tried : Gives s x a) (handle : Fault → Action α) :
    Gives s (MonadExcept.tryCatch x handle) a := by
  intro events
  obtain ⟨after, ran⟩ := tried events
  refine ⟨after, ?_⟩
  rw [Attempt.run_tryCatch, ran]

theorem tell (event : Event) : Gives s (Action.tell event) () := fun _ => ⟨_, rfl⟩

theorem store : Gives s Action.store s := fun events => ⟨events, rfl⟩

end Gives

/-- Changing the values under one key changes what is found there and nothing else. -/
theorem lookup_adjusted {α : Type} (list : List (String × α)) (key : String) (f : α → α)
    (x : String) :
    (list.map fun e => if e.1 = key then (e.1, f e.2) else e).lookup x =
      if x = key then (list.lookup x).map f else list.lookup x := by
  induction list with
  | nil => simp
  | cons e rest ih =>
      obtain ⟨name, value⟩ := e
      rw [List.map_cons]
      by_cases here : x = name
      · subst here
        by_cases same : x = key
        · simp [same]
        · simp [same]
      · have absent : (x == name) = false := by simpa using here
        split
        · simpa only [List.lookup_cons, absent] using ih
        · simpa only [List.lookup_cons, absent] using ih

theorem lookup_none_iff_not_mem {κ α : Type} [DecidableEq κ] {list : List (κ × α)} {key : κ} :
    list.lookup key = none ↔ key ∉ list.map Prod.fst := by
  rw [List.lookup_eq_none_iff, List.mem_map]
  constructor
  · rintro other ⟨e, member, rfl⟩
    exact absurd (other e member) (by simp)
  · intro absent e member
    rw [bne_iff_ne]
    rintro rfl
    exact absent ⟨e, member, rfl⟩

namespace IncludeGraph

variable {g : IncludeGraph} {path : String}

theorem contains_iff : g.contains path = true ↔ path ∈ g.nodes.map Prod.fst := by
  rw [contains, List.any_eq_true, List.mem_map]
  simp only [decide_eq_true_eq]

theorem contains_addNode (target : String) :
    (g.addNode target).contains path = true ↔ path = target ∨ g.contains path = true := by
  rw [addNode]
  split
  · rename_i known
    exact ⟨Or.inr, fun either => either.elim (fun same => same ▸ known) id⟩
  · simp [contains_iff, or_comm]

theorem contains_addEdge (source target : String) :
    (g.addEdge source target).contains path = g.contains path := by
  have keys : (g.addEdge source target).nodes.map Prod.fst = g.nodes.map Prod.fst := by
    rw [addEdge, List.map_map]
    refine List.map_congr_left fun n _ => ?_
    simp only [Function.comp]
    split <;> rfl
  rw [Bool.eq_iff_iff, contains_iff, contains_iff, keys]

theorem root_addNode (target : String) : (g.addNode target).root = g.root := by
  rw [addNode]
  split <;> rfl

theorem children_addNode (target : String) : (g.addNode target).children path = g.children path := by
  rw [addNode]
  split
  · rfl
  · simp only [children, List.lookup_append]
    by_cases same : path = target
    · subst same
      have absent : g.nodes.lookup path = none := by
        rwa [lookup_none_iff_not_mem, ← contains_iff]
      simp [absent]
    · have apart : (path == target) = false := by simpa using same
      simp [List.lookup_cons, apart]

theorem children_addEdge {source : String} (known : g.contains source = true) (target : String) :
    (g.addEdge source target).children path =
      if path = source then g.children path ++ [target] else g.children path := by
  rw [children, addEdge, lookup_adjusted g.nodes source (· ++ [target]), children]
  split
  · rename_i same
    subst same
    have there : g.nodes.lookup path ≠ none := by
      rwa [ne_eq, lookup_none_iff_not_mem, not_not, ← contains_iff]
    obtain ⟨found, there⟩ := Option.ne_none_iff_exists'.mp there
    rw [there]
    rfl
  · rfl

end IncludeGraph

namespace Discovery

def keys (d : Discovery) : List String := d.sources.map Prod.fst

def entry (d : Discovery) (path : String) : Option Source × List String :=
  (d.sources.lookup path, d.graph.children path)

def including (new : List (Nat × String)) (entry : Option Source × List String) :
    Option Source × List String :=
  (entry.1.map fun source => { source with includes := source.includes ++ new },
    entry.2 ++ new.map Prod.snd)

@[simp] theorem including_nil (entry : Option Source × List String) : including [] entry = entry := by
  simp [including]

theorem including_append (first second : List (Nat × String)) (entry : Option Source × List String) :
    including second (including first entry) = including (first ++ second) entry := by
  simp [including, Function.comp_def]

variable {d : Discovery} {path : String}

@[simp] theorem graph_addSource (atoms : List Atom) : (d.addSource path atoms).graph = d.graph := rfl

@[simp] theorem keys_addSource (atoms : List Atom) :
    (d.addSource path atoms).keys = d.keys ++ [path] := by
  simp [keys, addSource]

@[simp] theorem keys_addInclude (index : Nat) (target : String) :
    (d.addInclude path index target).keys = d.keys := by
  rw [keys, addInclude, List.map_map]
  refine List.map_congr_left fun e _ => ?_
  simp only [Function.comp]
  split <;> rfl

theorem entry_addSource (new : path ∉ d.keys) (atoms : List Atom) (x : String) :
    (d.addSource path atoms).entry x =
      if x = path then (some { atoms }, d.graph.children x) else d.entry x := by
  simp only [entry, addSource, List.lookup_append]
  split
  · rename_i same
    subst same
    rw [lookup_none_iff_not_mem.mpr new]
    simp
  · rename_i apart
    have apart : (x == path) = false := by simpa using apart
    simp [List.lookup_cons, apart]

theorem entry_addInclude (known : d.graph.contains path = true) (index : Nat)
    (target x : String) :
    (d.addInclude path index target).entry x =
      if x = path then including [(index, target)] (d.entry x) else d.entry x := by
  have node : (d.graph.addNode target).contains path = true :=
    (IncludeGraph.contains_addNode target).mpr (Or.inr known)
  simp only [entry, addInclude, IncludeGraph.children_addEdge node, IncludeGraph.children_addNode,
    lookup_adjusted d.sources path
      (fun source => { source with includes := source.includes ++ [(index, target)] })]
  split
  · rfl
  · rfl

theorem contains_addInclude (index : Nat) (target x : String) :
    (d.addInclude path index target).graph.contains x = true ↔
      x = target ∨ d.graph.contains x = true := by
  rw [addInclude, IncludeGraph.contains_addEdge, IncludeGraph.contains_addNode]

end Discovery

/-- The files that the directives among lines of `path` mean, each with the index of its directive. -/
def includesFrom (path : String) (index : Nat) : List Bytes → List (Nat × String)
  | [] => []
  | line :: rest =>
    (directive? line).toList.map (fun target => (index, includedPath path target)) ++
      includesFrom path (index + (atomsOf line).length) rest

theorem atomsOf_directive {line : Bytes} {target : String}
    (directive : directive? line = some target) :
    ∃ keyword quoted, atomsOf line = [keyword, quoted] ∧ keyword.isInclude = true ∧
      quoted.kind = .string ∧ unquoted quoted.text = target := by
  rw [directive?] at directive
  split at directive
  · rename_i keyword quoted atoms
    split at directive
    · rename_i valid
      simp only [Bool.and_eq_true, decide_eq_true_eq] at valid
      cases directive
      exact ⟨keyword, quoted, atoms, valid.1, valid.2, rfl⟩
    · cases directive
  · cases directive

theorem isInclude_of_string {a : Atom} (quoted : a.kind = .string) : a.isInclude = false := by
  simp [Atom.isInclude, Atom.is, quoted]

theorem isInclude_moved (file : String) (line stmt : Int) (a : Atom) :
    (a.moved file line stmt).isInclude = a.isInclude := rfl

variable {s : Store} {root : String}

theorem gives_resolveTarget (fetcher : Option Fetcher) {path target : String}
    (named : target ≠ "") (isLocal : Reference.looksRemote target = false)
    (isFile : s.isFile (targetPath path target) = true) :
    Gives s (resolveTarget fetcher path target)
      (includedPath path target, includedPath path target) := by
  intro events
  refine ⟨events, ?_⟩
  rw [Store.isFile] at isFile
  split at isFile
  case h_2 => cases isFile
  rename_i contents executable found
  rw [targetPath] at found
  simp [resolveTarget, named, isLocal, Attempt.run_bind, Action.store, found, includedPath,
    targetPath]

/-- What is kept of the file is what its lines say. -/
def Records (s : Store) (root : String) (d : Discovery) (path : String) : Prop :=
  ∃ lines, s.readLines path = .ok lines ∧
    d.entry path = (some ⟨lex (s.label root path) lines, includesFrom path 0 lines⟩,
      (includesFrom path 0 lines).map Prod.snd)

/-- The files met are those that were read and those of `pending`, and all can be reached. -/
structure Sound (s : Store) (root : String) (pending : List String) (d : Discovery) : Prop where
  rooted : d.graph.root = s.rootPath root
  met : d.graph.contains (s.rootPath root) = true
  nodes : ∀ path, d.graph.contains path = true ↔ path ∈ pending ∨ path ∈ d.keys
  nodup : d.keys.Nodup
  reached : ∀ path ∈ d.keys, s.Reaches root path
  closed : ∀ path, ∀ target ∈ d.graph.children path, d.graph.contains target = true

/-- Discovery went on: more directives of one file were followed, and the files read meanwhile are
kept as their lines say. -/
structure Extends (s : Store) (root path : String) (new : List (Nat × String)) (d d' : Discovery) :
    Prop where
  more : d.keys <+: d'.keys
  old : ∀ x ∈ d.keys,
    d'.entry x = if x = path then Discovery.including new (d.entry x) else d.entry x
  fresh : ∀ x ∈ d'.keys, x ∉ d.keys → Records s root d' x

namespace Extends

variable {path : String} {first second : List (Nat × String)} {d d' d'' : Discovery}

theorem refl (path : String) (d : Discovery) : Extends s root path [] d d := by
  refine ⟨List.prefix_refl _, fun x _ => ?_, fun x member absent => absurd member absent⟩
  rw [Discovery.including_nil, ite_self]

theorem trans (before : Extends s root path first d d') (member : path ∈ d.keys)
    (after : Extends s root path second d' d'') : Extends s root path (first ++ second) d d'' := by
  refine ⟨before.more.trans after.more, fun x inside => ?_, fun x inside absent => ?_⟩
  · rw [after.old x (before.more.subset inside), before.old x inside]
    split
    · rw [Discovery.including_append]
    · rfl
  · by_cases known : x ∈ d'.keys
    · have other : x ≠ path := by
        rintro rfl
        exact absent member
      obtain ⟨lines, read, entry⟩ := before.fresh x known absent
      refine ⟨lines, read, ?_⟩
      rw [after.old x known, if_neg other, entry]
    · exact after.fresh x inside known

end Extends

/-- A file that was met and is to be read now. -/
structure Ready (s : Store) (root path : String) (d : Discovery) : Prop where
  sound : Sound s root [path] d
  new : path ∉ d.keys
  leaf : d.graph.children path = []
  reached : s.Reaches root path

section Steps

variable {path target : String} {index : Nat} {d d' : Discovery}

theorem Sound.settled (sound : Sound s root [target] d) (known : target ∈ d.keys) :
    Sound s root [] d := by
  refine { sound with nodes := fun x => ?_ }
  rw [sound.nodes x, List.mem_singleton]
  constructor
  · rintro (rfl | member)
    · exact Or.inr known
    · exact Or.inr member
  · rintro (absent | member)
    · cases absent
    · exact Or.inr member

theorem Sound.contains_of_mem {pending : List String} (sound : Sound s root pending d)
    (member : path ∈ d.keys) : d.graph.contains path = true :=
  (sound.nodes path).mpr (Or.inr member)

theorem Sound.addInclude (sound : Sound s root [] d) (member : path ∈ d.keys) (index : Nat)
    (target : String) : Sound s root [target] (d.addInclude path index target) where
  rooted := (IncludeGraph.root_addNode target).trans sound.rooted
  met := (Discovery.contains_addInclude ..).mpr (Or.inr sound.met)
  nodes := fun x => by
    rw [Discovery.contains_addInclude, sound.nodes, Discovery.keys_addInclude]
    simp
  nodup := by
    rw [Discovery.keys_addInclude]
    exact sound.nodup
  reached := by
    rw [Discovery.keys_addInclude]
    exact sound.reached
  closed := fun x child inside => by
    rw [Discovery.contains_addInclude]
    have entry := Discovery.entry_addInclude (sound.contains_of_mem member) index target x
    have children := congrArg Prod.snd entry
    simp only [Discovery.entry] at children
    rw [children] at inside
    split at inside
    · rcases List.mem_append.mp inside with earlier | last
      · exact Or.inr (sound.closed x child earlier)
      · exact Or.inl (List.mem_singleton.mp last)
    · exact Or.inr (sound.closed x child inside)

theorem Extends.addInclude (known : d.graph.contains path = true) (index : Nat) (target : String) :
    Extends s root path [(index, target)] d (d.addInclude path index target) := by
  refine ⟨?_, fun x _ => Discovery.entry_addInclude known index target x, fun x inside absent => ?_⟩
  · simp only [Discovery.keys_addInclude, List.prefix_refl]
  · rw [Discovery.keys_addInclude] at inside
    exact absurd inside absent

/-- Where no directive is new, it does not matter of which file it would be. -/
theorem Extends.of_nil {other : String} (extended : Extends s root other [] d d') :
    Extends s root path [] d d' := by
  refine { extended with old := fun x member => ?_ }
  have old := extended.old x member
  rw [Discovery.including_nil, ite_self] at old ⊢
  exact old

theorem Sound.addSource (ready : Ready s root path d) (atoms : List Atom) :
    Sound s root [] (d.addSource path atoms) where
  rooted := ready.sound.rooted
  met := ready.sound.met
  nodes := fun x => by
    rw [Discovery.keys_addSource, List.mem_append, Discovery.graph_addSource, ready.sound.nodes]
    simp [or_comm]
  nodup := by
    rw [Discovery.keys_addSource]
    exact List.nodup_append.mpr ⟨ready.sound.nodup, List.nodup_singleton _, by
      rintro x inside y single rfl
      exact ready.new (List.mem_singleton.mp single ▸ inside)⟩
  reached := fun x member => by
    rw [Discovery.keys_addSource, List.mem_append, List.mem_singleton] at member
    rcases member with earlier | rfl
    · exact ready.sound.reached x earlier
    · exact ready.reached
  closed := ready.sound.closed

theorem Extends.of_addSource (ready : Ready s root path d) {lines : List Bytes}
    (read : s.readLines path = .ok lines)
    (followed : Extends s root path (includesFrom path 0 lines)
      (d.addSource path (lex (s.label root path) lines)) d') :
    Extends s root path [] d d' := by
  have keys : (d.addSource path (lex (s.label root path) lines)).keys = d.keys ++ [path] :=
    Discovery.keys_addSource _
  have entry := Discovery.entry_addSource ready.new (lex (s.label root path) lines)
  refine ⟨?_, fun x inside => ?_, fun x inside absent => ?_⟩
  · exact (keys ▸ List.prefix_append _ _).trans followed.more
  · have other : x ≠ path := by
      rintro rfl
      exact ready.new inside
    rw [followed.old x (keys ▸ List.mem_append_left _ inside), if_neg other, entry, if_neg other,
      if_neg other]
  · by_cases same : x = path
    · subst same
      refine ⟨lines, read, ?_⟩
      rw [followed.old x (keys ▸ List.mem_append_right _ List.mem_cons_self), if_pos rfl, entry,
        if_pos rfl, ready.leaf]
      rfl
    · refine followed.fresh x inside fun member => ?_
      rw [keys, List.mem_append, List.mem_singleton] at member
      exact member.elim absent same

end Steps

/-- What reading a file with this many levels left does. -/
def Enters (s : Store) (root : String) (depth : Nat)
    (enter : String → String → Discovery → Action Discovery) : Prop :=
  ∀ path d, Ready s root path d → depthLimit ≤ depth + d.keys.length →
    ∃ d', Gives s (enter path (s.label root path) d) d' ∧ Sound s root [] d' ∧
      Extends s root path [] d d'

section Follow

variable {enter : String → String → Discovery → Action Discovery} {depth : Nat} {path : String}
  (fetcher : Option Fetcher)

theorem followIncludes_text (display : String) (index : Nat) {a : Atom}
    (text : a.isInclude = false) (rest : List Atom) (d : Discovery) :
    followIncludes fetcher enter path display index (a :: rest) d =
      followIncludes fetcher enter path display (index + 1) rest d := by
  rw [followIncludes.eq_def]
  simp only [text, Bool.not_false, if_true]

/-- A directive is resolved, the file it means is read if need be, and its path is passed over. -/
theorem followIncludes_directive (display : String) (index : Nat) {keyword quoted : Atom}
    (isInclude : keyword.isInclude = true) (kind : quoted.kind = .string) (rest : List Atom)
    {d d₁ d₂ : Discovery} {target : String}
    (resolved : Gives s (resolveTarget fetcher path (unquoted quoted.text)) (target, target))
    (entering : Gives s
      (if d.graph.contains target = true then pure (d.addInclude path index target)
        else enter target target (d.addInclude path index target)) d₁)
    (following : Gives s (followIncludes fetcher enter path display (index + 2) rest d₁) d₂) :
    Gives s (followIncludes fetcher enter path display index (keyword :: quoted :: rest) d) d₂ := by
  rw [followIncludes.eq_def]
  simp only [isInclude, Bool.not_true, Bool.false_eq_true, if_false]
  refine Gives.bind (Gives.tryCatch resolved _) ?_
  refine Gives.bind (Gives.tell _) ?_
  rw [← followIncludes_text fetcher display (index + 1) (isInclude_of_string kind)] at following
  split at entering
  · rw [if_pos ‹_›]
    exact Gives.bind entering following
  · rw [if_neg ‹_›]
    exact Gives.bind entering following

theorem followIncludes_append (display : String) (index : Nat) {atoms : List Atom}
    (text : ∀ a ∈ atoms, a.isInclude = false) (rest : List Atom) (d : Discovery) :
    followIncludes fetcher enter path display index (atoms ++ rest) d =
      followIncludes fetcher enter path display (index + atoms.length) rest d := by
  induction atoms generalizing index with
  | nil => rfl
  | cons a more ih =>
      rw [List.cons_append, followIncludes_text fetcher display index (text a List.mem_cons_self),
        ih (index + 1) fun b member => text b (List.mem_cons_of_mem _ member), List.length_cons,
        Nat.add_right_comm, Nat.add_assoc]

/-- A file that a directive means is read if it was not met before. -/
theorem Enters.target (entered : Enters s root depth enter) {target : String} (index : Nat)
    {d : Discovery} (sound : Sound s root [] d) (member : path ∈ d.keys)
    (reached : s.Reaches root target) (deep : depthLimit ≤ depth + d.keys.length) :
    ∃ d', Gives s
        (if d.graph.contains target = true then pure (d.addInclude path index target)
          else enter target target (d.addInclude path index target)) d' ∧
      Sound s root [] d' ∧ Extends s root path [(index, target)] d d' := by
  have open_sound := sound.addInclude member index target
  have extended : Extends s root path [(index, target)] d (d.addInclude path index target) :=
    .addInclude (sound.contains_of_mem member) index target
  by_cases known : d.graph.contains target = true
  · rw [if_pos known]
    refine ⟨_, .pure _, open_sound.settled ?_, extended⟩
    rw [Discovery.keys_addInclude]
    exact ((sound.nodes target).mp known).resolve_left List.not_mem_nil
  · rw [if_neg known]
    have new : target ∉ d.keys := fun inside => known (sound.contains_of_mem inside)
    have other : target ≠ path := by
      rintro rfl
      exact new member
    have included : target ≠ s.rootPath root := by
      rintro rfl
      exact known sound.met
    have leaf : (d.addInclude path index target).graph.children target = [] := by
      have entry :=
        Discovery.entry_addInclude (sound.contains_of_mem member) index target target
      rw [if_neg other] at entry
      have children : _ = d.graph.children target := congrArg Prod.snd entry
      rw [IncludeGraph.contains_iff, ← lookup_none_iff_not_mem] at known
      rw [IncludeGraph.children, known] at children
      exact children
    have ready : Ready s root target (d.addInclude path index target) :=
      ⟨open_sound, by rwa [Discovery.keys_addInclude], leaf, reached⟩
    obtain ⟨d', gives, sound', extended'⟩ :=
      entered target _ ready (by rwa [Discovery.keys_addInclude])
    rw [Store.label, if_neg included] at gives
    exact ⟨d', gives, sound', extended.trans member extended'.of_nil⟩

/-- The directives among the lines of a file are followed one after another. -/
theorem followIncludes_extends (entered : Enters s root depth enter) {lines : List Bytes}
    (tidy : ∀ line ∈ lines, s.isTidy path line = true)
    (reached : ∀ line ∈ lines, ∀ target, directive? line = some target →
      s.Reaches root (includedPath path target))
    (index : Nat) (file : String) (line stmt : Int) {d : Discovery} (sound : Sound s root [] d)
    (member : path ∈ d.keys) (deep : depthLimit ≤ depth + d.keys.length) :
    ∃ d', Gives s
        (followIncludes fetcher enter path file index (atomsFrom file line stmt lines) d) d' ∧
      Sound s root [] d' ∧ Extends s root path (includesFrom path index lines) d d' := by
  induction lines generalizing index line stmt d with
  | nil => exact ⟨d, .pure d, sound, .refl path d⟩
  | cons first rest ih =>
      have tidy_rest : ∀ line ∈ rest, s.isTidy path line = true :=
        fun line inside => tidy line (List.mem_cons_of_mem _ inside)
      have reached_rest : ∀ line ∈ rest, ∀ target, directive? line = some target →
          s.Reaches root (includedPath path target) :=
        fun line inside => reached line (List.mem_cons_of_mem _ inside)
      have here := tidy first List.mem_cons_self
      rw [atomsFrom, includesFrom]
      cases directive : directive? first with
      | none =>
          simp only [Store.isTidy, directive] at here
          have text : ∀ a ∈ (atomsOf first).map (Atom.moved file line stmt), a.isInclude = false := by
            intro a inside
            obtain ⟨b, original, rfl⟩ := List.mem_map.mp inside
            rw [isInclude_moved]
            simpa using List.all_eq_true.mp here b original
          rw [followIncludes_append fetcher file index text, List.length_map]
          exact ih tidy_rest reached_rest _ _ _ sound member deep
      | some target =>
          simp only [Store.isTidy, directive, Bool.and_eq_true, decide_eq_true_eq,
            Bool.not_eq_true'] at here
          obtain ⟨⟨named, isLocal⟩, found⟩ := here
          obtain ⟨keyword, quoted, atoms, isInclude, kind, text⟩ := atomsOf_directive directive
          have resolved := gives_resolveTarget fetcher named isLocal found
          obtain ⟨d₁, entering, sound₁, extended₁⟩ :=
            entered.target index sound member
              (reached first List.mem_cons_self target directive) deep
          have deep₁ : depthLimit ≤ depth + d₁.keys.length :=
            deep.trans (Nat.add_le_add_left extended₁.more.length_le depth)
          obtain ⟨d₂, following, sound₂, extended₂⟩ :=
            ih tidy_rest reached_rest (index + 2) (line + (scanned first).line)
              (stmt + (scanned first).stmt) sound₁ (extended₁.more.subset member) deep₁
          refine ⟨d₂, ?_, sound₂, ?_⟩
          · rw [atoms, List.map_cons, List.map_cons, List.map_nil, List.cons_append,
              List.cons_append, List.nil_append]
            subst text
            exact followIncludes_directive fetcher file index
              ((isInclude_moved file line stmt keyword).trans isInclude)
              (show (quoted.moved file line stmt).kind = .string from kind) _ resolved entering
              following
          · rw [atoms]
            exact extended₁.trans member extended₂

end Follow

/-- There is always a level left: every level above has a file of its own. -/
theorem Ready.length_lt {path : String} {d : Discovery} (program : s.IsProgram root)
    (ready : Ready s root path d) : d.keys.length < depthLimit := by
  have nodup : (path :: d.keys).Nodup := List.nodup_cons.mpr ⟨ready.new, ready.sound.nodup⟩
  have readable : ∀ x ∈ path :: d.keys, ∃ lines, s.readLines x = .ok lines := by
    intro x member
    have reached : s.Reaches root x := by
      rcases List.mem_cons.mp member with rfl | earlier
      · exact ready.reached
      · exact ready.sound.reached x earlier
    obtain ⟨lines, read, -⟩ := program.readable x reached
    exact ⟨lines, read⟩
  exact Store.length_le_depthLimit nodup readable

/-- Reading a file reads all that it includes. -/
theorem discover_enters (program : s.IsProgram root) (fetcher : Option Fetcher) (depth : Nat) :
    Enters s root depth (discover fetcher depth) := by
  induction depth with
  | zero =>
      intro path d ready deep
      rw [Nat.zero_add] at deep
      exact absurd (ready.length_lt program) (Nat.not_lt.mpr deep)
  | succ depth ih =>
      intro path d ready deep
      obtain ⟨lines, read, tidy⟩ := program.readable path ready.reached
      have reached : ∀ line ∈ lines, ∀ target, directive? line = some target →
          s.Reaches root (includedPath path target) :=
        fun line inside target directive =>
          ready.reached.tail ⟨lines, read, line, inside, target, directive, rfl⟩
      have member : path ∈ (d.addSource path (lex (s.label root path) lines)).keys := by simp
      have deep' : depthLimit ≤
          depth + (d.addSource path (lex (s.label root path) lines)).keys.length := by
        rw [Discovery.keys_addSource, List.length_append, List.length_singleton,
          ← Nat.add_assoc, Nat.add_right_comm]
        exact deep
      obtain ⟨d', gives, sound, extended⟩ :=
        followIncludes_extends fetcher ih tidy reached 0 (s.label root path) 0 0
          (Sound.addSource ready _) member deep'
      refine ⟨d', ?_, sound, .of_addSource ready read extended⟩
      rw [← lex_eq] at gives
      rw [discover]
      refine Gives.bind Gives.store ?_
      refine Gives.bind (Gives.tryCatch (Gives.tryCatch ?_ _) _) gives
      rw [read]
      exact Gives.pure lines

/-- The files of a program, as discovery leaves them. -/
structure Discovered (s : Store) (root : String) (d : Discovery) : Prop where
  rooted : d.graph.root = s.rootPath root
  keys : ∀ path, path ∈ d.keys ↔ s.Reaches root path
  records : ∀ path ∈ d.keys, Records s root d path
  nodes : ∀ path, d.graph.contains path = true ↔ path ∈ d.keys

theorem mem_includesFrom {path : String} {index : Nat} {lines : List Bytes} {target : String} :
    target ∈ (includesFrom path index lines).map Prod.snd ↔
      ∃ line ∈ lines, ∃ name, directive? line = some name ∧ target = includedPath path name := by
  induction lines generalizing index with
  | nil => simp [includesFrom]
  | cons first rest ih =>
      rw [includesFrom, List.map_append, List.mem_append, ih]
      cases directive : directive? first with
      | none => simp [directive]
      | some name => simp [directive]

/-- The children of a file are the files it includes. -/
theorem Records.mem_children {path : String} {d : Discovery} (recorded : Records s root d path)
    (target : String) : target ∈ d.graph.children path ↔ s.Includes path target := by
  obtain ⟨lines, read, entry⟩ := recorded
  have children : d.graph.children path = (includesFrom path 0 lines).map Prod.snd :=
    congrArg Prod.snd entry
  rw [children, mem_includesFrom, Store.Includes]
  constructor
  · exact fun included => ⟨lines, read, included⟩
  · rintro ⟨lines', read', included⟩
    cases read.symm.trans read'
    exact included

/-- Discovery succeeds on every program, and finds its files. -/
theorem discover_root (program : s.IsProgram root) (fetcher : Option Fetcher) :
    ∃ d, Gives s (discover fetcher depthLimit (s.rootPath root) root
        { graph := .ofRoot (s.rootPath root) }) d ∧ Discovered s root d := by
  have contains (path : String) :
      (IncludeGraph.ofRoot (s.rootPath root)).contains path = true ↔ path = s.rootPath root := by
    simp [IncludeGraph.contains_iff, IncludeGraph.ofRoot]
  have leaf (path : String) : (IncludeGraph.ofRoot (s.rootPath root)).children path = [] := by
    by_cases same : path = s.rootPath root
    · simp [IncludeGraph.children, IncludeGraph.ofRoot, same]
    · have absent : (IncludeGraph.ofRoot (s.rootPath root)).nodes.lookup path = none := by
        rwa [lookup_none_iff_not_mem, ← IncludeGraph.contains_iff, contains]
      rw [IncludeGraph.children, absent]
      rfl
  have ready : Ready s root (s.rootPath root) { graph := .ofRoot (s.rootPath root) } := by
    refine ⟨⟨rfl, (contains _).mpr rfl, fun path => ?_, List.nodup_nil, ?_, ?_⟩, ?_, ?_, .refl⟩
    · rw [contains]
      simp [Discovery.keys]
    · exact fun path absent => absurd absent List.not_mem_nil
    · intro path target child
      rw [leaf] at child
      cases child
    · exact List.not_mem_nil
    · exact leaf _
  obtain ⟨d, gives, sound, extended⟩ :=
    discover_enters program fetcher depthLimit _ _ ready (Nat.le_add_right _ _)
  rw [s.label_root] at gives
  have records : ∀ path ∈ d.keys, Records s root d path :=
    fun path inside => extended.fresh path inside List.not_mem_nil
  have nodes (path : String) : d.graph.contains path = true ↔ path ∈ d.keys := by
    rw [sound.nodes]
    simp
  refine ⟨d, gives, sound.rooted, fun path => ⟨sound.reached path, fun reached => ?_⟩, records, nodes⟩
  induction reached with
  | refl => exact (nodes _).mp sound.met
  | @tail _ path _ included ih =>
      exact (nodes path).mp (sound.closed _ path ((records _ ih).mem_children path |>.mpr included))

end DawnC
