import DawnC.Proofs.Remote.Agreement
import DawnC.Proofs.Remote.Copying

set_option autoImplicit false

namespace DawnC

theorem Attempt.exists_run_ok {ε σ : Type} {x : Attempt ε σ Unit} {s : σ}
    (done : (x.run s).1.toOption = some ()) : ∃ t, x.run s = (.ok (), t) := by
  rcases ran : x.run s with ⟨fault | _, t⟩
  · rw [ran] at done
    cases done
  · exact ⟨t, rfl⟩

namespace Cache

open Attempt (Settles Sustains run_bind_ok run_bind_error run_tryCatch_ok run_tryCatch_error)
open DawnC.Path (Normal IsName)

variable {cwd : Location} {source : String} {m d : Normal} {s t : Store} {c : Cache} {repo ref : String}
  {w : World}

theorem run_fill_of_directory {destination : String} (found : t.find source = .ok .directory) :
    (fill id destination source).run t = (copyBelow id destination pathLimit source ".").run t := by
  rw [fill, run_bind_ok (Attempt.run_get t), id, found]

theorem ready_of_made (tree : s.TreeAt cwd) (cleans : m.Cleans source)
    (found : s.find source = .ok .directory) (fresh : ∀ entry, s.find d.text ≠ .ok entry)
    (apart : ¬ m.place cwd <+: d.place cwd ∧ ¬ d.place cwd <+: m.place cwd)
    (made : (FileAction.makeDirectories d.text).run s = (.ok (), t)) :
    Ready cwd source m d t ∧ (∀ place, t.rule place = s.rule place) ∧
      (∀ names, t.get? (m.place cwd ++ names) = s.get? (m.place cwd ++ names)) ∧
      ∀ place, t.get? place = s.get? place ∨
        place <+: d.place cwd ∧ s.get? place = none ∧ t.get? place = some .directory := by
  have changes : Store.Changes cwd (· <+: d.place cwd) (fun _ => False) s t :=
    (FileAction.makeDirectories_text_changes fun _ up => Or.inl up).of_run made
  obtain ⟨tree', outside⟩ := changes tree
  have same (names : List String) : t.get? (m.place cwd ++ names) = s.get? (m.place cwd ++ names) :=
    (outside _ not_false).2.resolve_right fun onWay =>
      apart.1 ((List.prefix_append _ _).trans onWay.1)
  obtain ⟨usable, directory⟩ := FileAction.directory_of_makeDirectories tree made
  have unseen : s.sees d ≠ some .directory := fun there => fresh _ (tree.find_text.mpr ⟨usable, there⟩)
  have down : d.names ≠ [] := fun level => unseen (Store.sees_level level)
  rw [tree.sees_down down] at unseen
  rw [tree'.sees_down down] at directory
  refine ⟨⟨tree', cleans, ?_, ⟨usable, directory⟩, ?_, apart⟩, fun place => (outside place not_false).1, same, ?_⟩
  · exact (changes.grows fun _ _ touched => touched.elim).find tree found
  · intro names below
    have missing : s.get? (d.place cwd ++ names) = none :=
      Store.none_below unseen (List.prefix_append _ _) (by simpa using below)
    rcases (outside _ not_false).2 with unchanged | ⟨onWay, -, -⟩
    · rw [unchanged, missing]
    · have lengths := onWay.length_le
      rw [List.length_append] at lengths
      exact absurd (List.eq_nil_of_length_eq_zero (by omega)) below
  · intro place
    exact (outside place not_false).2.imp_right fun ⟨onWay, free, there⟩ => ⟨onWay, free.1, there⟩

/-- What storing a directory makes of the files. Below the destination there are copies of the source files
and the directories they lie in, the source is as it was, and so is everything else but for directories made
on the way to the destination. -/
structure Stored (cwd : Location) (source destination : String) (s t : Store) : Prop where
  files : ∀ names contents executable,
    t.get? (Path.place cwd destination ++ names) = some (.file contents executable) ↔
      executable = false ∧ IsSource s (Path.place cwd source) names contents
  directories : ∀ names, t.get? (Path.place cwd destination ++ names) = some .directory ↔
    names = [] ∨ ∃ more contents, more ≠ [] ∧ IsSource s (Path.place cwd source) (names ++ more) contents
  unchanged : ∀ names, t.get? (Path.place cwd source ++ names) = s.get? (Path.place cwd source ++ names)
  outside : ∀ place, ¬ Path.place cwd destination <+: place → t.get? place = s.get? place ∨
    place <+: Path.place cwd destination ∧ s.get? place = none ∧ t.get? place = some .directory

section Source

variable {root goal : Location} {names : List String} {destination : String}
  (same : ∀ names, t.get? (root ++ names) = s.get? (root ++ names))

include same

theorem isSource_congr {contents : Bytes} :
    IsSource t root names contents ↔ IsSource s root names contents := by
  simp only [IsSource, Reached, same]

theorem storable_congr (rule : ∀ place, t.rule place = s.rule place) :
    Storable t root goal source destination names ↔ Storable s root goal source destination names := by
  simp only [storable_iff, copyable_iff, IsSource, Reached, same, rule]

end Source

/-- Where the system refuses nothing it is enough to look at the entries. -/
theorem storable_of_entries {root goal : Location} {destination : String} (down : root ≠ [])
    (free : s.rules = [])
    (short : ∀ e ∈ s.entries,
      (Path.join (source :: e.1.drop root.length)).utf8ByteSize < pathLimit ∧
        (Path.join (destination :: e.1.drop root.length)).utf8ByteSize < pathLimit) (names : List String) :
    Storable s root goal source destination names := by
  have allowed (place : Location) : s.rule place = {} := by
    rw [Store.rule, free]
    rfl
  have listed (entry : Entry) (there : s.get? (root ++ names) = some entry) :
      (Path.join (source :: names)).utf8ByteSize < pathLimit ∧
        (Path.join (destination :: names)).utf8ByteSize < pathLimit := by
    have bounds := short _ (Store.mem_of_get? (List.append_ne_nil_of_left_ne_nil down names) there)
    rwa [List.drop_left] at bounds
  refine ⟨?_, ?_, ?_⟩
  · rintro entry ⟨there, -⟩
    exact (listed _ there).1
  · intro _
    rw [allowed]
  · rintro contents ⟨⟨_, there, -⟩, -⟩
    refine ⟨(listed _ there).2, ?_, ?_⟩
    · rw [allowed]
    · intro more _ _
      rw [allowed]

theorem Ready.stored (ready : Ready cwd source m d t) {t' : Store}
    (same : ∀ names, t.get? (m.place cwd ++ names) = s.get? (m.place cwd ++ names))
    (outside : ∀ place, t.get? place = s.get? place ∨
      place <+: d.place cwd ∧ s.get? place = none ∧ t.get? place = some .directory)
    (copied : Copied cwd m d (fun r => ∃ contents, IsSource t (m.place cwd) r contents) t t') :
    Stored cwd source d.text s t' := by
  refine ⟨?_, ?_, ?_, ?_⟩
  · intro names contents executable
    rw [Normal.place_text, ready.cleans.place, copied.files, ← isSource_congr same]
    exact and_congr_right fun _ => and_iff_right_of_imp fun isSource => ⟨contents, isSource⟩
  · intro names
    rw [Normal.place_text, ready.cleans.place, copied.directories]
    simp only [isSource_congr same, exists_and_left]
  · intro names
    rw [ready.cleans.place, copied.same ready, same]
  · intro place beside
    rw [Normal.place_text] at beside ⊢
    rw [copied.outside place beside]
    exact outside place

/-- Where the checkout's directory can be made, storing goes as the walk goes. -/
theorem storeTree_settles (tree : w.store.TreeAt cwd)
    (found : w.store.find source = .ok .directory)
    (fresh : ∀ entry, w.store.find (c.checkoutPath repo ref) ≠ .ok entry)
    (apart : ¬ Path.place cwd source <+: Path.place cwd (c.checkoutPath repo ref) ∧
      ¬ Path.place cwd (c.checkoutPath repo ref) <+: Path.place cwd source)
    (made : (FileAction.makeDirectories (c.checkoutPath repo ref)).run w.store = (.ok (), t)) :
    Settles (c.storeTree id repo ref source) w
      (∀ names, Storable w.store (Path.place cwd source) (Path.place cwd (c.checkoutPath repo ref)) source
        (c.checkoutPath repo ref) names)
      fun w' => Stored cwd source (c.checkoutPath repo ref) w.store w'.store ∧ w'.events = w.events := by
  obtain ⟨d, normal, -⟩ := c.exists_checkoutPath repo ref
  obtain ⟨_, started⟩ := Store.start_of_find found
  obtain ⟨m, cleans⟩ := Path.exists_cleans (Store.start_eq_ok.mp started).1.2.1
  have ran : (c.storeTree id repo ref source).run w = _ := storeTree_of_made made
  rw [normal] at fresh apart made ran
  rw [cleans.place, Normal.place_text] at apart
  obtain ⟨ready, rule, same, outside⟩ := ready_of_made tree cleans found fresh apart made
  have filled := copyBelow_source_settles ready
  rw [Settles, ← run_fill_of_directory ready.found] at filled
  rw [Settles, ran, normal]
  refine (Action.settles_files (w := { w with store := t }) filled).mono ?_ ?_
  · rw [cleans.place, Normal.place_text]
    exact forall_congr' fun names => storable_congr same rule
  · exact fun w' after => ⟨ready.stored same outside after.1, after.2⟩

def mixedTree : Store where
  entries := [
    (["s"], .directory),
    (["s", "a.dawn"], .file (Utf8.encode "int a = 1") true),
    (["s", "lib"], .directory),
    (["s", "lib", "b.dawn"], .file (Utf8.encode "int b = 2") false),
    (["s", "lib", "notes"], .file [] false),
    (["s", ".git"], .directory),
    (["s", ".git", "c.dawn"], .file [] false)]

section Deep

def someName : String := "aaaaaaaaaaaaaaaaaaaa"

def deepRepo (depth : Nat) : String := String.intercalate "/" (List.replicate depth someName ++ [someName])

def deepCheckout (depth : Nat) : List String := List.replicate depth someName ++ [someName ++ "@v"]

theorem deepCheckout_usable (depth : Nat) : ∀ name ∈ deepCheckout depth, IsUsableName name := by
  intro name member
  rcases List.mem_append.mp member with first | last
  · rw [List.eq_of_mem_replicate first]
    decide
  · rw [List.mem_singleton.mp last]
    decide

theorem weight_deepCheckout (depth : Nat) : Path.weight (deepCheckout depth) = depth * 21 + 23 := by
  have same : Path.weight (List.replicate depth someName) = depth * 21 := by
    induction depth with
    | zero => rfl
    | succ depth ih =>
        have size : someName.utf8ByteSize = 20 := by decide
        rw [List.replicate_succ, Path.weight, ih, size]
        omega
  have last : Path.weight [someName ++ "@v"] = 23 := by decide
  rw [deepCheckout, Path.weight_append, same, last]

def deepPath (depth : Nat) : Normal :=
  (Normal.fromRoot ["c"] (by decide)).under (deepCheckout depth)
    fun name member => (deepCheckout_usable depth name member).1

theorem deepPath_down (depth : Nat) : (deepPath depth).names ≠ [] := by
  simp [deepPath, deepCheckout, Normal.under]

theorem checkoutPath_deepRepo (depth : Nat) :
    (⟨"/c"⟩ : Cache).checkoutPath (deepRepo depth) "v" = (deepPath depth).text := by
  have valid : ∀ name ∈ deepCheckout depth, IsName name :=
    fun name member => (deepCheckout_usable depth name member).1
  have filled : deepCheckout depth ≠ [] := by simp [deepCheckout]
  have names : deepRepo depth ++ "@" ++ "v" = (Normal.below (deepCheckout depth) valid).text := by
    have whole : (Normal.below (deepCheckout depth) valid).text = String.intercalate "/" (deepCheckout depth) :=
      if_neg filled
    rw [whole, deepRepo, deepCheckout]
    by_cases level : List.replicate depth someName = []
    · rw [level]
      decide
    · rw [String.intercalate_append_of_ne_nil level (by simp),
        String.intercalate_append_of_ne_nil level (by simp), String.intercalate_singleton,
        String.intercalate_singleton]
      simp only [String.append_assoc]
      rfl
  rw [checkoutPath, names]
  exact Normal.join_text (Normal.fromRoot ["c"] (by decide)) valid

theorem size_deepPath (depth : Nat) {more : List String} (valid : ∀ name ∈ more, IsName name) :
    ((deepPath depth).under more valid).text.utf8ByteSize = depth * 21 + 25 + Path.weight more := by
  have elements : ((deepPath depth).under more valid).elements = ["c"] ++ deepCheckout depth ++ more := by
    rw [Normal.elements_under, deepPath, Normal.elements_under]
    rfl
  have filled : ["c"] ++ deepCheckout depth ++ more ≠ [] := by simp
  have size := Path.size_textOf true filled
  have first : Path.weight ["c"] = 2 := by decide
  rw [Path.weight_append, Path.weight_append, weight_deepCheckout, first, if_pos rfl] at size
  rw [Normal.text, elements, show ((deepPath depth).under more valid).rooted = true from rfl]
  omega

def smallTree : Store where
  entries := [(["s"], .directory), (["s", someName ++ ".dawn"], .file [] false)]

theorem smallTree_free (rest : List String) : smallTree.get? ("c" :: rest) = none := by
  cases there : smallTree.get? ("c" :: rest) with
  | none => rfl
  | some entry =>
      have member := Store.mem_of_get? (List.cons_ne_nil _ _) there
      simp [smallTree] at member

theorem deepPath_usable {depth : Nat} (short : depth * 21 + 25 < pathLimit) : (deepPath depth).IsUsable := by
  have root : (Normal.fromRoot ["c"] (by decide)).IsUsable := ⟨by decide, by decide, by decide⟩
  have valid : ∀ name ∈ ([] : List String), IsName name := by simp
  have size := size_deepPath depth valid
  rw [Normal.under_nil, Path.weight] at size
  rw [deepPath, root.under_iff (deepCheckout_usable depth), ← deepPath, size]
  exact short

end Deep

def KeepsEvents (w w' : World) : Prop := w'.events = w.events

instance : IsPreorder World KeepsEvents where
  refl _ := rfl
  trans _ _ _ first second := Eq.trans second first

theorem files_keepsEvents {α : Type} (action : FileAction α) : Sustains KeepsEvents (Action.files action) := by
  intro w
  rcases ran : action.run w.store with ⟨result, s⟩
  rw [Action.run_files ran]
  rfl

theorem storeTree_keepsEvents (view : Store → Store) (c : Cache) (repo ref source : String) :
    Sustains KeepsEvents (c.storeTree view repo ref source) := by
  rw [storeTree_eq_fill]
  exact .bind (.tryCatch (files_keepsEvents _) fun _ => .throw _) fun _ => files_keepsEvents _

/-- Without its checkout, a reference is cloned once the cache's directory is there and there is room. -/
theorem fetch_clones (remotes : Remotes) (room : remotes.room = .ok ()) {text : String} {r : Reference}
    (parsed : Reference.parse text = .ok r) (missing : c.holds w.store r.repo r.ref = false)
    (ensured : c.ensure.run w.store = (.ok (), t)) :
    ((c.fetch remotes text).run w).2.events = w.events ++ [.cloning r.url r.ref] := by
  have stored : Action.store.run w = (.ok w.store, w) := rfl
  have made : (Action.within "failed to create cache directories" (Action.files c.ensure)).run w =
      (.ok (), { w with store := t }) := run_tryCatch_ok (Action.run_files ensured)
  have given {α : Type} (context : String) (a : α) (w : World) :
      (Action.within context (Action.ofExcept (.ok a))).run w = (.ok a, w) := rfl
  have told : (Action.tell (.cloning r.url r.ref)).run { w with store := t } =
      (.ok (), ⟨t, w.events ++ [.cloning r.url r.ref]⟩) := rfl
  rw [run_fetch_state parsed, provide, run_bind_ok stored, missing, if_neg (by decide), run_bind_ok made, room,
    run_bind_ok (given _ _ _), run_bind_ok told]
  cases remotes.clone r.url with
  | error fault => rfl
  | ok repository =>
      rw [run_bind_ok (given _ _ _)]
      cases repository.checkout r.ref with
      | error fault => rfl
      | ok files =>
          rw [run_bind_ok (given _ _ _)]
          have kept : Sustains KeepsEvents (Action.within "failed to store in cache"
              (c.storeTree (fun _ => files.toStore) r.repo r.ref "/")) :=
            .tryCatch (storeTree_keepsEvents _ _ _ _ _) fun _ => .throw _
          have same := kept ⟨t, w.events ++ [.cloning r.url r.ref]⟩
          rw [KeepsEvents] at same
          exact same

/-- After storing has failed, the checkout is held unless its directory could not be made. -/
theorem holds_of_storeTree_error (tree : w.store.TreeAt cwd) (missing : c.holds w.store repo ref = false)
    {fault : Fault} {w' : World}
    (failed : (c.storeTree id repo ref source).run w = (.error fault, w')) :
    c.holds w'.store repo ref = true ↔
      ∀ inner, fault ≠ .wrap "failed to create cache directory" (.file inner) := by
  obtain ⟨d, normal, -⟩ := c.exists_checkoutPath repo ref
  have tree' := ((storeTree_keepsDirectories id c repo ref source).of_run failed tree).1
  rw [holds, normal, ← Bool.not_eq_true, tree.isDirectory_text] at missing
  rw [holds, normal, tree'.isDirectory_text]
  rcases making : (FileAction.makeDirectories d.text).run w.store with ⟨inner | done, t⟩
  · have stopped : (c.storeTree id repo ref source).run w = _ := storeTree_of_failed (normal ▸ making)
    rw [stopped] at failed
    cases failed
    exact iff_of_false (FileAction.not_directory_of_makeDirectories_error tree making missing)
      fun other => other inner rfl
  · have there : d.IsUsable ∧ w'.store.sees d = some .directory := by
      rcases storeTree_cases id source w normal tree with ⟨_, _, stopped, -⟩ | there
      · rw [making] at stopped
        cases stopped
      · rwa [failed] at there
    refine iff_of_true there ?_
    rintro inner rfl
    have filling : (c.storeTree id repo ref source).run w = _ := storeTree_of_made (normal ▸ making)
    rw [filling] at failed
    rcases ran : (fill id (c.checkoutPath repo ref) source).run t with ⟨inner' | done', u⟩
    · rw [Action.run_files (w := { w with store := t }) ran] at failed
      cases failed
    · rw [Action.run_files (w := { w with store := t }) ran] at failed
      cases failed

/-- A failed store counts as a checkout, unless already its directory could not be made: a later fetch looks
the file up in what was copied before the failure, and clones nothing. Only without the directory is the
repository cloned again. -/
theorem failed_store_is_held {c : Cache} {repo ref source : String} {w w' : World} {fault : Fault}
    (missing : c.holds w.store repo ref = false)
    (failed : (c.storeTree id repo ref source).run w = (.error fault, w')) :
    (c.holds w'.store repo ref = true ↔
      ∀ inner, fault ≠ .wrap "failed to create cache directory" (.file inner)) ∧
    ∀ (remotes : Remotes) (text : String) (r : Reference), Reference.parse text = .ok r →
      r.repo = repo → r.ref = ref →
      (c.holds w'.store repo ref = true → (c.fetch remotes text).run w' =
        ((c.resolve w'.store r).mapError .cache, { w' with events := w'.events ++ [.cacheHit repo ref] })) ∧
      (c.holds w'.store repo ref = false → remotes.room = .ok () →
        ∀ t, c.ensure.run w'.store = (.ok (), t) →
        ((c.fetch remotes text).run w').2.events = w'.events ++ [.cloning r.url ref]) := by
  refine ⟨holds_of_storeTree_error ⟨rfl⟩ missing failed, ?_⟩
  rintro remotes text r parsed rfl rfl
  exact ⟨run_fetch_of_holds parsed remotes,
    fun absent room t ensured => fetch_clones remotes room parsed absent ensured⟩

theorem failed_store_is_held_unfilled :
    ∃ fault w', ((⟨"/c"⟩ : Cache).storeTree id "h.com/o/r" "v" "/s").run ⟨{}, []⟩ = (.error fault, w') ∧
      ∀ remotes, ((⟨"/c"⟩ : Cache).fetch remotes "h.com/o/r/a.dawn@v").run w' =
        (.error (.cache (.fileMissing "a.dawn" "h.com/o/r" "v")),
          { w' with events := w'.events ++ [.cacheHit "h.com/o/r" "v"] }) := by
  have parsed : Reference.parse "h.com/o/r/a.dawn@v" = .ok ⟨"h.com/o/r", "a.dawn", "v"⟩ := by decide +kernel
  have fails : (((⟨"/c"⟩ : Cache).storeTree id "h.com/o/r" "v" "/s").run ⟨{}, []⟩).1.toOption = none := by
    decide +kernel
  have held : (⟨"/c"⟩ : Cache).holds (((⟨"/c"⟩ : Cache).storeTree id "h.com/o/r" "v" "/s").run
      ⟨{}, []⟩).2.store "h.com/o/r" "v" = true := by decide +kernel
  have unfound : (⟨"/c"⟩ : Cache).resolve (((⟨"/c"⟩ : Cache).storeTree id "h.com/o/r" "v" "/s").run
      ⟨{}, []⟩).2.store ⟨"h.com/o/r", "a.dawn", "v"⟩ = .error (.fileMissing "a.dawn" "h.com/o/r" "v") := by
    decide +kernel
  rcases ran : ((⟨"/c"⟩ : Cache).storeTree id "h.com/o/r" "v" "/s").run ⟨{}, []⟩ with ⟨fault | done, w'⟩
  · rw [ran] at held unfound
    refine ⟨fault, w', rfl, ?_⟩
    intro remotes
    have later := (failed_store_is_held (by decide +kernel) ran).2 remotes _ _ parsed rfl rfl
    rw [later.1 held, unfound]
    rfl
  · rw [ran] at fails
    cases fails

/-- A source that is not there cannot be stored, but its checkout is held. -/
theorem failed_store_counts_as_cached :
    let c : Cache := ⟨"/c"⟩
    let after := (c.storeTree id "h.com/o/r" "v" "/s").run ⟨{}, []⟩
    c.holds {} "h.com/o/r" "v" = false ∧ after.1.toOption = none ∧
      c.holds after.2.store "h.com/o/r" "v" = true := by
  refine ⟨?_, ?_, ?_⟩ <;> decide +kernel

end Cache

end DawnC
