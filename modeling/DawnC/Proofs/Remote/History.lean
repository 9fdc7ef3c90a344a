import DawnC.Proofs.Remote.Agreement

set_option autoImplicit false

namespace DawnC

namespace Cache

open Attempt (Respects Sustains run_bind_ok run_bind_error run_tryCatch_ok run_tryCatch_error)
open Store (AgreeAt Changes Grows)
open DawnC.Path (Normal)

variable {c : Cache} {remotes : Remotes} {r r' : Reference} {cwd p : Location} {d e : Normal}
  {w w' : World}

/-- On the way to the cache's directory, providing a checkout makes directories only. -/
theorem provide_way (clean : c.dir = e.text) (tree : w.store.TreeAt cwd)
    (here : w.store.get? cwd = some .directory) {place : Location}
    (way : place <+: e.place cwd) :
    Store.Alike w.store ((c.provide remotes r).run w).2.store place ∨
      w.store.Open place ∧ ((c.provide remotes r).run w).2.store.Open place := by
  have ensured : Sustains (Changes cwd (fun _ => True) (fun _ => False)) c.ensure :=
    FileAction.makeDirectories_changes fun _ => trivial
  rcases provide_cases c remotes r w with ⟨-, events, ran⟩ | ⟨-, ⟨fault, events, ran⟩ |
    ⟨s, repository, files, events, made, cloned, found, ran⟩⟩
  · rw [ran]
    exact Or.inl ⟨rfl, rfl⟩
  · rw [ran]
    obtain ⟨rule, same | ⟨-, free, there⟩⟩ := (ensured w.store tree).2 place not_false
    · exact Or.inl ⟨same.symm, rule.symm⟩
    · exact Or.inr ⟨Or.inl free, Or.inr there⟩
  · obtain ⟨tree', outside⟩ := ensured.of_run made tree
    have here' : s.get? cwd = some .directory := ((ensured.of_run made).grows fun _ _ => False.elim).kept tree here
    rw [ensure, clean] at made
    have ready := (FileAction.directory_of_makeDirectories tree made).2
    rw [tree'.sees_eq (Store.directory_base here')] at ready
    have directory : s.get? place = some .directory := by
      by_cases last : place = e.place cwd
      · rw [last, ready]
      · exact Store.directory_of_isPrefix ready way last
    have kept := (Action.sustains_within "failed to store in cache"
      (storeTree_keepsDirectories (fun _ => files.toStore) c r.repo r.ref "/") ⟨s, events⟩ tree').2 place directory
    rw [ran]
    rcases (outside place not_false).2 with same | ⟨-, free, -⟩
    · exact Or.inr ⟨Or.inr (same ▸ directory), Or.inr kept⟩
    · exact Or.inr ⟨Or.inl free, Or.inr kept⟩

/-- Making the cache's directory changes nothing at a place that is not on the way to it. -/
theorem ensure_agree (clean : c.dir = e.text) (outside : ¬ p <+: e.place cwd) {s : Store}
    (tree : s.TreeAt cwd) (here : s.get? cwd = some .directory) :
    AgreeAt cwd (e.place cwd) p s (c.ensure.run s).2 := by
  have changes : Sustains (Changes cwd (· <+: e.place cwd) (fun _ => False)) c.ensure := by
    rw [ensure, clean]
    exact FileAction.makeDirectories_text_changes fun _ up => Or.inl up
  exact .of_made tree here (changes s) fun place down up => outside (down.trans up)

theorem provide_missing (clean : c.dir = e.text) (outside : ¬ p <+: e.place cwd)
    (missing : ∀ repository, remotes.clone r.url = .ok repository →
      ∃ fault, repository.checkout r.ref = .error fault)
    (tree : w.store.TreeAt cwd) (here : w.store.get? cwd = some .directory) :
    AgreeAt cwd (e.place cwd) p w.store ((c.provide remotes r).run w).2.store := by
  rcases provide_cases c remotes r w with ⟨-, events, ran⟩ | ⟨-, ⟨fault, events, ran⟩ |
    ⟨s, repository, files, events, made, cloned, found, ran⟩⟩
  · rw [ran]
    exact .refl tree here p
  · rw [ran]
    exact ensure_agree clean outside tree here
  · obtain ⟨fault, failed⟩ := missing repository cloned
    rw [failed] at found
    cases found

/-- Providing a checkout changes nothing at a place apart from it. -/
theorem provide_apart (clean : c.dir = e.text)
    (normal : c.checkoutPath r.repo r.ref = d.text) (outside : ¬ p <+: e.place cwd)
    (apart : ¬ d.place cwd <+: p ∧ ¬ p <+: d.place cwd) (tree : w.store.TreeAt cwd)
    (here : w.store.get? cwd = some .directory) :
    AgreeAt cwd (e.place cwd) p w.store ((c.provide remotes r).run w).2.store := by
  have ensured : Sustains (Changes cwd (fun l => l <+: e.place cwd ∨ l <+: d.place cwd)
      (d.place cwd <+: ·)) c.ensure := by
    rw [ensure, clean]
    exact FileAction.makeDirectories_text_changes fun _ up => Or.inl (Or.inl up)
  have changes : Changes cwd _ _ w.store ((c.provide remotes r).run w).2.store :=
    provide_changes normal ensured (fun _ up => Or.inr up) w
  refine .of_changes tree here ((provide_grows w).kept tree here) changes ?_ ?_
  · intro place down
    constructor
    · rintro (up | up)
      · exact outside (down.trans up)
      · exact apart.2 (down.trans up)
    · intro touched
      exact (List.prefix_or_prefix_of_prefix touched down).elim apart.1 apart.2
  · intro place up touched
    rcases up with up | up
    · exact absurd (touched.trans up) apart.1
    · exact provide_way clean tree here up

theorem provide_holds (normal : c.checkoutPath r.repo r.ref = d.text)
    (tree : w.store.TreeAt cwd) (provided : (c.provide remotes r).run w = (.ok (), w')) :
    c.holds w'.store r.repo r.ref = true := by
  have grows : Grows cwd w.store w'.store := provide_grows.of_run provided
  rcases provide_cases c remotes r w with ⟨held, events, ran⟩ | ⟨-, ⟨fault, events, ran⟩ |
    ⟨s, repository, files, events, made, cloned, found, ran⟩⟩
  · rw [ran] at provided
    cases provided
    exact held
  · rw [ran] at provided
    cases provided
  · have tree' := (FileAction.makeDirectories_grows.of_run made tree).1
    rw [ran] at provided
    have stored := Action.of_run_within provided
    rcases storeTree_cases (fun _ => files.toStore) "/" ⟨s, events⟩ normal tree' with
      ⟨fault, t, -, failed⟩ | there
    · rw [failed] at stored
      cases stored
    · rw [stored] at there
      exact (holds_iff (grows tree).1 normal).mpr there

/-- A checkout that cannot be provided leaves its place as it was, or a part of the checkout there. -/
theorem provide_error (clean : c.dir = e.text)
    (normal : c.checkoutPath r.repo r.ref = d.text) (outside : ¬ d.place cwd <+: e.place cwd)
    (tree : w.store.TreeAt cwd) (here : w.store.get? cwd = some .directory) {fault : Fault}
    (failed : (c.provide remotes r).run w = (.error fault, w')) :
    AgreeAt cwd (e.place cwd) (d.place cwd) w.store w'.store ∨
      (∃ inner, fault = .wrap "failed to store in cache" inner) ∧
        c.holds w'.store r.repo r.ref = true := by
  have grows : Grows cwd w.store w'.store := provide_grows.of_run failed
  have ensured := ensure_agree clean outside tree here
  rcases provide_cases c remotes r w with ⟨-, events, ran⟩ | ⟨-, ⟨fault', events, ran⟩ |
    ⟨s, repository, files, events, made, cloned, found, ran⟩⟩
  · rw [ran] at failed
    cases failed
  · rw [ran] at failed
    cases failed
    exact Or.inl ensured
  · rw [made] at ensured
    rw [ran] at failed
    rcases storing : (c.storeTree (fun _ => files.toStore) r.repo r.ref "/").run ⟨s, events⟩ with
      ⟨inner | done, u⟩
    · rw [Action.within, run_tryCatch_error storing] at failed
      cases failed
      rcases storeTree_cases (fun _ => files.toStore) "/" ⟨s, events⟩ normal ensured.right with
        ⟨fault, t, making, failed⟩ | there
      · rw [storing] at failed
        cases failed
        exact Or.inl (ensured.trans
          (FileAction.agreeAt_of_makeDirectories_error ensured.right ensured.rightHere making))
      · rw [storing] at there
        exact Or.inr ⟨⟨inner, rfl⟩, (holds_iff (grows tree).1 normal).mpr there⟩
    · rw [Action.within, run_tryCatch_ok storing] at failed
      cases failed

/-- Once it was provided, a checkout is held as long as the trees agree. -/
theorem provide_later {base : Location} {w₀ w₁ : World} (normal : c.checkoutPath r.repo r.ref = d.text) (tree : w₀.store.TreeAt cwd)
    (provided : (c.provide remotes r).run w₀ = (.ok (), w₁))
    (later : AgreeAt cwd base (d.place cwd) w₁.store w.store) :
    ∃ events, (c.provide remotes r).run w = (.ok (), { w with events }) := by
  have held := provide_holds normal tree provided
  rw [holds_agree later normal] at held
  rcases provide_cases c remotes r w with ⟨-, ran⟩ | ⟨missing, -⟩
  · exact ran
  · rw [held] at missing
    cases missing

/-- What is provided for a reference depends on the repository and the ref. -/
theorem provide_congr (repo : r'.repo = r.repo) (ref : r'.ref = r.ref) :
    c.provide remotes r' = c.provide remotes r := by
  have url : r'.url = r.url := by rw [Reference.url, Reference.url, repo]
  rw [provide, provide, repo, ref, url]

/-- As far as a checkout is concerned, the state is as at first, or as after providing the checkout. -/
def Kept (c : Cache) (remotes : Remotes) (r : Reference) (cwd base p : Location) (w w' : World) : Prop :=
  AgreeAt cwd base p w.store w'.store ∨
    ∃ w₁, (c.provide remotes r).run w = (.ok (), w₁) ∧ AgreeAt cwd base p w₁.store w'.store

section Kept

variable {base : Location} {w₀ : World}

theorem Kept.treeAt (kept : c.Kept remotes r cwd base p w₀ w) : w.store.TreeAt cwd := by
  rcases kept with first | ⟨w₁, -, later⟩
  · exact first.right
  · exact later.right

theorem Kept.here (kept : c.Kept remotes r cwd base p w₀ w) : w.store.get? cwd = some .directory := by
  rcases kept with first | ⟨w₁, -, later⟩
  · exact first.rightHere
  · exact later.rightHere

theorem Kept.trans (kept : c.Kept remotes r cwd base p w₀ w)
    (agree : AgreeAt cwd base p w.store w'.store) : c.Kept remotes r cwd base p w₀ w' := by
  rcases kept with first | ⟨w₁, provided, later⟩
  · exact Or.inl (first.trans agree)
  · exact Or.inr ⟨w₁, provided, later.trans agree⟩

end Kept

/-- The checkouts of two references do not lie in each other. -/
def Apart (c : Cache) (cwd : Location) (r r' : Reference) : Prop :=
  ¬ Path.place cwd (c.checkoutPath r.repo r.ref) <+: Path.place cwd (c.checkoutPath r'.repo r'.ref) ∧
    ¬ Path.place cwd (c.checkoutPath r'.repo r'.ref) <+: Path.place cwd (c.checkoutPath r.repo r.ref)

def fetchAll (c : Cache) (remotes : Remotes) (history : List String) (w : World) : World :=
  history.foldl (fun w text => ((c.fetch remotes text).run w).2) w

/-- Earlier fetches that leave the checkout of a reference as it is: of a ref that is not there, of a
checkout apart, or of the same checkout, if a failure to store it leaves no part of it in the cache. -/
def Harmless (c : Cache) (remotes : Remotes) (cwd : Location) (w : World) (text : String)
    (r r' : Reference) : Prop :=
  (∀ repository, remotes.clone r'.url = .ok repository →
      ∃ fault, repository.checkout r'.ref = .error fault) ∨
    c.Apart cwd r' r ∨ (r'.repo = r.repo ∧ r'.ref = r.ref) ∧
    ∀ inner w', (c.fetch remotes text).run w = (.error (.wrap "failed to store in cache" inner), w') →
      c.holds w'.store r.repo r.ref = false

section Fetches

variable {w₀ : World} {text : String} (clean : c.dir = e.text)
  (normal : c.checkoutPath r.repo r.ref = d.text)

include clean normal

/-- A fetch of the checkout itself: it is provided now, or it is there. -/
theorem Kept.again (tree : w₀.store.TreeAt cwd) (here : w₀.store.get? cwd = some .directory)
    (kept : c.Kept remotes r cwd (e.place cwd) (d.place cwd) w₀ w)
    (outside : ¬ d.place cwd <+: e.place cwd)
    (whole : ∀ inner w', (c.provide remotes r).run w₀ =
      (.error (.wrap "failed to store in cache" inner), w') → c.holds w'.store r.repo r.ref = false) :
    c.Kept remotes r cwd (e.place cwd) (d.place cwd) w₀ ((c.provide remotes r).run w).2 := by
  rcases kept with first | ⟨w₁, provided, later⟩
  · have agree : AgreeAt cwd (e.place cwd) (d.place cwd) ((c.provide remotes r).run w₀).2.store
        ((c.provide remotes r).run w).2.store := (provide_respects clean normal w₀ w first).2
    rcases ran : (c.provide remotes r).run w₀ with ⟨fault | done, w₁⟩
    · rw [ran] at agree
      rcases provide_error clean normal outside tree here ran with same | ⟨⟨inner, rfl⟩, held⟩
      · exact Or.inl (same.trans agree)
      · rw [whole inner w₁ ran] at held
        cases held
    · rw [ran] at agree
      exact Or.inr ⟨w₁, ran, agree⟩
  · obtain ⟨events, ran⟩ := provide_later normal tree provided later
    rw [ran]
    exact Or.inr ⟨w₁, provided, later⟩

theorem Kept.outcome (parsed : Reference.parse text = .ok r) (tree : w₀.store.TreeAt cwd)
    (kept : c.Kept remotes r cwd (e.place cwd) (d.place cwd) w₀ w) :
    c.outcome remotes text w = c.outcome remotes text w₀ := by
  rcases kept with first | ⟨w₁, provided, later⟩
  · exact (outcome_agree parsed clean normal first).symm
  · obtain ⟨events, ran⟩ := provide_later normal tree provided later
    rw [outcome_of_provided parsed provided, outcome_of_provided parsed ran]
    exact (found_agree parsed later normal).symm

theorem Kept.fetch (parsed : Reference.parse text = .ok r) (tree : w₀.store.TreeAt cwd)
    (here : w₀.store.get? cwd = some .directory)
    (kept : c.Kept remotes r cwd (e.place cwd) (d.place cwd) w₀ w)
    (outside : ¬ d.place cwd <+: e.place cwd) {earlier : String}
    (harmless : ∀ r', Reference.parse earlier = .ok r' → c.Harmless remotes cwd w₀ text r r') :
    c.Kept remotes r cwd (e.place cwd) (d.place cwd) w₀ ((c.fetch remotes earlier).run w).2 := by
  cases parsed' : Reference.parse earlier with
  | error fault =>
      rw [Cache.fetch, parsed']
      exact kept
  | ok r' =>
      rw [run_fetch_state parsed']
      rcases harmless r' parsed' with missing | apart | ⟨⟨repo, ref⟩, whole⟩
      · exact kept.trans (provide_missing clean outside missing kept.treeAt kept.here)
      · obtain ⟨d', normal', -⟩ := c.exists_checkoutPath r'.repo r'.ref
        rw [Apart, normal, normal', Normal.place_text, Normal.place_text] at apart
        exact kept.trans (provide_apart clean normal' outside apart kept.treeAt kept.here)
      · rw [provide_congr repo ref]
        apply kept.again clean normal tree here outside
        intro inner w' failed
        exact whole inner w' (run_fetch_of_error parsed failed)

theorem Kept.fetchAll (parsed : Reference.parse text = .ok r) (tree : w₀.store.TreeAt cwd)
    (here : w₀.store.get? cwd = some .directory)
    (kept : c.Kept remotes r cwd (e.place cwd) (d.place cwd) w₀ w)
    (outside : ¬ d.place cwd <+: e.place cwd) {history : List String}
    (harmless : ∀ earlier ∈ history, ∀ r', Reference.parse earlier = .ok r' →
      c.Harmless remotes cwd w₀ text r r') :
    c.Kept remotes r cwd (e.place cwd) (d.place cwd) w₀ (c.fetchAll remotes history w) := by
  induction history generalizing w with
  | nil => exact kept
  | cons earlier rest ih =>
      apply ih
      · exact kept.fetch clean normal parsed tree here outside
          (harmless earlier List.mem_cons_self)
      · exact fun later member => harmless later (List.mem_cons_of_mem _ member)

end Fetches

/-- Earlier fetches do not change what comes of a fetch: its path, what is read there, or its fault. Its
checkout must not be where the cache is or above, and the earlier fetches must leave it as it is. -/
theorem outcome_fetchAll {text : String} {history : List String} (clean : Path.clean c.dir = c.dir)
    (here : w.store.hasWorkingDirectory = true)
    (harmless : ∀ r, Reference.parse text = .ok r →
      ¬ Path.place w.store.cwd (c.checkoutPath r.repo r.ref) <+: Path.place w.store.cwd c.dir ∧
      ∀ earlier ∈ history, ∀ r', Reference.parse earlier = .ok r' →
        c.Harmless remotes w.store.cwd w text r r') :
    c.outcome remotes text (c.fetchAll remotes history w) = c.outcome remotes text w := by
  cases parsed : Reference.parse text with
  | error fault =>
      rw [outcome, outcome, fetch, parsed]
      rfl
  | ok r =>
      obtain ⟨outside, apart⟩ := harmless r parsed
      have tree : w.store.TreeAt w.store.cwd := ⟨rfl⟩
      have here := of_decide_eq_true here
      obtain ⟨e, -, -, cleaned⟩ := Path.exists_normal c.dir
      obtain ⟨d, normal, -⟩ := c.exists_checkoutPath r.repo r.ref
      rw [clean] at cleaned
      rw [normal, cleaned, Normal.place_text, Normal.place_text] at outside
      have start : c.Kept remotes r w.store.cwd (e.place w.store.cwd) (d.place w.store.cwd) w w :=
        Or.inl (.refl tree here _)
      have kept := start.fetchAll cleaned normal parsed tree here outside apart
      exact kept.outcome cleaned normal parsed tree

def repositoryOf (refs : List (String × Checkout)) : Repository where
  commit? revision := (refs.lookup revision).map fun _ => revision
  worktree := .ok fun commit => .ok ((refs.lookup commit).getD [])

def taggedRefs : List (String × Checkout) :=
  [("refs/remotes/origin/v", [("a.dawn", Utf8.encode "int x = 1")]),
   ("refs/tags/v/x", [("a.dawn", Utf8.encode "int x = 1")]),
   ("refs/tags/w", [("a.dawn", Utf8.encode "int x = 2"), ("b.dawn", [])])]

def tagged : Remotes where
  clone url :=
    if url = "https://h.com/o/r.git" then .ok (repositoryOf taggedRefs)
    else .error (.plain "repository not found")

/-- What is fetched twice, with other fetches between, is the same. -/
theorem outcome_fetchAll_tagged :
    (⟨"cache"⟩ : Cache).outcome tagged "h.com/o/r/a.dawn@v" ((⟨"cache"⟩ : Cache).fetchAll tagged
        ["h.com/o/r/a.dawn@v", "h.com/o/r/b.dawn@w", "h.com/o/r/a.dawn@v/y", "a.dawn"] ⟨{}, []⟩) =
      (⟨"cache"⟩ : Cache).outcome tagged "h.com/o/r/a.dawn@v" ⟨{}, []⟩ := by
  have branch : Reference.parse "h.com/o/r/a.dawn@v" = .ok ⟨"h.com/o/r", "a.dawn", "v"⟩ := by
    decide +kernel
  have tag : Reference.parse "h.com/o/r/b.dawn@w" = .ok ⟨"h.com/o/r", "b.dawn", "w"⟩ := by
    decide +kernel
  have absent : Reference.parse "h.com/o/r/a.dawn@v/y" = .ok ⟨"h.com/o/r", "a.dawn", "v/y"⟩ := by
    decide +kernel
  have bare : Reference.parse "a.dawn" = .error .missingRef := by decide +kernel
  apply outcome_fetchAll (by decide +kernel) (by decide +kernel)
  intro r same
  rw [branch] at same
  cases same
  refine ⟨by decide +kernel, ?_⟩
  intro earlier member r' parsed
  simp only [List.mem_cons, List.not_mem_nil, or_false] at member
  rcases member with rfl | rfl | rfl | rfl
  · rw [branch] at parsed
    cases parsed
    refine Or.inr (Or.inr ⟨⟨rfl, rfl⟩, ?_⟩)
    intro inner w' failed
    have stored : (((⟨"cache"⟩ : Cache).fetch tagged "h.com/o/r/a.dawn@v").run ⟨{}, []⟩).1.toBool =
        true := by
      decide +kernel
    rw [failed] at stored
    cases stored
  · rw [tag] at parsed
    cases parsed
    refine Or.inr (Or.inl ⟨?_, ?_⟩)
    · decide +kernel
    · decide +kernel
  · rw [absent] at parsed
    cases parsed
    refine Or.inl ?_
    intro repository cloned
    have there : tagged.clone (Reference.url ⟨"h.com/o/r", "a.dawn", "v/y"⟩) =
        .ok (repositoryOf taggedRefs) := by
      have url : Reference.url ⟨"h.com/o/r", "a.dawn", "v/y"⟩ = "https://h.com/o/r.git" := by decide +kernel
      simp only [tagged, url, if_true]
    cases there.symm.trans cloned
    have missing : ((repositoryOf taggedRefs).checkout "v/y").toBool = false := by decide +kernel
    cases gives : (repositoryOf taggedRefs).checkout "v/y" with
    | error fault => exact ⟨fault, rfl⟩
    | ok files =>
        rw [gives] at missing
        cases missing
  · rw [bare] at parsed
    cases parsed

/-- A checkout that lies in the place of another hides its files. -/
theorem nested_checkout_hides_file :
    ((⟨"cache"⟩ : Cache).outcome tagged "h.com/o/r/a.dawn@v" ⟨{}, []⟩).mapError Fault.message =
      .ok ("cache/h.com/o/r@v/a.dawn", .ok (Utf8.encode "int x = 1")) ∧
    ((⟨"cache"⟩ : Cache).outcome tagged "h.com/o/r/a.dawn@v" ((⟨"cache"⟩ : Cache).fetchAll tagged
        ["h.com/o/r/a.dawn@v/x"] ⟨{}, []⟩)).mapError Fault.message =
      .error "a.dawn not found in h.com/o/r@v" := by
  constructor
  · decide +kernel
  · decide +kernel

end Cache

end DawnC
