import DawnC.Proofs.Remote.History

set_option autoImplicit false

namespace DawnC

namespace Cache

open Attempt (Sustains)
open Store (Grows)

variable {c : Cache} {remotes : Remotes} {r : Reference} {text path : String} {cwd : Location} {s t : Store}
  {w w' : World}

/-- Fetches one after the other. The remotes may be others each time, and each fetch may fail. -/
inductive FetchRun (c : Cache) (w : World) : World → Prop where
  | start : FetchRun c w w
  | fetch {w' : World} (before : FetchRun c w w') (remotes : Remotes) (text : String) :
      FetchRun c w ((c.fetch remotes text).run w').2

/-- A fetch changes nothing that is there. -/
theorem fetch_grows (remotes : Remotes) (text : String) :
    Sustains (World.OnStore (Grows cwd)) (c.fetch remotes text) :=
  fetch_sustains (fun _ => provide_grows) text

theorem FetchRun.grows (run : FetchRun c w w') : Grows cwd w.store w'.store := by
  induction run with
  | start => exact refl_of (Grows cwd) w.store
  | fetch _ remotes text ih => exact trans_of (Grows cwd) ih (fetch_grows remotes text _)

/-- A reference is resolved to a file in a checkout that is there. -/
theorem resolve_eq_ok : c.resolve s r = .ok path ↔
    c.holds s r.repo r.ref = true ∧ path = Path.join [c.checkoutPath r.repo r.ref, r.file] ∧
      ∃ contents executable, s.find path = .ok (.file contents executable) := by
  constructor
  · intro resolved
    have shape := path_of_resolve resolved
    rw [resolve, ← shape] at resolved
    split at resolved
    · cases resolved
    · rename_i held
      dsimp only at resolved
      split at resolved
      · cases resolved
      · cases resolved
      · rename_i contents executable found
        exact ⟨by simpa using held, shape, contents, executable, found⟩
  · rintro ⟨held, rfl, contents, executable, found⟩
    rw [resolve, held]
    dsimp only
    rw [found]
    rfl

theorem resolve_grows (grows : Grows cwd s t) (tree : s.TreeAt cwd) (resolved : c.resolve s r = .ok path) :
    c.resolve t r = .ok path := by
  obtain ⟨held, shape, contents, executable, found⟩ := resolve_eq_ok.mp resolved
  refine resolve_eq_ok.mpr ⟨?_, shape, contents, executable, grows.find tree found⟩
  obtain ⟨d, normal, -⟩ := c.exists_checkoutPath r.repo r.ref
  rw [holds, normal, tree.isDirectory_text, ← tree.find_text] at held
  rw [holds, normal, (grows tree).1.isDirectory_text, ← (grows tree).1.find_text]
  exact grows.find tree held

theorem resolve_of_fetch (fetched : (c.fetch remotes text).run w = (.ok path, w')) :
    ∃ r, Reference.parse text = .ok r ∧ c.resolve w'.store r = .ok path := by
  cases parsed : Reference.parse text with
  | error fault =>
      rw [fetch, parsed] at fetched
      cases fetched
  | ok r =>
      refine ⟨r, rfl, ?_⟩
      rcases ran : (c.provide remotes r).run w with ⟨fault | done, u⟩
      · rw [run_fetch_of_error parsed ran] at fetched
        cases fetched
      · rw [run_fetch_of_provided parsed ran, Prod.mk.injEq] at fetched
        obtain ⟨result, rfl⟩ := fetched
        cases resolved : c.resolve u.store r with
        | error fault =>
            rw [resolved] at result
            cases result
        | ok found =>
            rw [resolved] at result
            cases result
            rfl

/-- Once a fetch has given a path, then whatever is fetched afterwards, the path is a file with the same
contents, and fetching the same reference gives the same path, without a clone and without a change. -/
theorem fetched_file_stays {c : Cache} {remotes : Remotes} {text path : String} {w w₁ w₂ : World}
    (fetched : (c.fetch remotes text).run w = (.ok path, w₁)) (run : FetchRun c w₁ w₂) :
    w₂.store.isFile path = true ∧ w₂.store.readFile path = w₁.store.readFile path ∧
    ∃ r, Reference.parse text = .ok r ∧ ∀ remotes' : Remotes, (c.fetch remotes' text).run w₂ =
      (.ok path, { w₂ with events := w₂.events ++ [.cacheHit r.repo r.ref] }) := by
  have tree₁ : w₁.store.TreeAt w₁.store.cwd := ⟨rfl⟩
  obtain ⟨r, parsed, resolved⟩ := resolve_of_fetch fetched
  have resolved₂ := resolve_grows run.grows tree₁ resolved
  obtain ⟨held, -, contents, executable, found⟩ := resolve_eq_ok.mp resolved
  obtain ⟨held₂, -⟩ := resolve_eq_ok.mp resolved₂
  refine ⟨?_, ?_, r, parsed, ?_⟩
  · rw [Store.isFile, run.grows.find tree₁ found]
  · exact run.grows.readFile tree₁ found
  · intro remotes'
    rw [run_fetch_of_holds parsed remotes' held₂, resolved₂]
    rfl

/-- Fetched once, another checkout fetched after it, and the remotes gone. -/
theorem fetched_file_stays_tagged :
    ∃ w₁, ((⟨"cache"⟩ : Cache).fetch tagged "h.com/o/r/a.dawn@v").run ⟨{}, []⟩ =
        (.ok "cache/h.com/o/r@v/a.dawn", w₁) ∧
      let w₂ := (((⟨"cache"⟩ : Cache).fetch tagged "h.com/o/r/b.dawn@w").run w₁).2
      w₂.store.isFile "cache/h.com/o/r@v/a.dawn" = true ∧
      ((⟨"cache"⟩ : Cache).fetch { clone := fun _ => .error (.plain "no network") }
          "h.com/o/r/a.dawn@v").run w₂ =
        (.ok "cache/h.com/o/r@v/a.dawn", { w₂ with events := w₂.events ++ [.cacheHit "h.com/o/r" "v"] }) := by
  have first : (((⟨"cache"⟩ : Cache).fetch tagged "h.com/o/r/a.dawn@v").run ⟨{}, []⟩).1.toOption =
      some "cache/h.com/o/r@v/a.dawn" := by decide +kernel
  have branch : Reference.parse "h.com/o/r/a.dawn@v" = .ok ⟨"h.com/o/r", "a.dawn", "v"⟩ := by
    decide +kernel
  rcases ran : ((⟨"cache"⟩ : Cache).fetch tagged "h.com/o/r/a.dawn@v").run ⟨{}, []⟩ with ⟨fault | path, w₁⟩
  · rw [ran] at first
    cases first
  · rw [ran] at first
    cases first
    refine ⟨w₁, rfl, ?_⟩
    obtain ⟨isFile, -, r, parsed, again⟩ :=
      fetched_file_stays ran (.fetch .start tagged "h.com/o/r/b.dawn@w")
    rw [branch] at parsed
    cases parsed
    exact ⟨isFile, again _⟩

end Cache

end DawnC
