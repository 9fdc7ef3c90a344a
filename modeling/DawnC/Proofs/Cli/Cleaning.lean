import DawnC.Cli.Session
import DawnC.Proofs.Remote.Confinement
import DawnC.Proofs.Remote.Persistence
import DawnC.Proofs.Store.Clearing

set_option autoImplicit false

namespace DawnC

open DawnC.Path (Normal IsName)

theorem isName_pkg : ∀ name ∈ ["pkg"], IsName name := by decide

theorem isName_build : ∀ name ∈ ["build"], IsName name := by decide

/-- Names that are joined at once, or one after the other. -/
theorem Path.exists_join_grouped {path first second : String} (filled : path ≠ "")
    (valid : ∀ name ∈ [first, second], IsName name) (last : ∀ name ∈ [second], IsName name) :
    ∃ n : Normal, n.Cleans (Path.join [path, first]) ∧
      Path.join [path, first, second] = (n.under [second] last).text := by
  obtain ⟨m, cleans⟩ := Path.exists_cleans filled
  have single : ∀ name ∈ [first], IsName name := fun name member =>
    valid name (List.mem_append_left [second] member)
  refine ⟨m.under [first] single, ?_, ?_⟩
  · rw [cleans.join single]
    exact Normal.cleans_text _
  · rw [cleans.join valid]
    exact congrArg Normal.text (m.under_append (show ∀ name ∈ [first] ++ [second], IsName name from valid))

namespace Environment

theorem exists_home (env : Environment) :
    ∃ home : Normal, home.Cleans env.dawnHome ∧ env.cacheDir = (home.under ["pkg"] isName_pkg).text := by
  have names : ∀ name ∈ [".dawn", "pkg"], IsName name := by decide
  unfold dawnHome cacheDir
  by_cases given : env.get "DAWN_HOME" ≠ ""
  · rw [if_pos given, if_pos given]
    obtain ⟨home, cleans⟩ := Path.exists_cleans given
    exact ⟨home, cleans, cleans.join isName_pkg⟩
  · rw [if_neg given, if_neg given]
    by_cases user : env.get "HOME" ≠ ""
    · rw [if_pos user, if_pos user]
      exact Path.exists_join_grouped user names isName_pkg
    · rw [if_neg user, if_neg user]
      exact Path.exists_join_grouped (by decide) names isName_pkg

end Environment

namespace BuildConfig

variable {env : Environment} {home : Normal}

theorem buildDir_eq (cleans : home.Cleans env.dawnHome) :
    (ofEnvironment env).buildDir = (home.under ["build"] isName_build).text := cleans.join isName_build

theorem cacheDir_eq (cleans : home.Cleans env.dawnHome) :
    (ofEnvironment env).cacheDir = (home.under ["pkg"] isName_pkg).text := cleans.join isName_pkg

end BuildConfig

namespace SessionAction

variable {s t : Store} {debug : Bool} {output diagnostics : String}

theorem run_print (text : String) : (print text).run ⟨s, debug, output, diagnostics⟩ =
    (.ok (), ⟨s, debug, output ++ text, diagnostics⟩) := rfl

theorem run_act_files {α : Type} {action : FileAction α} {result : Except FileFault α}
    (ran : action.run s = (result, t)) :
    (act (Action.files action)).run ⟨s, debug, output, diagnostics⟩ =
      (result.mapError .file, ⟨t, debug, output, diagnostics⟩) := by
  have acted := Action.run_files (w := { store := s }) ran
  have silent : diagnostics ++ String.join (List.map Event.line []) = diagnostics := String.append_empty
  rw [act, Attempt.run_bind_ok (Attempt.run_get _), acted]
  dsimp only [List.filter_nil]
  rw [silent]
  cases result with
  | error fault => rfl
  | ok a => rfl

end SessionAction

namespace Installation

open Attempt (run_bind_ok run_bind_error)
open SessionAction (run_print run_act_files)
open Store (Cleared)

variable {i : Installation} {s t u : Store} {cwd : Location} {debug : Bool} {output diagnostics : String}

theorem run_clean_of_error {fault : FileFault} {withCache : Bool}
    (failed : i.config.cleanWorkspaces.run s = (.error fault, t)) :
    ∃ after, (i.clean withCache).run ⟨s, debug, output, diagnostics⟩ = (.error (.file fault), after) ∧
      after.store = t := by
  rw [clean, run_bind_ok (run_print _), run_bind_error (run_act_files failed)]
  exact ⟨_, rfl, rfl⟩

/-- Once the workspaces are removed, the cache decides what comes of the command. -/
theorem run_clean_of_ok {result : Except FileFault Unit} (first : i.config.cleanWorkspaces.run s = (.ok (), t))
    (second : (⟨i.config.cacheDir⟩ : Cache).clean.run t = (result, u)) :
    ∃ after, (i.clean true).run ⟨s, debug, output, diagnostics⟩ = (result.mapError .file, after) ∧
      after.store = u := by
  rw [clean, run_bind_ok (run_print _), run_bind_ok (run_act_files first)]
  dsimp only
  rw [if_pos rfl, run_bind_ok (run_print _)]
  cases result with
  | error fault =>
      rw [run_bind_error (run_act_files second)]
      exact ⟨_, rfl, rfl⟩
  | ok done =>
      rw [run_bind_ok (run_act_files second), run_print]
      exact ⟨_, rfl, rfl⟩

theorem parse_clean_cache : Invocation.parse ["clean", "--cache"] = .ok ⟨false, .clean true⟩ := by
  decide

theorem runLine_clean_of_error {fault : FileFault}
    (failed : i.config.cleanWorkspaces.run s = (.error fault, t)) :
    (i.runLine s ["clean", "--cache"]).1 = 1 ∧ (i.runLine s ["clean", "--cache"]).2.store = t := by
  obtain ⟨after, ran, same⟩ := run_clean_of_error failed
  rw [runLine, parse_clean_cache]
  dsimp only
  rw [execute, ran]
  exact ⟨rfl, same⟩

theorem runLine_clean_of_ok {result : Except FileFault Unit}
    (first : i.config.cleanWorkspaces.run s = (.ok (), t))
    (second : (⟨i.config.cacheDir⟩ : Cache).clean.run t = (result, u)) :
    (i.runLine s ["clean", "--cache"]).1 = (if result = .ok () then 0 else 1) ∧
      (i.runLine s ["clean", "--cache"]).2.store = u := by
  obtain ⟨after, ran, same⟩ := run_clean_of_ok first second
  rw [runLine, parse_clean_cache]
  dsimp only
  rw [execute, ran]
  cases result with
  | error fault => exact ⟨rfl, same⟩
  | ok done => exact ⟨rfl, same⟩

/-- The home is a directory or missing, and all that is among the workspaces and in the cache can be
removed. -/
structure IsCleanable (i : Installation) (s : Store) : Prop where
  home : s.find (Path.clean i.environment.dawnHome) = .ok .directory ∨
    s.find (Path.clean i.environment.dawnHome) = .error .notFound
  workspaces : s.stuckBelow (Path.place s.cwd i.config.buildDir) = []
  cache : s.stuckBelow (Path.place s.cwd i.environment.cacheDir) = []

section Home

variable {home : Normal} (cleans : home.Cleans i.environment.dawnHome)

include cleans

theorem place_buildDir (cwd : Location) : Path.place cwd i.config.buildDir = home.place cwd ++ ["build"] := by
  rw [config, BuildConfig.buildDir_eq cleans, Normal.place_text, Normal.place_under]

/-- What is stuck among the workspaces stops the command. What is stuck in the cache makes it fail in the
end. -/
theorem runLine_clean_of_cleared {result : Except FileFault Unit}
    (first : (FileAction.removeTree (home.under ["build"] isName_build).text).run s = (result, t))
    (cleared : Cleared (home.place cwd ++ ["build"]) s t)
    (outcome : result = .ok () ↔ s.stuckBelow (home.place cwd ++ ["build"]) = [])
    (second : ∃ result' u,
      (FileAction.removeTree (home.under ["pkg"] isName_pkg).text).run t = (result', u) ∧
        Cleared (home.place cwd ++ ["pkg"]) t u ∧
        (result' = .ok () ↔ t.stuckBelow (home.place cwd ++ ["pkg"]) = [])) :
    (s.stuckBelow (home.place cwd ++ ["build"]) = [] → s.stuckBelow (home.place cwd ++ ["pkg"]) = [] →
      (i.runLine s ["clean", "--cache"]).1 = 0 ∧
      ∀ place, (i.runLine s ["clean", "--cache"]).2.store.get? place =
        if home.place cwd ++ ["build"] <+: place ∨ home.place cwd ++ ["pkg"] <+: place then none
        else s.get? place) ∧
    ((s.stuckBelow (home.place cwd ++ ["build"]) = [] → s.stuckBelow (home.place cwd ++ ["pkg"]) ≠ []) →
      (i.runLine s ["clean", "--cache"]).1 = 1) ∧
    ∀ place, ¬ home.place cwd ++ ["build"] <+: place → ¬ home.place cwd ++ ["pkg"] <+: place →
      (i.runLine s ["clean", "--cache"]).2.store.get? place = s.get? place := by
  have apart : ¬ home.place cwd ++ ["build"] <+: home.place cwd ++ ["pkg"] := by simp
  have apart' : ¬ home.place cwd ++ ["pkg"] <+: home.place cwd ++ ["build"] := by simp
  obtain ⟨result', u, cleaned, cleared', outcome'⟩ := second
  rw [cleared.stuckBelow_apart (by simp) apart apart'] at outcome'
  rw [← BuildConfig.buildDir_eq cleans] at first
  rw [← BuildConfig.cacheDir_eq cleans] at cleaned
  cases result with
  | error fault =>
      have stuck : s.stuckBelow (home.place cwd ++ ["build"]) ≠ [] := fun free => by cases outcome.mpr free
      obtain ⟨code, store⟩ := runLine_clean_of_error first
      refine ⟨fun free => absurd free stuck, fun _ => code, fun place outside _ => ?_⟩
      rw [store, cleared.get?_eq, if_neg fun below => outside below.1]
  | ok done =>
      have free := outcome.mp rfl
      obtain ⟨code, store⟩ := runLine_clean_of_ok first cleaned
      refine ⟨fun _ free' => ⟨?_, fun place => ?_⟩, fun stuck => ?_, fun place outside outside' => ?_⟩
      · rw [code, if_pos (outcome'.mpr free')]
      · have loose := Store.not_stays free place
        have loose' : ¬ t.Stays (home.place cwd ++ ["pkg"]) place :=
          Store.not_stays ((cleared.stuckBelow_apart (by simp) apart apart').mpr free') place
        rw [store, cleared'.get?_eq, cleared.get?_eq]
        simp only [loose, loose', not_false_eq_true, and_true]
        by_cases inCache : home.place cwd ++ ["pkg"] <+: place
        · rw [if_pos inCache, if_pos (Or.inr inCache)]
        · simp only [inCache, if_false, or_false]
      · rw [code, if_neg fun done => stuck free (outcome'.mp done)]
      · rw [store, cleared'.get?_eq, if_neg fun below => outside' below.1, cleared.get?_eq,
          if_neg fun below => outside below.1]

variable (tree : s.TreeAt cwd)

include tree

/-- A home that is no directory stops the command before anything is removed. -/
theorem runLine_clean_fails (noDirectory : s.find home.text ≠ .ok .directory)
    (blocked : s.find home.text ≠ .error .notFound) :
    (i.runLine s ["clean", "--cache"]).1 = 1 ∧ (i.runLine s ["clean", "--cache"]).2.store = s := by
  obtain ⟨fault, failed⟩ := FileAction.removeTree_fails tree noDirectory blocked isName_build
  rw [← BuildConfig.buildDir_eq cleans] at failed
  exact runLine_clean_of_error failed

theorem runLine_clean_of_home
    (there : s.find home.text = .ok .directory ∨ s.find home.text = .error .notFound) :
    (s.stuckBelow (home.place cwd ++ ["build"]) = [] → s.stuckBelow (home.place cwd ++ ["pkg"]) = [] →
      (i.runLine s ["clean", "--cache"]).1 = 0 ∧
      ∀ place, (i.runLine s ["clean", "--cache"]).2.store.get? place =
        if home.place cwd ++ ["build"] <+: place ∨ home.place cwd ++ ["pkg"] <+: place then none
        else s.get? place) ∧
    ((s.stuckBelow (home.place cwd ++ ["build"]) = [] → s.stuckBelow (home.place cwd ++ ["pkg"]) ≠ []) →
      (i.runLine s ["clean", "--cache"]).1 = 1) ∧
    ∀ place, ¬ home.place cwd ++ ["build"] <+: place → ¬ home.place cwd ++ ["pkg"] <+: place →
      (i.runLine s ["clean", "--cache"]).2.store.get? place = s.get? place := by
  rcases there with found | missing
  · obtain ⟨result, t, first, cleared, outcome⟩ :=
      FileAction.removeTree_of_directory tree found isName_build (by decide) (by decide)
    exact runLine_clean_of_cleared cleans first cleared outcome
      (FileAction.removeTree_of_directory (cleared.treeAt tree) (cleared.find_parent tree found)
        isName_pkg (by decide) (by decide))
  · obtain ⟨first, free⟩ := FileAction.removeTree_of_notFound tree missing isName_build
    obtain ⟨second, free'⟩ := FileAction.removeTree_of_notFound tree missing isName_pkg
    exact runLine_clean_of_cleared cleans first (.of_none free)
      (by simp [Store.stuckBelow_of_none (by simp) free])
      ⟨_, s, second, .of_none free', by simp [Store.stuckBelow_of_none (by simp) free']⟩

end Home

end Installation

namespace Cache

open Attempt (Sustains)
open Store (Changes)

variable {c : Cache} {e : Normal} {remotes : Remotes} {text : String} {r : Reference} {cwd : Location}
  {w w' : World} {path : String}

section Inward

variable (shape : c.dir = e.text) (parsed : Reference.parse text = .ok r) (inward : r.Inward)

include shape parsed inward

/-- A fetch writes in the cache only, wherever its directory is looked up from. -/
theorem fetch_changes_text (remotes : Remotes) :
    Sustains (World.OnStore (Changes cwd (· <+: e.place cwd) (e.place cwd <+: ·)))
      (c.fetch remotes text) := by
  obtain ⟨d, normal, -⟩ := c.exists_checkoutPath r.repo r.ref
  obtain ⟨names, -, leads⟩ :=
    place_checkoutPath_inward parsed inward (shape ▸ e.text_ne_empty) cwd
  rw [normal, shape, Normal.place_text, Normal.place_text] at leads
  exact fetch_changes_below parsed shape normal (leads ▸ List.prefix_append _ _)

/-- What a fetch gives is a file in the cache. -/
theorem file_of_fetch (fetched : (c.fetch remotes text).run w = (.ok path, w'))
    (tree : w'.store.TreeAt cwd) :
    e.place cwd <+: Path.place cwd path ∧
      ∃ contents executable, w'.store.get? (Path.place cwd path) = some (.file contents executable) := by
  obtain ⟨r', parsed', resolved⟩ := resolve_of_fetch fetched
  cases parsed.symm.trans parsed'
  obtain ⟨-, same, contents, executable, found⟩ := resolve_eq_ok.mp resolved
  obtain ⟨names, -, leads⟩ :=
    place_checkoutPath_inward parsed inward (shape ▸ e.text_ne_empty) cwd
  obtain ⟨more, -, file⟩ := place_file parsed c cwd
  refine ⟨?_, contents, executable, tree.file_of_find found⟩
  rw [same, file, leads, shape, Normal.place_text, List.append_assoc]
  exact List.prefix_append _ _

end Inward

end Cache

end DawnC
