import DawnC.Proofs.Attempt
import DawnC.Transpile

set_option autoImplicit false

namespace DawnC

open Attempt (Sustains)

variable {R : Store → Store → Prop} [IsPreorder Store R] {fetcher : Option Fetcher}

theorem resolveTarget_sustains
    (fetched : ∀ fetch ∈ fetcher, ∀ text, Sustains (World.OnStore R) (fetch text))
    (including target : String) :
    Sustains (World.OnStore R) (resolveTarget fetcher including target) := by
  unfold resolveTarget
  dsimp only
  by_cases empty : target = ""
  · rw [if_pos empty]
    exact fun w => refl_of R w.store
  · rw [if_neg empty]
    split
    · cases fetcher with
      | none => exact .throw _
      | some fetch =>
          exact .bind (Action.sustains_within _ (fetched fetch rfl target)) fun _ => .pure _
    · apply Sustains.bind Action.sustains_store
      intro s
      split
      · exact .throw _
      · exact .throw _
      · exact .pure _

theorem followIncludes_sustains
    (fetched : ∀ fetch ∈ fetcher, ∀ text, Sustains (World.OnStore R) (fetch text))
    {enter : String → String → Discovery → Action Discovery}
    (entered : ∀ path display d, Sustains (World.OnStore R) (enter path display d))
    (path display : String) (index : Nat) (atoms : List Atom) (d : Discovery) :
    Sustains (World.OnStore R) (followIncludes fetcher enter path display index atoms d) := by
  induction atoms generalizing index d with
  | nil => exact .pure d
  | cons a rest ih =>
      unfold followIncludes
      split
      · exact ih _ _
      · cases rest with
        | nil => exact .throw _
        | cons target later =>
            apply Sustains.bind
            · exact .tryCatch (resolveTarget_sustains fetched _ _) fun _ => .throw _
            · intro found
              apply Sustains.bind (Action.sustains_tell _)
              intro _
              dsimp only
              split
              · exact ih _ _
              · exact .bind (entered _ _ _) fun _ => ih _ _

theorem discover_sustains
    (fetched : ∀ fetch ∈ fetcher, ∀ text, Sustains (World.OnStore R) (fetch text)) (depth : Nat)
    (path display : String) (d : Discovery) :
    Sustains (World.OnStore R) (discover fetcher depth path display d) := by
  induction depth generalizing path display d with
  | zero => exact .throw _
  | succ depth ih =>
      rw [discover]
      apply Sustains.bind Action.sustains_store
      intro s
      apply Sustains.bind
      · exact Action.sustains_inPhase _ (Action.sustains_within _ (Action.sustains_ofExcept _))
      · intro lines
        exact followIncludes_sustains fetched ih _ _ _ _ _

theorem load_sustains
    (fetched : ∀ fetch ∈ fetcher, ∀ text, Sustains (World.OnStore R) (fetch text)) (root : String) :
    Sustains (World.OnStore R) (load fetcher root) := by
  rw [load]
  apply Sustains.bind Action.sustains_store
  intro s
  split
  · exact .throw _
  · apply Sustains.bind (Action.sustains_inPhase _ (Action.sustains_ofExcept _))
    intro path
    apply Sustains.bind (discover_sustains fetched _ _ _ _)
    intro d
    split
    · exact .throw _
    · exact .bind (Action.sustains_tell _) fun _ => .pure _

namespace UnitAction

theorem sustains_tell (event : Event) : Sustains (World.OnStore R) (tell event) :=
  fun w => refl_of R w.store

theorem sustains_ofProgress (progress : Progress) :
    Sustains (World.OnStore R) (ofProgress progress) := by
  rcases progress with ⟨fault, u⟩ | u
  · exact .throw _
  · exact .pure u

theorem sustains_enter (u : CompilationUnit) (phase : Phase) :
    Sustains (World.OnStore R) (enter u phase) := .bind (sustains_tell _) fun _ => .pure _

omit [IsPreorder Store R] in
theorem sustains_read {load : Action (List Atom)} (loaded : Sustains (World.OnStore R) load)
    (u : CompilationUnit) : Sustains (World.OnStore R) (read load u) := by
  apply Sustains.get_bind
  intro w
  rcases ran : load.run w with ⟨fault | atoms, w'⟩
  · exact loaded.of_run ran
  · exact loaded.of_run ran

end UnitAction

open UnitAction in
theorem transpileWith_sustains {load : Action (List Atom)}
    (loaded : Sustains (World.OnStore R) load) (file : String) :
    Sustains (World.OnStore R) (transpileWith load file) := by
  rw [transpileWith]
  refine .bind (sustains_enter _ _) fun u => .bind (sustains_read loaded u) fun u =>
    .bind (sustains_tell _) fun _ => .bind (sustains_enter _ _) fun u =>
    .bind (sustains_ofProgress _) fun u => .bind (sustains_tell _) fun _ =>
    .bind (sustains_enter _ _) fun u => .bind (sustains_tell _) fun _ =>
    .bind (sustains_tell _) fun _ => .bind (sustains_ofProgress _) fun u =>
    .bind (sustains_enter _ _) fun u => .bind (sustains_tell _) fun _ => .pure _

/-- What reading a program does to the files, translating it does. -/
theorem transpile_sustains_of_load {file : String}
    (loaded : Sustains (World.OnStore R) (load fetcher file)) :
    Sustains (World.OnStore R) (transpile fetcher file) := by
  have translated := transpileWith_sustains loaded file
  apply Sustains.get_bind
  intro w
  rcases ran : (transpileUnit fetcher file).run w with ⟨⟨fault, u⟩ | u, w'⟩
  · exact translated.of_run ran
  · exact translated.of_run ran

theorem transpile_sustains
    (fetched : ∀ fetch ∈ fetcher, ∀ text, Sustains (World.OnStore R) (fetch text)) (file : String) :
    Sustains (World.OnStore R) (transpile fetcher file) :=
  transpile_sustains_of_load (load_sustains fetched file)

end DawnC
