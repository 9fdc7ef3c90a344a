import DawnC.World
import Mathlib.Order.Defs.Unbundled

set_option autoImplicit false

namespace DawnC

theorem Store.absolute_cases (s : Store) (path : String) :
    s.absolute path = .ok (Path.absolute s.cwdPath path) ∨
      Path.isAbsolute path = false ∧ s.hasWorkingDirectory = false ∧
        s.absolute path = .error .noWorkingDirectory := by
  rw [absolute]
  split
  · exact Or.inl rfl
  · rename_i lost
    rw [Bool.or_eq_true, not_or, Bool.not_eq_true, Bool.not_eq_true] at lost
    exact Or.inr ⟨lost.1, lost.2, rfl⟩

namespace Attempt

variable {ε σ α β : Type} {x : Attempt ε σ α} {f : α → Attempt ε σ β} {s t : σ}

theorem run_bind_ok {a : α} (ran : x.run s = (.ok a, t)) : (x >>= f).run s = (f a).run t := by
  rw [run_bind, ran]

theorem run_bind_error {e : ε} (failed : x.run s = (.error e, t)) :
    (x >>= f).run s = (.error e, t) := by
  rw [run_bind, failed]

theorem run_bind_eq_ok {b : β} {u : σ} :
    (x >>= f).run s = (.ok b, u) ↔ ∃ a t, x.run s = (.ok a, t) ∧ (f a).run t = (.ok b, u) := by
  rcases ran : x.run s with ⟨e | a, t⟩
  · rw [run_bind_error ran]
    constructor
    · intro impossible
      cases impossible
    · rintro ⟨a, t', impossible, -⟩
      cases impossible
  · rw [run_bind_ok ran]
    constructor
    · intro second
      exact ⟨a, t, rfl, second⟩
    · rintro ⟨a', t', same, second⟩
      cases same
      exact second

theorem run_bind_eq_error {e : ε} {u : σ} :
    (x >>= f).run s = (.error e, u) ↔
      x.run s = (.error e, u) ∨ ∃ a t, x.run s = (.ok a, t) ∧ (f a).run t = (.error e, u) := by
  rcases ran : x.run s with ⟨e' | a, t⟩
  · rw [run_bind_error ran]
    constructor
    · intro same
      cases same
      exact Or.inl rfl
    · rintro (same | ⟨a, t', impossible, -⟩)
      · cases same
        rfl
      · cases impossible
  · rw [run_bind_ok ran]
    constructor
    · intro second
      exact Or.inr ⟨a, t, rfl, second⟩
    · rintro (same | ⟨a', t', same, second⟩)
      · cases same
      · cases same
        exact second

variable {handle : ε → Attempt ε σ α}

theorem run_tryCatch_ok {a : α} (ran : x.run s = (.ok a, t)) :
    (tryCatch x handle).run s = (.ok a, t) := by
  rw [run_tryCatch, ran]

theorem run_tryCatch_error {e : ε} (failed : x.run s = (.error e, t)) :
    (tryCatch x handle).run s = (handle e).run t := by
  rw [run_tryCatch, failed]

/-- A property of computations that is kept when they are put together. -/
structure Closed (C : (α : Type) → Attempt ε σ α → Prop) : Prop where
  pure : ∀ {α : Type} (a : α), C α (pure a)
  throw : ∀ {α : Type} (e : ε), C α (throw e)
  bind : ∀ {α β : Type} {x : Attempt ε σ α} {f : α → Attempt ε σ β}, C α x → (∀ a, C β (f a)) →
    C β (x >>= f)
  /-- a look at the state that nothing depends on -/
  look : ∀ {α : Type} {x : Attempt ε σ α}, C α x → C α (get >>= fun _ => x)

theorem Closed.forM {C : (α : Type) → Attempt ε σ α → Prop} (closed : Closed C) {list : List β}
    {f : β → Attempt ε σ PUnit} (each : ∀ b ∈ list, C PUnit (f b)) : C PUnit (list.forM f) := by
  induction list with
  | nil => exact closed.pure _
  | cons b rest ih =>
      exact closed.bind (each b List.mem_cons_self)
        fun _ => ih fun b' member => each b' (List.mem_cons_of_mem _ member)

/-- Whatever comes of the computation, it moves the state along the relation. -/
def Sustains (R : σ → σ → Prop) (x : Attempt ε σ α) : Prop := ∀ s, R s (x.run s).2

namespace Sustains

variable {R : σ → σ → Prop}

theorem of_run {s t : σ} {result : Except ε α} (sustains : Sustains R x)
    (ran : x.run s = (result, t)) : R s t := by
  have moved := sustains s
  rwa [ran] at moved

theorem get_bind {f : σ → Attempt ε σ β} (each : ∀ s, R s ((f s).run s).2) :
    Sustains R (get >>= f) := by
  intro s
  rw [run_bind_ok (run_get s)]
  exact each s

theorem look {f : σ → Attempt ε σ β} (each : ∀ s, Sustains R (f s)) : Sustains R (get >>= f) :=
  get_bind fun s => each s s

variable [IsPreorder σ R]

theorem pure (a : α) : Sustains R (Pure.pure a : Attempt ε σ α) := fun s => refl_of R s

theorem throw (e : ε) : Sustains R (throw e : Attempt ε σ α) := fun s => refl_of R s

theorem bind (first : Sustains R x) (second : ∀ a, Sustains R (f a)) : Sustains R (x >>= f) := by
  intro s
  rcases ran : x.run s with ⟨e | a, t⟩
  · rw [run_bind_error ran]
    exact first.of_run ran
  · rw [run_bind_ok ran]
    exact trans_of R (first.of_run ran) (second a t)

theorem tryCatch (tried : Sustains R x) (handled : ∀ e, Sustains R (handle e)) :
    Sustains R (MonadExcept.tryCatch x handle) := by
  intro s
  rcases ran : x.run s with ⟨e | a, t⟩
  · rw [run_tryCatch_error ran]
    exact trans_of R (tried.of_run ran) (handled e t)
  · rw [run_tryCatch_ok ran]
    exact tried.of_run ran

theorem closed : Closed (fun α (x : Attempt ε σ α) => Sustains R x) where
  pure := pure
  throw := throw
  bind := bind
  look each := look fun _ => each

theorem forM {list : List β} {f : β → Attempt ε σ PUnit} (each : ∀ b ∈ list, Sustains R (f b)) :
    Sustains R (list.forM f) := closed.forM each

end Sustains

/-- From related states the computation comes to the same result and to related states. -/
def Respects (R : σ → σ → Prop) (x : Attempt ε σ α) : Prop :=
  ∀ s t, R s t → (x.run s).1 = (x.run t).1 ∧ R (x.run s).2 (x.run t).2

namespace Respects

variable {R : σ → σ → Prop}

theorem pure (a : α) : Respects R (Pure.pure a : Attempt ε σ α) := fun _ _ related => ⟨rfl, related⟩

theorem throw (e : ε) : Respects R (throw e : Attempt ε σ α) := fun _ _ related => ⟨rfl, related⟩

/-- The two runs fail alike or succeed alike. -/
theorem cases (respects : Respects R x) (related : R s t) :
    (∃ e s' t', x.run s = (.error e, s') ∧ x.run t = (.error e, t') ∧ R s' t') ∨
      ∃ a s' t', x.run s = (.ok a, s') ∧ x.run t = (.ok a, t') ∧ R s' t' := by
  obtain ⟨same, related'⟩ := respects s t related
  rcases ran : x.run s with ⟨result, s'⟩
  rcases ran' : x.run t with ⟨result', t'⟩
  rw [ran, ran'] at same related'
  obtain rfl : result = result' := same
  cases result with
  | error e => exact Or.inl ⟨e, s', t', rfl, rfl, related'⟩
  | ok a => exact Or.inr ⟨a, s', t', rfl, rfl, related'⟩

/-- The second step may rely on what the first one leaves when it succeeds. -/
theorem bind_of_ok (first : Respects R x)
    (second : ∀ s t a s' t', R s t → x.run s = (.ok a, s') → x.run t = (.ok a, t') → R s' t' →
      ((f a).run s').1 = ((f a).run t').1 ∧ R ((f a).run s').2 ((f a).run t').2) :
    Respects R (x >>= f) := by
  intro s t related
  rcases first.cases related with ⟨e, s', t', ran, ran', related'⟩ | ⟨a, s', t', ran, ran', related'⟩
  · rw [run_bind_error ran, run_bind_error ran']
    exact ⟨rfl, related'⟩
  · rw [run_bind_ok ran, run_bind_ok ran']
    exact second s t a s' t' related ran ran' related'

theorem bind (first : Respects R x) (second : ∀ a, Respects R (f a)) : Respects R (x >>= f) :=
  first.bind_of_ok fun _ _ a s' t' _ _ _ related => second a s' t' related

theorem get_bind {f : σ → Attempt ε σ β} (each : ∀ s t, R s t → f s = f t)
    (second : ∀ s, Respects R (f s)) : Respects R (get >>= f) := by
  intro s t related
  rw [run_bind_ok (run_get s), run_bind_ok (run_get t), each s t related]
  exact second t s t related

theorem tryCatch (tried : Respects R x) (handled : ∀ e, Respects R (handle e)) :
    Respects R (MonadExcept.tryCatch x handle) := by
  intro s t related
  rcases tried.cases related with ⟨e, s', t', ran, ran', related'⟩ | ⟨a, s', t', ran, ran', related'⟩
  · rw [run_tryCatch_error ran, run_tryCatch_error ran']
    exact handled e s' t' related'
  · rw [run_tryCatch_ok ran, run_tryCatch_ok ran']
    exact ⟨rfl, related'⟩

theorem closed : Closed (fun α (x : Attempt ε σ α) => Respects R x) where
  pure := pure
  throw := throw
  bind := bind
  look each := get_bind (fun _ _ _ => rfl) fun _ => each

theorem forM {list : List β} {f : β → Attempt ε σ PUnit} (each : ∀ b ∈ list, Respects R (f b)) :
    Respects R (list.forM f) := closed.forM each

end Respects

/-- If the computation fails, then with a fault that has the property. -/
def Throws (P : ε → Prop) (x : Attempt ε σ α) : Prop := ∀ s e t, x.run s = (.error e, t) → P e

namespace Throws

variable {P Q : ε → Prop}

theorem pure (a : α) : Throws P (Pure.pure a : Attempt ε σ α) := by
  intro s e t failed
  cases failed

theorem throw {e : ε} (holds : P e) : Throws P (throw e : Attempt ε σ α) := by
  intro s e t failed
  cases failed
  exact holds

theorem bind (first : Throws P x) (second : ∀ a, Throws P (f a)) : Throws P (x >>= f) := by
  intro s e t failed
  rcases run_bind_eq_error.mp failed with early | ⟨a, s', -, late⟩
  · exact first s e t early
  · exact second a s' e t late

theorem tryCatch (tried : Throws Q x) (handled : ∀ e, Q e → Throws P (handle e)) :
    Throws P (MonadExcept.tryCatch x handle) := by
  intro s e t failed
  rcases ran : x.run s with ⟨e' | a, s'⟩
  · rw [run_tryCatch_error ran] at failed
    exact handled e' (tried s e' s' ran) s' e t failed
  · rw [run_tryCatch_ok ran] at failed
    cases failed

end Throws

/-- From this state the computation succeeds exactly if `good` holds, and then comes to a state with `Q`. -/
def Settles (x : Attempt ε σ PUnit) (s : σ) (good : Prop) (Q : σ → Prop) : Prop :=
  good ∧ (∃ t, x.run s = (.ok ⟨⟩, t) ∧ Q t) ∨ ¬ good ∧ ∃ e t, x.run s = (.error e, t)

namespace Settles

variable {x : Attempt ε σ PUnit} {s t : σ} {good good' : Prop} {Q Q' : σ → Prop}

theorem pure (holds : good) (here : Q s) : Settles (Pure.pure ⟨⟩ : Attempt ε σ PUnit) s good Q :=
  Or.inl ⟨holds, s, rfl, here⟩

theorem mono (settles : Settles x s good Q) (same : good ↔ good') (weaker : ∀ t, Q t → Q' t) :
    Settles x s good' Q' := by
  rcases settles with ⟨holds, t, ran, post⟩ | ⟨fails, failed⟩
  · exact Or.inl ⟨same.mp holds, t, ran, weaker t post⟩
  · exact Or.inr ⟨fun holds => fails (same.mpr holds), failed⟩

theorem bind_ok {y : Attempt ε σ α} {f : α → Attempt ε σ PUnit} {a : α} (ran : y.run s = (.ok a, t))
    (settles : Settles (f a) t good Q) : Settles (y >>= f) s good Q := by
  rw [Settles, run_bind_ok ran]
  exact settles

theorem succeeds_iff (settles : Settles x s good Q) : (∃ t, x.run s = (.ok ⟨⟩, t)) ↔ good := by
  rcases settles with ⟨holds, t, ran, -⟩ | ⟨fails, e, t, failed⟩
  · exact ⟨fun _ => holds, fun _ => ⟨t, ran⟩⟩
  · refine ⟨?_, fun holds => absurd holds fails⟩
    rintro ⟨t', ran⟩
    rw [failed] at ran
    cases ran

theorem post (settles : Settles x s good Q) (ran : x.run s = (.ok ⟨⟩, t)) : Q t := by
  rcases settles with ⟨-, t', ran', post⟩ | ⟨-, e, t', failed⟩
  · rw [ran] at ran'
    cases ran'
    exact post
  · rw [ran] at failed
    cases failed

/-- A loop settles if each of its steps does; `I` holds of what was done so far. -/
theorem forM {f : β → Attempt ε σ PUnit} {G : β → Prop} {I : List β → σ → Prop} {list : List β}
    (step : ∀ before b, b ∈ list → ∀ s, I before s → Settles (f b) s (G b) (I (before ++ [b])))
    (start : I [] s) : Settles (list.forM f) s (∀ b ∈ list, G b) (I list) := by
  have walked (rest before : List β) (inside : ∀ b ∈ rest, b ∈ list) (s : σ) (here : I before s) :
      Settles (rest.forM f) s (∀ b ∈ rest, G b) (I (before ++ rest)) := by
    induction rest generalizing before s with
    | nil => exact .pure (by simp) (by simpa using here)
    | cons b rest ih =>
        rcases step before b (inside b List.mem_cons_self) s here with
          ⟨holds, t, ran, here'⟩ | ⟨fails, e, t, failed⟩
        · have later := ih (before ++ [b]) (fun b' member => inside b' (List.mem_cons_of_mem _ member))
            t here'
          rw [List.append_assoc] at later
          exact .bind_ok ran (later.mono (by simp [holds]) fun _ post => post)
        · exact Or.inr ⟨fun all => fails (all b List.mem_cons_self), e, t, run_bind_error failed⟩
  exact walked list [] (fun _ member => member) s start

end Settles

end Attempt

def World.OnStore (R : Store → Store → Prop) (w w' : World) : Prop := R w.store w'.store

instance (R : Store → Store → Prop) [IsPreorder Store R] : IsPreorder World (World.OnStore R) where
  refl w := refl_of R w.store
  trans _ _ _ first second := trans_of R first second

namespace Action

open Attempt (Sustains Respects)

variable {R : Store → Store → Prop} {α : Type}

theorem run_files {action : FileAction α} {w : World} {result : Except FileFault α} {s : Store}
    (ran : action.run w.store = (result, s)) :
    (files action).run w = (result.mapError .file, { w with store := s }) := by
  have stored : (Action.store).run w = (.ok w.store, w) := rfl
  rw [files, Attempt.run_bind_ok stored, ran]
  cases result with
  | error fault => rfl
  | ok a => rfl

theorem respects_files {action : FileAction α} (respects : Respects R action) :
    Respects (World.OnStore R) (files action) := by
  intro w w' related
  obtain ⟨same, related'⟩ := respects w.store w'.store related
  rcases ran : action.run w.store with ⟨result, s⟩
  rcases ran' : action.run w'.store with ⟨result', s'⟩
  rw [ran, ran'] at same related'
  rw [run_files ran, run_files ran']
  exact ⟨congrArg (Except.mapError Fault.file) same, related'⟩

theorem respects_tell (event : Event) : Respects (World.OnStore R) (tell event) :=
  fun _ _ related => ⟨rfl, related⟩

theorem respects_ofExcept (result : Except Fault α) : Respects (World.OnStore R) (ofExcept result) := by
  cases result with
  | error fault => exact .throw fault
  | ok a => exact .pure a

theorem respects_within {action : Action α} (context : String)
    (respects : Respects (World.OnStore R) action) :
    Respects (World.OnStore R) (within context action) := .tryCatch respects fun _ => .throw _

theorem sustains_files {action : FileAction α} (sustains : Sustains R action) :
    Sustains (World.OnStore R) (files action) := by
  intro w
  rcases ran : action.run w.store with ⟨result, s⟩
  rw [run_files ran]
  exact sustains.of_run ran

theorem settles_files {action : FileAction Unit} {w : World} {good : Prop} {Q : Store → Prop}
    (settles : Attempt.Settles action w.store good Q) :
    Attempt.Settles (files action) w good fun w' => Q w'.store ∧ w'.events = w.events := by
  rcases settles with ⟨holds, t, ran, post⟩ | ⟨fails, fault, t, failed⟩
  · exact Or.inl ⟨holds, _, run_files ran, post, rfl⟩
  · exact Or.inr ⟨fails, _, _, run_files failed⟩

variable [IsPreorder Store R]

theorem sustains_store : Sustains (World.OnStore R) store := fun w => refl_of R w.store

theorem sustains_tell (event : Event) : Sustains (World.OnStore R) (tell event) :=
  fun w => refl_of R w.store

theorem sustains_ofExcept (result : Except Fault α) :
    Sustains (World.OnStore R) (ofExcept result) := by
  cases result with
  | error fault => exact .throw fault
  | ok a => exact .pure a

theorem sustains_within {action : Action α} (context : String)
    (sustains : Sustains (World.OnStore R) action) :
    Sustains (World.OnStore R) (within context action) := .tryCatch sustains fun _ => .throw _

theorem sustains_inPhase {action : Action α} (phase : Phase)
    (sustains : Sustains (World.OnStore R) action) :
    Sustains (World.OnStore R) (inPhase phase action) := .tryCatch sustains fun _ => .throw _

end Action

end DawnC
