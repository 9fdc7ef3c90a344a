set_option autoImplicit false

namespace DawnC

/-- A computation on a state that may fail, and then keeps what it did to the state. -/
abbrev Attempt (ε σ : Type) := ExceptT ε (StateM σ)

namespace Attempt

variable {ε σ α β : Type}

@[simp] theorem run_pure (a : α) (s : σ) : (pure a : Attempt ε σ α).run s = (.ok a, s) := rfl

@[simp] theorem run_throw (e : ε) (s : σ) : (throw e : Attempt ε σ α).run s = (.error e, s) := rfl

@[simp] theorem run_get (s : σ) : (get : Attempt ε σ σ).run s = (.ok s, s) := rfl

@[simp] theorem run_set (new s : σ) : (set new : Attempt ε σ PUnit).run s = (.ok ⟨⟩, new) := rfl

@[simp] theorem run_modify (f : σ → σ) (s : σ) :
    (modify f : Attempt ε σ PUnit).run s = (.ok ⟨⟩, f s) := rfl

/-- What comes after a fault is not run. -/
theorem run_bind (x : Attempt ε σ α) (f : α → Attempt ε σ β) (s : σ) :
    (x >>= f).run s =
      match x.run s with
      | (.ok a, t) => (f a).run t
      | (.error e, t) => (.error e, t) := by
  change (match x.run s with | (r, t) => ExceptT.bindCont f r t) = _
  rcases x.run s with ⟨r | r, t⟩ <;> rfl

/-- The handler starts from the state at the fault. -/
theorem run_tryCatch (x : Attempt ε σ α) (handle : ε → Attempt ε σ α) (s : σ) :
    (tryCatch x handle).run s =
      match x.run s with
      | (.ok a, t) => (.ok a, t)
      | (.error e, t) => (handle e).run t := by
  change (match x.run s with
    | (r, t) => (match r with | .ok a => (pure a : Attempt ε σ α) | .error e => handle e).run t) = _
  rcases x.run s with ⟨r | r, t⟩ <;> rfl

end Attempt

end DawnC
