import TinyGoDriver.Go.Relational

/-!
# What a call that keeps state ends with

`Ends Q E x s` says that `x`, run from `s`, neither panics nor diverges nor strays.  If it returns,
`Q` holds of the value and the state, and if it fails, `E` holds of the error and the state.
`Fails E x s` is only about the errors that `x` may return.
-/

namespace GoRt

variable {ε σ α β : Type}

/-- Run from `s`, the call returns with `Q` or fails with `E`. -/
def Ends (Q : α → σ → Prop) (E : ε → σ → Prop) (x : GoM ε σ α) (s : σ) : Prop :=
  match x s with
  | .ok a s' => Q a s'
  | .error (.fail e) s' => E e s'
  | .error _ _ => False

namespace Ends

variable {Q : α → σ → Prop} {E : ε → σ → Prop} {s : σ}

variable {x : GoM ε σ α}

theorem bind {R : β → σ → Prop} {f : α → GoM ε σ β} (hx : Ends Q E x s)
    (hf : ∀ a s', Q a s' → Ends R E (f a) s') :
  Ends R E (x >>= f) s
  := by
  rw [Ends] at hx ⊢
  rw [GoM.bind_apply]
  match hxs : x s, hx with
  | .ok a s', h => exact hf a s' h
  | .error (.fail e) s', h => exact h

theorem mono {Q' : α → σ → Prop} {E' : ε → σ → Prop} (hx : Ends Q E x s)
    (hQ : ∀ a s', Q a s' → Q' a s') (hE : ∀ e s', E e s' → E' e s') :
  Ends Q' E' x s
  := by
  rw [Ends] at hx ⊢
  match hxs : x s, hx with
  | .ok a s', h => exact hQ a s' h
  | .error (.fail e) s', h => exact hE e s' h

theorem pure {a : α} (h : Q a s) :
  Ends Q E (Pure.pure a) s
  := h

theorem fail {e : ε} (h : E e s) :
  Ends Q E (GoM.fail e) s
  := h

theorem get_bind {f : σ → GoM ε σ α} (h : Ends Q E (f s) s) :
  Ends Q E (get >>= f) s
  := h

theorem modify_bind {u : σ → σ} {f : PUnit → GoM ε σ α} (h : Ends Q E (f ⟨⟩) (u s)) :
  Ends Q E (modify u >>= f) s
  := h

theorem of_ok {a : α} {s' : σ} (hx : Ends Q E x s) (h : x s = .ok a s') :
  Q a s'
  := by
  rwa [Ends, h] at hx

theorem cases (hx : Ends Q E x s) :
  (∃ a s', x s = .ok a s' ∧ Q a s') ∨ ∃ e s', x s = .error (.fail e) s' ∧ E e s'
  := by
  rw [Ends] at hx
  match hxs : x s, hx with
  | .ok a s', h => exact .inl ⟨a, s', rfl, h⟩
  | .error (.fail e) s', h => exact .inr ⟨e, s', rfl, h⟩

end Ends

/-- Run from `s`, the call fails with `E` if it fails. -/
def Fails (E : ε → σ → Prop) (x : GoM ε σ α) (s : σ) : Prop :=
  ∀ e s', x s = .error (.fail e) s' → E e s'

namespace Fails

variable {E : ε → σ → Prop} {s : σ} {x : GoM ε σ α}

theorem bind {f : α → GoM ε σ β} (hx : Fails E x s)
    (hf : ∀ a s', x s = .ok a s' → Fails E (f a) s') :
  Fails E (x >>= f) s
  := by
  intro e s' h
  rw [GoM.bind_apply] at h
  cases hxs : x s with
  | ok a s₁ =>
    rw [hxs] at h
    exact hf a s₁ hxs e s' h
  | error e₁ s₁ =>
    rw [hxs] at h
    cases h
    exact hx e s' hxs

theorem mono {E' : ε → σ → Prop} (hx : Fails E x s) (hE : ∀ e s', E e s' → E' e s') :
  Fails E' x s
  := fun e s' h => hE e s' (hx e s' h)

theorem pure (a : α) :
  Fails E (Pure.pure a) s
  := nofun

theorem fail {e : ε} (h : E e s) :
  Fails E (GoM.fail e : GoM ε σ α) s
  := by
  rintro _ _ ⟨⟩
  exact h

theorem get_bind {f : σ → GoM ε σ α} (h : Fails E (f s) s) :
  Fails E (get >>= f) s
  := h

end Fails

end GoRt
