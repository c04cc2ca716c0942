import TinyGoDriver.Go.Basic

/-!
# Calls that keep state, and two runs side by side

A Go call that updates state in place is a computation in `GoM ε σ`: it also ends with a
state, the one reached, when it ends with a fault.

`Same R x y` compares two calls: both return values related by `R`, or both return the
same error.  `SameRun R E x y s t` does so for calls that keep state, run from `s` and
from `t`; the states after the two calls are related by `R` along with the values, and by
`E` if the calls fail.  A call compared with itself is safe, so that one proof by the
rules below gives both that a call ends in an orderly way and what its result depends on.
-/

namespace GoRt

variable {ε σ τ α β γ δ : Type}

/-- A call that keeps a state of type `σ`. -/
abbrev GoM (ε σ α : Type) : Type := EStateM (Fault ε) σ α

/-- A call that keeps no state, made from one that does. -/
def GoM.call (x : Go ε α) : GoM ε σ α := fun s =>
  match x with
  | .ok a => .ok a s
  | .error e => .error e s

/-- The same fault where errors are wrapped by `f`. -/
def Fault.map (f : ε → δ) : Fault ε → Fault δ
  | .panic => .panic
  | .diverge => .diverge
  | .stray => .stray
  | .fail e => .fail (f e)

/-- A call on the part of the state that `σ` has for `τ`, whose errors are wrapped by `f`.
The part may be missing, which is a nil dereference. -/
def GoM.on (part : σ → Option τ) (put : σ → τ → σ) (f : ε → δ) (x : GoM ε τ α) : GoM δ σ α :=
  fun s =>
    match part s with
    | none => .error .panic s
    | some t =>
      match x t with
      | .ok a t' => .ok a (put s t')
      | .error e t' => .error (e.map f) (put s t')

/-- Returning the error `e`. -/
def GoM.fail (e : ε) : GoM ε σ α := fun s => .error (.fail e) s

variable {x : GoM ε σ α}

variable {s' : σ} {a : α} {e : ε} {t' : τ}

namespace GoM

theorem bind_apply (x : GoM ε σ α) (f : α → GoM ε σ β) (s : σ) :
  (x >>= f) s = match x s with
    | .ok a s' => f a s'
    | .error e s' => .error e s'
  := by
  simp only [bind, EStateM.bind]
  cases x s with
  | ok a s' => rfl
  | error e s' => rfl

variable {s : σ} {f : α → GoM ε σ β} {part : σ → Option τ} {put : σ → τ → σ}

theorem bind_ok (h : x s = .ok a s') :
  (x >>= f) s = f a s'
  := by
  rw [bind_apply, h]

theorem bind_error {e : Fault ε} (h : x s = .error e s') :
  (x >>= f) s = .error e s'
  := by
  rw [bind_apply, h]

@[simp]
theorem pure_apply (a : α) (s : σ) :
  (pure a : GoM ε σ α) s = .ok a s
  := rfl

@[simp]
theorem get_apply (s : σ) :
  (get : GoM ε σ σ) s = .ok s s
  := rfl

theorem get_bind (f : σ → GoM ε σ α) (s : σ) :
  (get >>= f) s = f s s
  := rfl

@[simp]
theorem set_apply (s s' : σ) :
  (set s' : GoM ε σ PUnit) s = .ok ⟨⟩ s'
  := rfl

@[simp]
theorem modify_apply (f : σ → σ) (s : σ) :
  (modify f : GoM ε σ PUnit) s = .ok ⟨⟩ (f s)
  := rfl

@[simp]
theorem call_ok (a : α) (s : σ) :
  (call (.ok a : Go ε α) : GoM ε σ α) s = .ok a s
  := rfl

@[simp]
theorem call_error (e : Fault ε) (s : σ) :
  (call (.error e : Go ε α) : GoM ε σ α) s = .error e s
  := rfl

@[simp]
theorem fail_apply (e : ε) (s : σ) :
  (fail e : GoM ε σ α) s = .error (.fail e) s
  := rfl

theorem on_ok {f : ε → δ} {x : GoM ε τ α} {t : τ} (hpart : part s = some t) (h : x t = .ok a t') :
  GoM.on part put f x s = .ok a (put s t')
  := by
  rw [GoM.on, hpart]
  dsimp only
  rw [h]

theorem on_fail {f : ε → δ} {x : GoM ε τ α} {t : τ} (hpart : part s = some t)
    (h : x t = .error (.fail e) t') :
  GoM.on part put f x s = .error (.fail (f e)) (put s t')
  := by
  rw [GoM.on, hpart]
  dsimp only
  rw [h]
  rfl

end GoM

/-! ### Calls without state -/

/-- Both calls return values related by `R`, or both return the same error. -/
def Same (R : α → β → Prop) (x : Go ε α) (y : Go ε β) : Prop :=
  match x, y with
  | .ok a, .ok b => R a b
  | .error (.fail e), .error (.fail e') => e = e'
  | _, _ => False

namespace Same

variable {R : α → β → Prop} {x : Go ε α} {y : Go ε β}

@[simp]
theorem fail :
  Same R (.error (.fail e) : Go ε α) (.error (.fail e))
  := rfl

theorem bind {S : γ → δ → Prop} {f : α → Go ε γ} {g : β → Go ε δ} (hxy : Same R x y)
    (hfg : ∀ a b, R a b → Same S (f a) (g b)) :
  Same S (x >>= f) (y >>= g)
  := by
  match x, y, hxy with
  | .ok a, .ok b, h => exact hfg a b h
  | .error (.fail _), .error (.fail _), h => exact h

theorem mono {S : α → β → Prop} (hxy : Same R x y) (h : ∀ a b, R a b → S a b) :
  Same S x y
  := by
  match x, y, hxy with
  | .ok a, .ok b, hab => exact h a b hab
  | .error (.fail _), .error (.fail _), he => exact he

/-- A safe call is the same as itself. -/
theorem of_safe {Q : α → Prop} (h : Safe x Q) :
  Same (fun a b => a = b ∧ Q a) x x
  := by
  match x, h with
  | .ok a, ha => exact ⟨rfl, ha⟩
  | .error (.fail _), _ => rfl

/-- The two ways in which compared calls end. -/
theorem cases (h : Same R x y) :
  (∃ a b, x = .ok a ∧ y = .ok b ∧ R a b)
    ∨ ∃ e, x = .error (.fail e) ∧ y = .error (.fail e)
  := by
  match x, y, h with
  | .ok a, .ok b, h => exact .inl ⟨a, b, rfl, rfl, h⟩
  | .error (.fail e), .error (.fail _), rfl => exact .inr ⟨e, rfl, rfl⟩

end Same

/-! ### Calls with state -/

/-- Run from `s` and `t`, both calls return, with values and states related by `R`, or
both fail with the same error, with states related by `E`. -/
def SameRun (R : α → β → σ → τ → Prop) (E : σ → τ → Prop) (x : GoM ε σ α) (y : GoM ε τ β)
    (s : σ) (t : τ) : Prop :=
  match x s, y t with
  | .ok a s', .ok b t' => R a b s' t'
  | .error (.fail e) s', .error (.fail e') t' => e = e' ∧ E s' t'
  | _, _ => False

namespace SameRun

variable {R : α → β → σ → τ → Prop} {E : σ → τ → Prop} {s : σ} {t : τ}

variable {y : GoM ε τ β} {f : PUnit → GoM ε σ α} {g : PUnit → GoM ε τ β}

theorem bind {S : γ → δ → σ → τ → Prop} {f : α → GoM ε σ γ} {g : β → GoM ε τ δ}
    (hxy : SameRun R E x y s t) (hfg : ∀ a b s' t', R a b s' t' → SameRun S E (f a) (g b) s' t') :
  SameRun S E (x >>= f) (y >>= g) s t
  := by
  rw [SameRun] at hxy ⊢
  rw [GoM.bind_apply, GoM.bind_apply]
  match hx : x s, hy : y t, hxy with
  | .ok a s', .ok b t', h => exact hfg a b s' t' h
  | .error (.fail _) _, .error (.fail _) _, h => exact h

theorem mono {S : α → β → σ → τ → Prop} {F : σ → τ → Prop} (hxy : SameRun R E x y s t)
    (h : ∀ a b s' t', R a b s' t' → S a b s' t') (hE : ∀ s' t', E s' t' → F s' t') :
  SameRun S F x y s t
  := by
  rw [SameRun] at hxy ⊢
  match hx : x s, hy : y t, hxy with
  | .ok a s', .ok b t', hab => exact h a b s' t' hab
  | .error (.fail _) s', .error (.fail _) t', he => exact ⟨he.1, hE s' t' he.2⟩

/-- What a comparison of the second call with itself says of its result. -/
theorem and_right {Q : β → τ → Prop} {F : τ → τ → Prop} (hxy : SameRun R E x y s t)
    (hyy : SameRun (fun b _ t' _ => Q b t') F y y t t) :
  SameRun (fun a b s' t' => R a b s' t' ∧ Q b t') E x y s t
  := by
  rw [SameRun] at hxy hyy ⊢
  match hx : x s, hy : y t, hxy with
  | .ok a s', .ok b t', hab =>
    rw [hy] at hyy
    exact ⟨hab, hyy⟩
  | .error (.fail _) _, .error (.fail _) _, he => exact he

theorem fail (h : E s t) :
  SameRun R E (GoM.fail e) (GoM.fail e) s t
  := ⟨rfl, h⟩

/-- Calls without state leave the states as they were. -/
theorem call_bind {P : γ → δ → Prop} {x : Go ε γ} {y : Go ε δ} {f : γ → GoM ε σ α}
    {g : δ → GoM ε τ β} (hxy : Same P x y) (hE : E s t)
    (hfg : ∀ a b, P a b → SameRun R E (f a) (g b) s t) :
  SameRun R E (GoM.call x >>= f) (GoM.call y >>= g) s t
  := by
  match x, y, hxy with
  | .ok a, .ok b, hab => exact hfg a b hab
  | .error (.fail _), .error (.fail _), he => exact ⟨he, hE⟩

theorem ok_bind {c : γ} {c' : δ} {f : γ → GoM ε σ α} {g : δ → GoM ε τ β}
    (h : SameRun R E (f c) (g c') s t) :
  SameRun R E (GoM.call (.ok c) >>= f) (GoM.call (.ok c') >>= g) s t
  := h

theorem get_bind {f : σ → GoM ε σ α} {g : τ → GoM ε τ β} (h : SameRun R E (f s) (g t) s t) :
  SameRun R E (get >>= f) (get >>= g) s t
  := h

theorem modify_bind {u : σ → σ} {v : τ → τ} (h : SameRun R E (f ⟨⟩) (g ⟨⟩) (u s) (v t)) :
  SameRun R E (modify u >>= f) (modify v >>= g) s t
  := h

theorem set_bind (h : SameRun R E (f ⟨⟩) (g ⟨⟩) s' t') :
  SameRun R E (set s' >>= f) (set t' >>= g) s t
  := h

/-- The two ways in which compared calls end. -/
theorem cases (h : SameRun R E x y s t) :
  (∃ a b s' t', x s = .ok a s' ∧ y t = .ok b t' ∧ R a b s' t')
    ∨ ∃ e s' t', x s = .error (.fail e) s' ∧ y t = .error (.fail e) t' ∧ E s' t'
  := by
  rw [SameRun] at h
  match hx : x s, hy : y t, h with
  | .ok a s', .ok b t', h => exact .inl ⟨a, b, s', t', rfl, rfl, h⟩
  | .error (.fail e) s', .error (.fail _) t', ⟨rfl, h⟩ => exact .inr ⟨e, s', t', rfl, rfl, h⟩

end SameRun

end GoRt
