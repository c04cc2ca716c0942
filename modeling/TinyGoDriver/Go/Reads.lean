import TinyGoDriver.Go.Relational

/-!
# What a call takes from its input

A parser keeps a state, and what it takes from its input shows in how the state changes.  A `Feed`
says when a state becomes another by taking a list.  `Reads F x P` says which lists the call `x`
takes: it returns `a` after taking exactly `l` if and only if `P a l`.  There is a rule for every
way calls are put together, so that the lists a parser takes are computed from the lists its parts
take.  `Subsumed x y` compares two calls: `y` does whatever `x` does, where `x` returns.
-/

namespace GoRt

/-- How states change when a list is taken from the input. -/
structure Feed (σ β : Type) where
  step : σ → List β → σ → Prop
  step_nil : ∀ {s s'}, step s [] s' ↔ s = s'
  step_append : ∀ {s s' l m}, step s (l ++ m) s' ↔ ∃ t, step s l t ∧ step t m s'

variable {ε σ α γ β : Type} {F : Feed σ β}

/-- The call returns `a` after taking exactly `l` if and only if `P a l`. -/
def Reads (F : Feed σ β) (x : GoM ε σ α) (P : α → List β → Prop) : Prop :=
  ∀ s a s', x s = .ok a s' ↔ ∃ l, F.step s l s' ∧ P a l

theorem GoM.bind_eq_ok {x : GoM ε σ α} {f : α → GoM ε σ γ} {s s' : σ} {b : γ} :
  (x >>= f) s = .ok b s' ↔ ∃ a t, x s = .ok a t ∧ f a t = .ok b s'
  := by
  rw [GoM.bind_apply]
  cases x s <;> simp

namespace Reads

variable {x : GoM ε σ α} {P P' : α → List β → Prop}

theorem congr (hx : Reads F x P) (h : ∀ a l, P a l ↔ P' a l) :
  Reads F x P'
  := by
  intro s a s'
  rw [hx s a s']
  simp only [h]

theorem pure (a : α) :
  Reads F (Pure.pure a : GoM ε σ α) (fun b l => b = a ∧ l = [])
  := by
  intro s b s'
  rw [GoM.pure_apply, EStateM.Result.ok.injEq]
  constructor
  · rintro ⟨rfl, rfl⟩
    exact ⟨[], F.step_nil.mpr rfl, rfl, rfl⟩
  · rintro ⟨l, hstep, rfl, rfl⟩
    exact ⟨rfl, F.step_nil.mp hstep⟩

theorem fail (e : ε) :
  Reads F (GoM.fail e : GoM ε σ α) (fun _ _ => False)
  := by
  intro s a s'
  simp

theorem bind {f : α → GoM ε σ γ} {Q : α → γ → List β → Prop} (hx : Reads F x P)
    (hf : ∀ a, (∃ l, P a l) → Reads F (f a) (Q a)) :
  Reads F (x >>= f) (fun b n => ∃ a l m, n = l ++ m ∧ P a l ∧ Q a b m)
  := by
  intro s b s'
  rw [GoM.bind_eq_ok]
  constructor
  · rintro ⟨a, t, ha, hb⟩
    obtain ⟨l, hl, hP⟩ := (hx s a t).mp ha
    obtain ⟨m, hm, hQ⟩ := (hf a ⟨l, hP⟩ t b s').mp hb
    exact ⟨l ++ m, F.step_append.mpr ⟨t, hl, hm⟩, a, l, m, rfl, hP, hQ⟩
  · rintro ⟨_, hstep, a, l, m, rfl, hP, hQ⟩
    obtain ⟨t, hl, hm⟩ := F.step_append.mp hstep
    exact ⟨a, t, (hx s a t).mpr ⟨l, hl, hP⟩, (hf a ⟨l, hP⟩ t b s').mpr ⟨m, hm, hQ⟩⟩

theorem ite {y : GoM ε σ α} {p : Prop} [Decidable p] (hx : p → Reads F x P)
    (hy : ¬ p → Reads F y P') :
  Reads F (if p then x else y) (fun a l => (p ∧ P a l) ∨ (¬ p ∧ P' a l))
  := by
  by_cases h : p
  · rw [if_pos h]
    exact (hx h).congr fun a l => by simp [h]
  · rw [if_neg h]
    exact (hy h).congr fun a l => by simp [h]

end Reads

/-! ### A call that accepts more -/

/-- Whatever `x` returns, `y` returns as well, and leaves the same state. -/
def Subsumed (x y : GoM ε σ α) : Prop :=
  ∀ s a s', x s = .ok a s' → y s = .ok a s'

theorem Subsumed.bind {x y : GoM ε σ α} {f g : α → GoM ε σ γ} (hx : Subsumed x y)
    (hf : ∀ a, Subsumed (f a) (g a)) :
  Subsumed (x >>= f) (y >>= g)
  := by
  intro s b s' h
  obtain ⟨a, t, ha, hb⟩ := GoM.bind_eq_ok.mp h
  exact GoM.bind_eq_ok.mpr ⟨a, t, hx s a t ha, hf a t b s' hb⟩

end GoRt
