import Mathlib.Data.List.Basic

/-!
# Interleavings

A system of parties that act one at a time is given by what each action does to the state,
where it can happen: `step a s` is the state after the action `a`, or `none`.  A schedule
is a list of actions and `exec` carries it out.

Some actions are the system's own, the others are those of its surroundings.  A state is
quiet if the system can do nothing by itself.
-/

namespace Interleaving

variable {α σ : Type} {step : α → σ → Option σ}

/-- The state after the actions, one after the other, if each of them can happen. -/
def exec (step : α → σ → Option σ) : List α → σ → Option σ
  | [], s => some s
  | a :: as, s => (step a s).bind (exec step as)

variable {as : List α} {s t : σ}

/-- Where an action with a guard can happen, the guard holds. -/
theorem guard_eq_some {p : Prop} [Decidable p] :
  (if p then some s else none) = some t ↔ p ∧ s = t
  := by
  rw [Option.ite_none_right_eq_some, Option.some_inj]

theorem exec_cons {a : α} :
  exec step (a :: as) s = some t ↔ ∃ s', step a s = some s' ∧ exec step as s' = some t
  := by
  rw [exec, Option.bind_eq_some_iff]

theorem exec_single {a : α} (h : step a s = some t) :
  exec step [a] s = some t
  := by
  rw [exec, h]
  rfl

/-! ### Invariants -/

/-- Every action of the schedule meets the condition `C` in the state it happens in. -/
def Along (step : α → σ → Option σ) (C : α → σ → Prop) : List α → σ → Prop
  | [], _ => True
  | a :: as, s => C a s ∧ ∀ t, step a s = some t → Along step C as t

variable {C : α → σ → Prop} {P : σ → Prop}

/-- What every action keeps, if it meets the condition, holds after schedules whose actions
meet it. -/
theorem exec_inv_along (hkeep : ∀ a s t, C a s → step a s = some t → P s → P t)
    (halong : Along step C as s) (hexec : exec step as s = some t) (hs : P s) :
  P t
  := by
  induction as generalizing s with
  | nil =>
    cases hexec
    exact hs
  | cons a as ih =>
    obtain ⟨s', hstep, hrest⟩ := exec_cons.mp hexec
    exact ih (halong.2 s' hstep) hrest (hkeep a s s' halong.1 hstep hs)

theorem along_of_forall (h : ∀ a ∈ as, ∀ s, C a s) (s : σ) :
  Along step C as s
  := by
  induction as generalizing s with
  | nil => trivial
  | cons a as ih =>
    refine ⟨h a List.mem_cons_self s, fun t _ => ?_⟩
    exact ih (fun b hb => h b (List.mem_cons_of_mem a hb)) t

theorem along_append {bs : List α} (has : Along step C as s) (hexec : exec step as s = some t)
    (hbs : Along step C bs t) :
  Along step C (as ++ bs) s
  := by
  induction as generalizing s with
  | nil =>
    cases hexec
    exact hbs
  | cons a as ih =>
    obtain ⟨s', hstep, hrest⟩ := exec_cons.mp hexec
    refine ⟨has.1, fun u hu => ?_⟩
    cases hstep.symm.trans hu
    exact ih (has.2 s' hstep) hrest

/-- What the actions of one kind keep holds after schedules of that kind. -/
theorem exec_inv_of {own : α → Prop} (hkeep : ∀ a s t, own a → step a s = some t → P s → P t)
    (hown : ∀ a ∈ as, own a) (hexec : exec step as s = some t) (hs : P s) :
  P t
  := exec_inv_along hkeep (along_of_forall (fun a ha _ => hown a ha) s) hexec hs

/-- What every action keeps holds after every schedule. -/
theorem exec_inv (hkeep : ∀ a s t, step a s = some t → P s → P t) (hexec : exec step as s = some t)
    (hs : P s) :
  P t
  := exec_inv_of (fun a s t (_ : True) => hkeep a s t) (fun _ _ => trivial) hexec hs

/-! ### Coming to rest -/

/-- No action of the kind `own` can happen. -/
def Quiet (step : α → σ → Option σ) (own : α → Prop) (s : σ) : Prop :=
  ∀ a, own a → step a s = none

section Measure

variable {own : α → Prop} {m : σ → ℕ}

/-- If own actions lower a measure, there are no more of them in a row than it tells. -/
theorem length_le_of_exec (hdec : ∀ a s t, own a → step a s = some t → m t < m s)
    (hown : ∀ a ∈ as, own a) (hexec : exec step as s = some t) :
  as.length + m t ≤ m s
  := by
  induction as generalizing s with
  | nil =>
    cases hexec
    simp
  | cons a as ih =>
    obtain ⟨s', hstep, hrest⟩ := exec_cons.mp hexec
    have h₁ := hdec a s s' (hown a List.mem_cons_self) hstep
    have h₂ := ih (fun b hb => hown b (List.mem_cons_of_mem a hb)) hrest
    rw [List.length_cons]
    omega

/-- If own actions lower a measure, the system comes to rest by itself. -/
theorem exists_quiet (hdec : ∀ a s t, own a → step a s = some t → m t < m s) (s : σ) :
  ∃ as t, (∀ a ∈ as, own a) ∧ exec step as s = some t ∧ Quiet step own t
  := by
  induction h : m s using Nat.strongRecOn generalizing s with
  | ind n ih =>
    subst h
    by_cases hq : Quiet step own s
    · exact ⟨[], s, by simp, rfl, hq⟩
    simp only [Quiet, not_forall] at hq
    obtain ⟨a, hown, hne⟩ := hq
    obtain ⟨s', hstep⟩ := Option.ne_none_iff_exists'.mp hne
    obtain ⟨as, t, has, hexec, ht⟩ := ih (m s') (hdec a s s' hown hstep) s' rfl
    refine ⟨a :: as, t, ?_, exec_cons.mpr ⟨s', hstep, hexec⟩, ht⟩
    intro b hb
    rcases List.mem_cons.mp hb with rfl | hb
    · exact hown
    · exact has b hb

end Measure

end Interleaving
