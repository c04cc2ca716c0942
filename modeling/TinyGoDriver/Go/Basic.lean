import Mathlib.Data.Nat.Digits.Lemmas
import Mathlib.Data.Nat.Size

/-!
# Go calls and the ways they end

A call of a Go function that may index out of range, loop for ever or return an error is
a computation in `Go ε`: it ends with a value, or with a `Fault`.  Reading an index and
taking a slice are `idx` and `slice`; both panic outside the bounds Go checks, and slice
bounds are integers, so that a negative bound is representable and panics as well.

`Safe x Q` says that `x` neither panics nor diverges nor strays, and that a value it
returns satisfies `Q`.  An error value is an orderly end.

Machine integers are natural numbers, and `wrap w` is the conversion to an unsigned
integer of `w` bits.
-/

namespace GoRt

open List hiding Vector

/-- How a call ends without a value. -/
inductive Fault (ε : Type) where
  /-- An index or a slice bound is out of range. -/
  | panic
  /-- A loop does not stop. -/
  | diverge
  /-- A read reaches outside the part of a data structure that has been filled.  Go does
  not test this; the models do, so that its absence can be stated. -/
  | stray
  /-- The call returns the error `e`. -/
  | fail (e : ε)
  deriving DecidableEq, Repr

/-- A call that ends with a value of type `α` or with a fault. -/
abbrev Go (ε α : Type) : Type := Except (Fault ε) α

variable {ε α β : Type}

/-- `l[i]`. -/
def idx (l : List α) (i : ℕ) : Go ε α :=
  match l[i]? with
  | some a => .ok a
  | none => .error .panic

/-- `l[lo:hi]`. -/
def slice (l : List α) (lo hi : ℤ) : Go ε (List α) :=
  if 0 ≤ lo ∧ lo ≤ hi ∧ hi ≤ l.length then
    .ok ((l.take hi.toNat).drop lo.toNat)
  else
    .error .panic

/-- `v[i] = a` for an array `v`. -/
def setIdx {n : ℕ} (v : Vector α n) (i : ℕ) (a : α) : Go ε (Vector α n) :=
  if h : i < n then .ok (v.set i a h) else .error .panic

/-- `l[i] = a` for a slice `l`. -/
def setAt (l : List α) (i : ℕ) (a : α) : Go ε (List α) :=
  if i < l.length then .ok (l.set i a) else .error .panic

/-- `copy(v[i:], new)` for an array `v` that has room for all of `new` there. -/
def writeFrom {n : ℕ} (v : Vector α n) (i : ℕ) (new : List α) : Go ε (Vector α n) :=
  if h : i + new.length ≤ n then
    .ok ⟨(v.toList.take i ++ (new ++ v.toList.drop (i + new.length))).toArray, by simp; omega⟩
  else
    .error .panic

@[simp]
theorem ok_bind (a : α) (f : α → Go ε β) : ((.ok a : Go ε α) >>= f) = f a := rfl

@[simp]
theorem error_bind (e : Fault ε) (f : α → Go ε β) :
  ((.error e : Go ε α) >>= f) = .error e
  := rfl

variable {l : List α} {i n : ℕ} {x : Go ε α} {f : α → Go ε β}

theorem idx_eq_ok {a : α} (h : l[i]? = some a) :
  (idx l i : Go ε α) = .ok a
  := by
  rw [idx, h]

@[simp]
theorem idx_of_lt (h : i < l.length) :
  (idx l i : Go ε α) = .ok l[i]
  := idx_eq_ok (getElem?_eq_getElem h)

theorem slice_of_le {lo hi : ℤ} (h₀ : 0 ≤ lo) (hlo : lo ≤ hi) (hhi : hi ≤ l.length) :
  (slice l lo hi : Go ε (List α)) = .ok ((l.take hi.toNat).drop lo.toNat)
  := if_pos ⟨h₀, hlo, hhi⟩

theorem slice_eq_ok {lo hi : ℕ} (hlo : lo ≤ hi) (hhi : hi ≤ l.length) :
  (slice l lo hi : Go ε (List α)) = .ok ((l.take hi).drop lo)
  := by
  rw [slice_of_le (by omega) (by omega) (by omega), Int.toNat_natCast, Int.toNat_natCast]

theorem slice_append (a b c : List α) :
  (slice (a ++ (b ++ c)) a.length (a.length + b.length : ℕ) : Go ε (List α)) = .ok b
  := by
  rw [slice_eq_ok (by omega) (by simp), take_length_add_append, drop_left, take_left]

theorem slice_append_left (a b : List α) :
  (slice (a ++ b) 0 a.length : Go ε (List α)) = .ok a
  := by
  rw [slice_of_le le_rfl (by omega) (by simp), Int.toNat_natCast, take_left]
  rfl

theorem slice_append_right (a b : List α) :
  (slice (a ++ b) a.length (a ++ b).length : Go ε (List α)) = .ok b
  := by
  rw [slice_eq_ok (by simp) le_rfl, take_length, drop_left]

/-- An index within the first `n` elements does not see the others. -/
theorem idx_take (h : i < n) :
  (idx (l.take n) i : Go ε α) = idx l i
  := by
  rw [idx, idx, getElem?_take_of_lt h]

theorem setAt_of_lt (l : List α) (a : α) (h : i < l.length) :
  (setAt l i a : Go ε (List α)) = .ok (l.set i a)
  := by
  rw [setAt, if_pos h]

/-- `writeFrom` succeeds when the new elements fit. -/
theorem writeFrom_eq (v : Vector α n) {new : List α} (h : i + new.length ≤ n) :
  ∃ w : Vector α n, (writeFrom v i new : Go ε (Vector α n)) = .ok w
    ∧ w.toList = v.toList.take i ++ (new ++ v.toList.drop (i + new.length))
  := by
  rw [writeFrom, dif_pos h]
  refine ⟨_, rfl, ?_⟩
  simp

/-! ### Calls that end in an orderly way -/

/-- `x` ends with a value satisfying `Q` or with an error value. -/
def Safe (x : Go ε α) (Q : α → Prop) : Prop :=
  match x with
  | .ok a => Q a
  | .error (.fail _) => True
  | .error _ => False

namespace Safe

variable {Q P : α → Prop}

@[simp]
theorem ok_iff {a : α} : Safe (.ok a : Go ε α) Q ↔ Q a := Iff.rfl

@[simp]
theorem fail {e : ε} : Safe (.error (.fail e) : Go ε α) Q := trivial

theorem bind {Q : β → Prop} (hx : Safe x P) (hf : ∀ a, P a → Safe (f a) Q) :
  Safe (x >>= f) Q
  := by
  match x, hx with
  | .ok a, ha => exact hf a ha
  | .error (.fail _), _ => trivial

theorem mono (hx : Safe x P) (h : ∀ a, P a → Q a) :
  Safe x Q
  := by
  match x, hx with
  | .ok a, ha => exact h a ha
  | .error (.fail _), _ => trivial

/-- A safe call returns a value or an error. -/
theorem cases (hx : Safe x Q) :
  (∃ a, x = .ok a ∧ Q a) ∨ ∃ e, x = .error (.fail e)
  := by
  match x, hx with
  | .ok a, ha => exact .inl ⟨a, rfl, ha⟩
  | .error (.fail e), _ => exact .inr ⟨e, rfl⟩

theorem idx (h : i < l.length) :
  Safe (GoRt.idx l i : Go ε α) (fun a => a = l[i])
  := by
  rw [idx_of_lt h]
  rfl

theorem mapM {P : α → β → Prop} (h : ∀ a ∈ l, Safe (f a) (P a)) :
  Safe (l.mapM f) (List.Forall₂ P l)
  := by
  induction l with
  | nil => exact List.Forall₂.nil
  | cons a l ih =>
    rw [mapM_cons]
    apply (h a (by simp)).bind
    intro b hb
    apply (ih (fun c hc => h c (by simp [hc]))).bind
    intro bs hbs
    exact List.Forall₂.cons hb hbs

end Safe

/-- A call that returns the value of another, applied to `f`. -/
theorem bind_eq_ok {b : β} (h : x >>= f = .ok b) :
  ∃ a, x = .ok a ∧ f a = .ok b
  := by
  match x, h with
  | .ok a, h => exact ⟨a, rfl, h⟩

theorem mapM_ok (l : List α) :
  l.mapM (Except.ok : α → Go ε α) = .ok l
  := by
  induction l with
  | nil => rfl
  | cons a l ih => simp [mapM_cons, ih, pure, Except.pure]

/-- Calls that all return. -/
theorem mapM_eq_map {g : α → β} (h : ∀ a ∈ l, f a = .ok (g a)) :
  l.mapM f = .ok (l.map g)
  := by
  induction l with
  | nil => rfl
  | cons a l ih =>
    rw [mapM_cons, h a (by simp), ih (fun c hc => h c (by simp [hc]))]
    rfl

theorem length_mapM {bs : List β} (h : l.mapM f = .ok bs) :
  bs.length = l.length
  := by
  induction l generalizing bs with
  | nil => cases h; rfl
  | cons a l ih =>
    rw [mapM_cons] at h
    obtain ⟨b, -, h⟩ := bind_eq_ok h
    obtain ⟨bs', hbs, h⟩ := bind_eq_ok h
    cases h
    rw [length_cons, ih hbs, length_cons]

/-- Two calls made for each element in turn can be made for all elements in turn. -/
theorem mapM_bind_eq_ok {γ : Type} {g : β → Go ε γ} {l' : List γ}
    (h : l.mapM (fun a => f a >>= g) = .ok l') :
  ∃ m, l.mapM f = .ok m ∧ m.mapM g = .ok l'
  := by
  induction l generalizing l' with
  | nil => exact ⟨[], rfl, h⟩
  | cons a l ih =>
    rw [mapM_cons] at h
    obtain ⟨c, hc, h⟩ := bind_eq_ok h
    obtain ⟨b, hb, hc⟩ := bind_eq_ok hc
    obtain ⟨cs, hcs, h⟩ := bind_eq_ok h
    obtain ⟨bs, hbs, hcs⟩ := ih hcs
    refine ⟨b :: bs, ?_, ?_⟩
    · rw [mapM_cons, hb, hbs]
      rfl
    · rw [mapM_cons, hc, hcs]
      exact h

/-! ### The largest of a list -/

theorem le_foldr_max {l : List ℕ} (h : n ∈ l) :
  n ≤ l.foldr max 0
  := by
  induction l with
  | nil => simp at h
  | cons m l ih =>
    rcases mem_cons.mp h with rfl | h
    · exact Nat.le_max_left ..
    · exact (ih h).trans (Nat.le_max_right ..)

theorem foldr_max_mem {l : List ℕ} (h : l ≠ []) :
  l.foldr max 0 ∈ l
  := by
  induction l with
  | nil => exact absurd rfl h
  | cons m l ih =>
    rw [foldr_cons]
    rcases Nat.le_total (l.foldr max 0) m with hle | hle
    · rw [Nat.max_eq_left hle]
      exact mem_cons_self
    rw [Nat.max_eq_right hle]
    by_cases hl : l = []
    · simp_all
    · exact mem_cons_of_mem m (ih hl)

/-! ### Fixed-width integers -/

/-- The conversion of `x` to an unsigned integer of `w` bits. -/
def wrap (w : ℕ) (x : ℤ) : ℕ := (x % 2 ^ w).toNat

theorem wrap_of_lt {w : ℕ} {x : ℕ} (h : x < 2 ^ w) :
  wrap w x = x
  := by
  rw [wrap, Int.emod_eq_of_lt (by omega) (by exact_mod_cast h)]
  simp

/-- A difference that does not go below zero is not wrapped. -/
theorem wrap_sub_of_le {w x y : ℕ} (h : y ≤ x) (hx : x - y < 2 ^ w) :
  wrap w ((x : ℤ) - y) = x - y
  := by
  rw [← Nat.cast_sub h]
  apply wrap_of_lt hx

end GoRt
