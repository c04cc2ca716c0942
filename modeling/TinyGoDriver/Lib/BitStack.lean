import Mathlib.Data.List.Basic
import Mathlib.Tactic.Ring
import Mathlib.Tactic.Linarith

/-!
# A stack of bit fields

A list of fields, each a value and its width in bits, stands for a number: the head is the field
written last and has the highest bits.  Whoever reads such a number from the top pops the fields in
the order of the list (`top_eq`).

Only the number and the total width matter, so fields may be regrouped.
-/

namespace BitStack

/-- The number of bits of a stack of fields. -/
def width : List (ℕ × ℕ) → ℕ
  | [] => 0
  | (_, n) :: S => width S + n

/-- The number that a stack of fields stands for. -/
def num : List (ℕ × ℕ) → ℕ
  | [] => 0
  | (v, _) :: S => num S + 2 ^ width S * v

/-- Every value fits its width. -/
def Fits (S : List (ℕ × ℕ)) : Prop := ∀ f ∈ S, f.1 < 2 ^ f.2

@[simp]
theorem width_nil : width [] = 0 := rfl

@[simp]
theorem width_cons (v n : ℕ) (S : List (ℕ × ℕ)) :
  width ((v, n) :: S) = width S + n
  := rfl

@[simp]
theorem num_nil : num [] = 0 := rfl

@[simp]
theorem num_cons (v n : ℕ) (S : List (ℕ × ℕ)) :
  num ((v, n) :: S) = num S + 2 ^ width S * v
  := rfl

theorem Fits.nil : Fits [] := fun _ h => absurd h List.not_mem_nil

variable {S : List (ℕ × ℕ)}

theorem Fits.cons {v n : ℕ} (h : v < 2 ^ n) (hS : Fits S) :
  Fits ((v, n) :: S)
  := by
  intro f hf
  rcases List.mem_cons.mp hf with rfl | hf
  · exact h
  · exact hS f hf

theorem Fits.head {v n : ℕ} (h : Fits ((v, n) :: S)) :
  v < 2 ^ n
  := h (v, n) (by simp)

theorem Fits.tail {f : ℕ × ℕ} (h : Fits (f :: S)) :
  Fits S
  := fun g hg => h g (by simp [hg])

theorem num_lt (h : Fits S) :
  num S < 2 ^ width S
  := by
  induction S with
  | nil => simp
  | cons f S ih =>
    have hnum := ih h.tail
    have hv : f.1 + 1 ≤ 2 ^ f.2 := h.head
    calc num S + 2 ^ width S * f.1 < 2 ^ width S + 2 ^ width S * f.1 := by omega
      _ = 2 ^ width S * (f.1 + 1) := by ring
      _ ≤ 2 ^ width S * 2 ^ f.2 := Nat.mul_le_mul_left _ hv
      _ = 2 ^ (width S + f.2) := (pow_add 2 _ _).symm

/-- A number whose low bits are a stack of fields has the top field below the width, and the others
below that. -/
theorem top_eq {N v n : ℕ} (hfits : Fits ((v, n) :: S))
    (h : N % 2 ^ width ((v, n) :: S) = num ((v, n) :: S)) :
  N / 2 ^ width S % 2 ^ n = v ∧ N % 2 ^ width S = num S
  := by
  have hlt := num_lt hfits.tail
  rw [width_cons, num_cons, pow_add] at h
  constructor
  · rw [← Nat.mod_mul_right_div_self, h, Nat.add_mul_div_left _ _ (by positivity),
      Nat.div_eq_of_lt hlt, Nat.zero_add]
  · rw [← Nat.mod_mul_right_mod N (2 ^ width S) (2 ^ n), h, Nat.add_mul_mod_self_left,
      Nat.mod_eq_of_lt hlt]

end BitStack
