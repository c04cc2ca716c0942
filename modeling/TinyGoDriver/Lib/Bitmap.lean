import Mathlib.Data.Vector.Basic

/-!
# Bitmaps

A set of the numbers below `w * n`, as the bits of `n` words of `w` bits each.
-/

/-- A set of numbers, as the bits of words. -/
structure Bitmap (w n : ℕ) where
  bits : Vector (BitVec w) n
  deriving DecidableEq

namespace Bitmap

variable {w n x : ℕ}

/-- The word of a number below the size. -/
theorem div_lt (hx : x < w * n) :
  x / w < n
  := Nat.div_lt_of_lt_mul hx

def empty : Bitmap w n := ⟨Vector.replicate n 0⟩

/-- Numbers that are too large are not put into the set. -/
def set (s : Bitmap w n) (x : ℕ) : Bitmap w n :=
  if hx : x < w * n then
    have hword := div_lt hx
    ⟨s.bits.set (x / w) (s.bits[x / w] ||| 1#w <<< (x % w))⟩
  else s

def mem (s : Bitmap w n) (x : ℕ) : Bool :=
  if hx : x < w * n then
    have hword := div_lt hx
    s.bits[x / w].getLsbD (x % w)
  else false

theorem mem_empty (x : ℕ) :
  (empty : Bitmap w n).mem x = false
  := by
  rw [mem]
  split
  · simp [empty]
  · rfl

theorem mem_of_not_lt (s : Bitmap w n) (hx : ¬ x < w * n) :
  s.mem x = false
  := dif_neg hx

theorem set_of_not_lt (s : Bitmap w n) (hx : ¬ x < w * n) :
  s.set x = s
  := dif_neg hx

theorem getLsbD_one_shiftLeft (i : ℕ) {j : ℕ} (hj : j < w) :
  (1#w <<< i).getLsbD j = decide (j = i)
  := by
  grind

/-- The members after a number is put into the set. -/
theorem mem_set (s : Bitmap w n) (hx : x < w * n) (y : ℕ) :
  (s.set x).mem y = (s.mem y || decide (y = x))
  := by
  by_cases hy : y < w * n
  · have hpos : 0 < w := Nat.pos_of_ne_zero fun h => by simp [h] at hx
    simp only [mem, set, dif_pos hy, dif_pos hx]
    by_cases hword : y / w = x / w
    · have heq : y % w = x % w ↔ y = x := by
        refine ⟨fun h => ?_, fun h => by rw [h]⟩
        rw [← Nat.div_add_mod y w, ← Nat.div_add_mod x w, hword, h]
      simp only [hword, Vector.getElem_set_self, BitVec.getLsbD_or,
        getLsbD_one_shiftLeft _ (Nat.mod_lt y hpos), heq]
    · have hne : y ≠ x := fun h => hword (by rw [h])
      simp [Ne.symm hword, hne]
  · have hne : y ≠ x := fun h => hy (h ▸ hx)
    simp [mem_of_not_lt _ hy, hne]

end Bitmap
