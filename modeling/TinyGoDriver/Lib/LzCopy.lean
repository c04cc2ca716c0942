import Mathlib.Data.List.Range
import Mathlib.Tactic.Ring
import Mathlib.Tactic.Linarith

/-!
# Copying from what has been written

`lzCopy l offset n` extends `l` by `n` elements, one at a time, each the element `offset`
places back from the end.  The copy may overlap what it writes; what is written is then
periodic, which is `getElem?_lzCopy`.

A copy that does not reach back past a suffix does not see what comes before it
(`append_lzCopy`), and a copy that was found as a repetition in a text restores the text
(`eq_lzCopy`).
-/

namespace LzCopy

open List

variable {α : Type}

/-- `l` extended by `n` elements, each a copy of the one `offset` places back. -/
def lzCopy (l : List α) (offset : ℕ) : ℕ → List α
  | 0 => l
  | n + 1 => (lzCopy l offset n) ++ ((lzCopy l offset n)[l.length + n - offset]?).toList

variable {l : List α} {offset n : ℕ}

theorem length_lzCopy (h₀ : 0 < offset) (h : offset ≤ l.length) (n : ℕ) :
  (lzCopy l offset n).length = l.length + n
  := by
  induction n with
  | zero => rfl
  | succ n ih =>
    rw [lzCopy, length_append, getElem?_eq_getElem (by omega)]
    simp
    omega

theorem getElem?_lzCopy_of_lt (h₀ : 0 < offset) (h : offset ≤ l.length) (n : ℕ) {i : ℕ}
    (hi : i < l.length) :
  (lzCopy l offset n)[i]? = l[i]?
  := by
  induction n with
  | zero => rfl
  | succ n ih =>
    have hlen := length_lzCopy h₀ h n
    rw [lzCopy, getElem?_append_left (by omega), ih]

/-- What a copy writes repeats the last `offset` elements. -/
theorem getElem?_lzCopy (h₀ : 0 < offset) (h : offset ≤ l.length) {k : ℕ} (hk : k < n) :
  (lzCopy l offset n)[l.length + k]? = l[l.length - offset + k % offset]?
  := by
  induction n generalizing k with
  | zero => omega
  | succ n ih =>
    have hlen := length_lzCopy h₀ h n
    rw [lzCopy]
    by_cases hkn : k < n
    · rw [getElem?_append_left (by omega)]
      exact ih hkn
    obtain rfl : k = n := by omega
    rw [getElem?_append_right (by omega), hlen, Nat.sub_self]
    have hsrc : (lzCopy l offset k)[l.length + k - offset]?
        = l[l.length - offset + k % offset]? := by
      by_cases hko : k < offset
      · rw [Nat.mod_eq_of_lt hko, getElem?_lzCopy_of_lt h₀ h _ (by omega)]
        congr 1
        omega
      · have hidx : l.length + k - offset = l.length + (k - offset) := by omega
        rw [hidx, ih (by omega), ← Nat.mod_eq_sub_mod (by omega)]
    rw [hsrc]
    cases l[l.length - offset + k % offset]? with
    | none => rfl
    | some a => rfl

/-- From the start of the source on, a copy is periodic. -/
theorem getElem?_lzCopy_start (h₀ : 0 < offset) (h : offset ≤ l.length) {j : ℕ}
    (hj : j < offset + n) :
  (lzCopy l offset n)[l.length - offset + j]? = l[l.length - offset + j % offset]?
  := by
  by_cases hjo : j < offset
  · rw [Nat.mod_eq_of_lt hjo, getElem?_lzCopy_of_lt h₀ h _ (by omega)]
  · have hidx : l.length - offset + j = l.length + (j - offset) := by omega
    rw [hidx, getElem?_lzCopy h₀ h (by omega), ← Nat.mod_eq_sub_mod (by omega)]

/-- A list is a copy if it has the elements of one. -/
theorem eq_lzCopy {r : List α} (h₀ : 0 < offset) (h : offset ≤ l.length)
    (hlen : r.length = l.length + n) (hold : ∀ i < l.length, r[i]? = l[i]?)
    (hnew : ∀ k < n, r[l.length + k]? = l[l.length - offset + k % offset]?) :
  r = lzCopy l offset n
  := by
  apply ext_getElem?
  intro i
  by_cases hi : i < l.length
  · rw [hold i hi, getElem?_lzCopy_of_lt h₀ h n hi]
  by_cases hi' : i < l.length + n
  · obtain ⟨k, rfl⟩ : ∃ k, i = l.length + k := ⟨i - l.length, by omega⟩
    rw [hnew k (by omega), getElem?_lzCopy h₀ h (by omega)]
  · rw [getElem?_eq_none (by omega), getElem?_eq_none (by rw [length_lzCopy h₀ h]; omega)]

/-- A copy out of a suffix does not depend on what comes before the suffix. -/
theorem append_lzCopy (a : List α) (h : offset ≤ l.length) (n : ℕ) :
  lzCopy (a ++ l) offset n = a ++ lzCopy l offset n
  := by
  induction n with
  | zero => rfl
  | succ n ih =>
    have hidx : (a ++ l).length + n - offset = a.length + (l.length + n - offset) := by
      rw [length_append]
      omega
    rw [lzCopy, lzCopy, ih, hidx, getElem?_append_right (by omega), append_assoc,
      Nat.add_sub_cancel_left]

/-- A copy only adds to what was there. -/
theorem exists_lzCopy_eq_append (h₀ : 0 < offset) (h : offset ≤ l.length) (n : ℕ) :
  ∃ z, lzCopy l offset n = l ++ z ∧ z.length = n
  := by
  induction n with
  | zero => exact ⟨[], by simp [lzCopy], rfl⟩
  | succ n ih =>
    obtain ⟨z, hz, hlen⟩ := ih
    have hget := length_lzCopy h₀ h n
    refine ⟨z ++ ((lzCopy l offset n)[l.length + n - offset]?).toList, ?_, ?_⟩
    · rw [lzCopy, hz, append_assoc]
    · rw [getElem?_eq_getElem (by omega)]
      simp [hlen]

theorem lzCopy_singleton (a : α) (n : ℕ) :
  lzCopy [a] 1 n = List.replicate (n + 1) a
  := by
  induction n with
  | zero => rfl
  | succ n ih =>
    have hidx : [a].length + n - 1 = n := by simp
    rw [lzCopy, ih, getElem?_replicate, if_pos (by omega), Option.toList_some, ← replicate_succ']

/-- Copying a span of a copy whose length is a multiple of the offset continues it. -/
theorem lzCopy_append_span {m : ℕ} (h₀ : 0 < offset) (h : offset ≤ l.length) (hdvd : offset ∣ m)
    (hn : n ≤ offset + m) :
  lzCopy l offset m ++ ((lzCopy l offset m).drop (l.length - offset)).take n
    = lzCopy l offset (m + n)
  := by
  have hlen := length_lzCopy h₀ h m
  apply eq_lzCopy h₀ h
  · simp [hlen]
    omega
  · intro i hi
    rw [getElem?_append_left (by omega), getElem?_lzCopy_of_lt h₀ h _ hi]
  intro k hk
  by_cases hkm : k < m
  · rw [getElem?_append_left (by omega), getElem?_lzCopy h₀ h hkm]
  obtain ⟨j, rfl⟩ : ∃ j, k = m + j := ⟨k - m, by omega⟩
  obtain ⟨c, rfl⟩ := hdvd
  rw [getElem?_append_right (by omega), hlen,
    show l.length + (offset * c + j) - (l.length + offset * c) = j by omega,
    getElem?_take_of_lt (by omega), getElem?_drop,
    getElem?_lzCopy_start h₀ h (by omega), Nat.mul_add_mod]

end LzCopy
