import Mathlib.Data.List.Perm.Subperm
import Mathlib.Data.List.Range
import Mathlib.Data.List.Nodup
import Mathlib.Data.Nat.ModEq
import Mathlib.Tactic.Ring
import Mathlib.Tactic.Linarith

/-!
# Walking round a table with a stride

For a stride prime to `n`, the positions `stride i = i * s % n` with `i < n` are the
positions `0, …, n - 1`, each met once.  `visited s n H i m` lists those among the `m`
positions from the `i`-th on that are at most `H`; one whole round of them is a
rearrangement of `0, …, H`.

`writeAll` sets positions of a list one after another.  When the positions are all those
of the list, each named once, what is written is a rearrangement of the new list.
-/

namespace Stride

open List

variable {α : Type}

/-- The `i`-th position of the walk with stride `s` round `n` positions. -/
def stride (s n i : ℕ) : ℕ := i * s % n

theorem stride_zero (s n : ℕ) :
  stride s n 0 = 0
  := by
  simp [stride]

theorem stride_self (s n : ℕ) :
  stride s n n = 0
  := by
  simp [stride]

theorem stride_succ (s n i : ℕ) :
  stride s n (i + 1) = (stride s n i + s) % n
  := by
  rw [stride, stride, Nat.mod_add_mod, Nat.succ_mul]

variable {s n : ℕ} {t : List α} {w : List (ℕ × α)}

theorem stride_lt (hn : 0 < n) (i : ℕ) :
  stride s n i < n
  := Nat.mod_lt _ hn

theorem stride_injOn {i j : ℕ} (h : Nat.Coprime n s) (hi : i < n) (hj : j < n)
    (hij : stride s n i = stride s n j) :
  i = j
  := by
  have hmod : i * s ≡ j * s [MOD n] := hij
  have := Nat.ModEq.cancel_right_of_coprime h hmod
  rwa [Nat.ModEq, Nat.mod_eq_of_lt hi, Nat.mod_eq_of_lt hj] at this

/-- One round of the walk meets every position once. -/
theorem stride_perm (hn : 0 < n) (h : Nat.Coprime n s) :
  ((List.range n).map (stride s n)).Perm (List.range n)
  := by
  have hnodup : ((range n).map (stride s n)).Nodup := by
    apply List.Nodup.map_on _ nodup_range
    intro i hi j hj hij
    apply stride_injOn h (mem_range.mp hi) (mem_range.mp hj) hij
  have hsub : (range n).map (stride s n) ⊆ range n := by
    intro p hp
    obtain ⟨i, -, rfl⟩ := mem_map.mp hp
    apply mem_range.mpr (stride_lt hn i)
  apply (subperm_of_subset hnodup hsub).perm_of_length_le
  simp

/-- Those among the `m` positions of the walk from the `i`-th on that are at most `H`. -/
def visited (s n H : ℕ) : ℕ → ℕ → List ℕ
  | _, 0 => []
  | i, m + 1 =>
    if stride s n i ≤ H then
      stride s n i :: visited s n H (i + 1) m
    else
      visited s n H (i + 1) m

theorem visited_eq_filter (s n H i m : ℕ) :
  visited s n H i m = ((List.range' i m).map (stride s n)).filter (· ≤ H)
  := by
  induction m generalizing i with
  | zero => rfl
  | succ m ih =>
    rw [visited, range'_succ, map_cons, ih]
    by_cases h : stride s n i ≤ H
    · rw [if_pos h, filter_cons_of_pos (by simpa using h)]
    · rw [if_neg h, filter_cons_of_neg (by simpa using h)]

theorem visited_succ (s n H i m : ℕ) :
  visited s n H i (m + 1) = visited s n H i m ++ visited s n H (i + m) 1
  := by
  simp only [visited_eq_filter]
  rw [range'_concat, map_append]
  simp

/-- One round of the walk visits every position up to `H` once. -/
theorem visited_perm {H : ℕ} (h : Nat.Coprime n s) (hH : H < n) :
  (visited s n H 0 n).Perm (List.range (H + 1))
  := by
  have hfilter : (range n).filter (· ≤ H) = range (H + 1) := by
    obtain ⟨k, rfl⟩ : ∃ k, n = (H + 1) + k := ⟨n - (H + 1), by omega⟩
    rw [range_add, filter_append, filter_eq_self.mpr, filter_eq_nil_iff.mpr]
    · simp
    · intro a ha
      obtain ⟨b, -, rfl⟩ := mem_map.mp ha
      simp
      omega
    · intro a ha
      have := mem_range.mp ha
      simp
      omega
  rw [visited_eq_filter, ← range_eq_range', ← hfilter]
  apply (stride_perm (by omega) h).filter

/-- The round closes: the position after the last one visited is the first. -/
theorem visited_round (s n H : ℕ) :
  visited s n H 0 (n + 1) = visited s n H 0 n ++ [0]
  := by
  rw [visited_succ]
  simp [visited, stride_self]

/-! ### Writing along a list of positions -/

/-- `t` with the position of each pair set to its value, in order. -/
def writeAll (t : List α) (w : List (ℕ × α)) : List α :=
  w.foldl (fun t p => t.set p.1 p.2) t

@[simp]
theorem writeAll_cons (t : List α) (p : ℕ × α) (w : List (ℕ × α)) :
  writeAll t (p :: w) = writeAll (t.set p.1 p.2) w
  := rfl

theorem writeAll_append (t : List α) (w w' : List (ℕ × α)) :
  writeAll t (w ++ w') = writeAll (writeAll t w) w'
  := foldl_append

@[simp]
theorem length_writeAll (t : List α) (w : List (ℕ × α)) :
  (writeAll t w).length = t.length
  := by
  induction w generalizing t with
  | nil => rfl
  | cons p w ih => rw [writeAll_cons, ih, length_set]

/-- A position not written keeps its value. -/
theorem getElem?_writeAll_of_not_mem {i : ℕ} (h : i ∉ w.map Prod.fst) :
  (writeAll t w)[i]? = t[i]?
  := by
  induction w generalizing t with
  | nil => rfl
  | cons p w ih =>
    rw [map_cons, mem_cons, not_or] at h
    rw [writeAll_cons, ih h.2, getElem?_set_ne]
    exact fun hp => h.1 hp.symm

/-- A position written once holds what was written there. -/
theorem getElem?_writeAll_of_mem {p : ℕ × α} (hnodup : (w.map Prod.fst).Nodup) (hp : p ∈ w)
    (hlt : p.1 < t.length) :
  (writeAll t w)[p.1]? = some p.2
  := by
  induction w generalizing t with
  | nil => cases hp
  | cons q w ih =>
    rw [map_cons, nodup_cons] at hnodup
    rw [writeAll_cons]
    rcases mem_cons.mp hp with rfl | hp
    · rw [getElem?_writeAll_of_not_mem hnodup.1, getElem?_set_self hlt]
    · apply ih hnodup.2 hp
      rwa [length_set]

/-- Writing every position of a list once leaves a rearrangement of what was written. -/
theorem writeAll_perm (h : (w.map Prod.fst).Perm (List.range t.length)) :
  (writeAll t w).Perm (w.map Prod.snd)
  := by
  have hnodup : (w.map Prod.fst).Nodup := h.nodup_iff.mpr nodup_range
  have hget : (writeAll t w).map some
      = (range t.length).map (fun i => (writeAll t w)[i]?) := by
    apply ext_getElem
    · simp
    intro i h₁ h₂
    simp only [getElem_map, getElem_range]
    rw [getElem?_eq_getElem]
  have hw : (w.map Prod.fst).map (fun i => (writeAll t w)[i]?) = (w.map Prod.snd).map some := by
    rw [map_map, map_map]
    apply map_congr_left
    intro p hp
    apply getElem?_writeAll_of_mem hnodup hp
    apply mem_range.mp
    apply h.subset
    apply mem_map_of_mem hp
  have hperm : ((writeAll t w).map some).Perm ((w.map Prod.snd).map some) := by
    rw [hget, ← hw]
    apply (h.map _).symm
  apply (map_perm_map_iff (Option.some_injective α)).mp hperm

end Stride
