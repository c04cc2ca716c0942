import Mathlib.Data.List.Pairwise
import Mathlib.Data.List.Sort

/-!
# `sort.Strings`

Strings are ordered by their bytes, and in this order a list is sorted in one way only.
-/

namespace GoRt

open List

/-- `sort.Strings` -/
def sortStrings (l : List (List UInt8)) : List (List UInt8) := l.insertionSort (· ≤ ·)

theorem sortStrings_perm (l : List (List UInt8)) : (sortStrings l).Perm l :=
  List.perm_insertionSort _ l

instance totalLe : Std.Total (α := List UInt8) (· ≤ ·) := ⟨List.le_total⟩

instance isTransLe : IsTrans (List UInt8) (· ≤ ·) := ⟨fun _ _ _ => List.le_trans⟩

theorem pairwise_sortStrings (l : List (List UInt8)) :
  (sortStrings l).Pairwise (· ≤ ·)
  := pairwise_insertionSort _ l

variable {l l' : List (List UInt8)} {a b : List UInt8}

/-- A list that is sorted is the result of sorting. -/
theorem eq_sortStrings (hperm : l'.Perm l) (hsorted : l'.Pairwise (· ≤ ·)) :
  l' = sortStrings l
  :=
  (hperm.trans (sortStrings_perm l).symm).eq_of_pairwise (fun _ _ _ _ => List.le_antisymm) hsorted
    (pairwise_sortStrings l)

theorem sortStrings_congr (hperm : l.Perm l') :
  sortStrings l = sortStrings l'
  := eq_sortStrings ((sortStrings_perm l).trans hperm) (pairwise_sortStrings l)

theorem lt_of_not_lt_of_ne (h : ¬ a < b) (hne : a ≠ b) :
  b < a
  := by
  by_contra hlt
  exact hne (List.le_antisymm (List.not_lt.mp hlt) (List.not_lt.mp h))

/-- Of two members of a sorted list one comes first. -/
theorem rel_or_rel {α : Type*} {R : α → α → Prop} {l : List α} (h : l.Pairwise R) {x y : α}
    (hx : x ∈ l) (hy : y ∈ l) (hne : x ≠ y) :
  R x y ∨ R y x
  := by
  have hor : l.Pairwise fun x y => R x y ∨ R y x := h.imp Or.inl
  have : Std.Symm fun x y => R x y ∨ R y x := ⟨fun _ _ => Or.symm⟩
  exact hor.forall hx hy hne

/-! ### The first difference -/

theorem append_cons_lt {x y : UInt8} (h : x < y) (p s t : List UInt8) :
  p ++ x :: s < p ++ y :: t
  := append_left_lt (cons_lt_cons_iff.mpr (.inl h))

theorem lt_append_cons (s : List UInt8) (c : UInt8) (t : List UInt8) :
  s < s ++ c :: t
  := by
  have h : s ++ [] < s ++ c :: t := append_left_lt (nil_lt_cons c t)
  rwa [append_nil] at h

/-- A string comes before another one when that goes on where it ends, or when they differ first in
a byte that is smaller. -/
theorem lt_cases (h : a < b) :
  (∃ c t, b = a ++ c :: t) ∨ ∃ p x s y t, a = p ++ x :: s ∧ b = p ++ y :: t ∧ x < y
  := by
  induction a generalizing b with
  | nil =>
    cases b with
    | nil => exact absurd h (List.lt_irrefl [])
    | cons c t => exact .inl ⟨c, t, rfl⟩
  | cons x a ih =>
    cases b with
    | nil => exact absurd h (not_lt_nil _)
    | cons y b =>
      rcases cons_lt_cons_iff.mp h with hxy | ⟨rfl, hlt⟩
      · exact .inr ⟨[], x, a, y, b, rfl, rfl, hxy⟩
      rcases ih hlt with ⟨c, t, rfl⟩ | ⟨p, x', s, y', t, rfl, rfl, hxy⟩
      · exact .inl ⟨c, t, rfl⟩
      · exact .inr ⟨x :: p, x', s, y', t, rfl, rfl, hxy⟩

end GoRt
