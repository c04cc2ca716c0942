import Mathlib.Algebra.BigOperators.Group.List.Basic
import Mathlib.Data.List.Nodup
import Mathlib.Tactic.Ring

/-!
# Merging nodes into a tree

A binary tree is built by merging.  The leaves are the nodes `0, …, n - 1`; each merge takes two of
the nodes that are left and puts a new one in their place, numbered after all the others.
`Merged n A ms` says that the merges `ms` leave the nodes `A`.

Depths are handed down from the last merge to the first.  A node of depth `d` has the mass
`(1 / 2) ^ d`, and its two children have as much between them (`mass_split`): whichever way the
nodes were merged, the leaves of a single tree have the mass 1.
-/

namespace Merging

open List

/-- The merges `ms` of the leaves `0, …, n - 1` leave the nodes `A`. -/
inductive Merged (n : ℕ) : List ℕ → List (ℕ × ℕ) → Prop
  | leaves {A : List ℕ} (h : A.Perm (List.range n)) : Merged n A []
  | merge {A A' rest : List ℕ} {ms : List (ℕ × ℕ)} {a b : ℕ} (h : Merged n A ms)
      (hold : A.Perm (a :: b :: rest)) (hnew : A'.Perm ((n + ms.length) :: rest)) :
      Merged n A' (ms ++ [(a, b)])

/-- The mass of nodes of the given depths. -/
def mass (depth : ℕ → ℕ) (A : List ℕ) : ℚ := (A.map (fun a => (1 / 2 : ℚ) ^ depth a)).sum

variable {A : List ℕ} {n : ℕ} {ms : List (ℕ × ℕ)} {depth depth' : ℕ → ℕ}

theorem mass_perm {B : List ℕ} (h : A.Perm B) (depth : ℕ → ℕ) :
  mass depth A = mass depth B
  := (h.map _).sum_eq

theorem mass_congr (h : ∀ a ∈ A, depth a = depth' a) :
  mass depth A = mass depth' A
  := by
  rw [mass]
  congr 1
  apply map_congr_left
  intro a ha
  rw [h a ha]

/-- Two children one deeper have the mass of their parent. -/
theorem mass_split {a b c : ℕ} {rest : List ℕ} (ha : depth' a = depth c + 1)
    (hb : depth' b = depth c + 1) (hrest : ∀ x ∈ rest, depth' x = depth x) :
  mass depth' (a :: b :: rest) = mass depth (c :: rest)
  := by
  have := mass_congr hrest
  rw [mass, mass] at this
  rw [mass, mass, map_cons, map_cons, map_cons, sum_cons, sum_cons, sum_cons, this, ha, hb]
  ring

theorem Merged.lt (h : Merged n A ms) :
  ∀ a ∈ A, a < n + ms.length
  := by
  induction h with
  | leaves h =>
    intro a ha
    exact mem_range.mp (h.mem_iff.mp ha)
  | @merge A A' rest ms a b _ hold hnew ih =>
    intro x hx
    rw [length_append, length_singleton]
    rcases mem_cons.mp (hnew.mem_iff.mp hx) with rfl | hx
    · omega
    · have := ih x (hold.mem_iff.mpr (by simp [hx]))
      omega

theorem Merged.nodup (h : Merged n A ms) :
  A.Nodup
  := by
  induction h with
  | leaves h => exact h.nodup_iff.mpr nodup_range
  | @merge A A' rest ms a b h hold hnew ih =>
    have hrest := hold.nodup_iff.mp ih
    rw [hnew.nodup_iff, nodup_cons]
    refine ⟨?_, hrest.of_cons.of_cons⟩
    intro hmem
    have := h.lt _ (hold.mem_iff.mpr (mem_cons_of_mem a (mem_cons_of_mem b hmem)))
    omega

theorem Merged.length_add (h : Merged n A ms) :
  A.length + ms.length = n
  := by
  induction h with
  | leaves h => simpa using h.length_eq
  | @merge A A' rest ms a b h hold hnew ih =>
    have h₁ := hold.length_eq
    have h₂ := hnew.length_eq
    simp only [length_cons, length_append, length_nil] at *
    omega

/-- Of two leaves or more, none is left alone. -/
theorem Merged.not_mem (h : Merged n A ms) (hA : A.length = 1) (hn : 2 ≤ n) {i : ℕ} (hi : i < n) :
  i ∉ A
  := by
  cases h with
  | leaves h =>
    have := h.length_eq
    rw [length_range] at this
    omega
  | @merge A₀ _ rest ms a b h hold hnew =>
    have hlen := hnew.length_eq
    rw [length_cons] at hlen
    obtain rfl : rest = [] := length_eq_zero_iff.mp (by omega)
    rw [hnew.mem_iff, mem_singleton]
    omega

end Merging
