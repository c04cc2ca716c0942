import Mathlib.Data.List.DropRight
import Mathlib.Data.List.Infix

/-!
# Searching and cutting lists

`cut sep l` splits a list at the first occurrence of an element, and `index pat l` is the
position of the first occurrence of a pattern.  A pattern that does not occur in `l` but in
`l ++ m` occurs there across the seam or behind it, so a search that has been through `l` can
go on from the last `pat.length - 1` elements of `l`.

`trim` strips the elements that satisfy a predicate from both ends.
-/

namespace Search

open List

variable {α : Type} [DecidableEq α]

/-! ### Cutting at an element -/

/-- What stands before the first `sep` and what stands after it, if there is one. -/
def cut (sep : α) : List α → Option (List α × List α)
  | [] => none
  | a :: l => if a = sep then some ([], l) else (cut sep l).map fun p => (a :: p.1, p.2)

variable {sep : α} {l : List α} {i : ℕ}

theorem cut_eq_some_iff {before after : List α} :
  cut sep l = some (before, after) ↔ l = before ++ sep :: after ∧ sep ∉ before
  := by
  induction l generalizing before with
  | nil => simp [cut]
  | cons a l ih =>
    rw [cut]
    split
    · rename_i ha
      subst ha
      cases before with
      | nil => simp [eq_comm]
      | cons b before => simp +contextual [eq_comm]
    rename_i ha
    cases before with
    | nil => simp [ha]
    | cons b before =>
      simp only [Option.map_eq_some_iff, Prod.mk.injEq, cons.injEq, Prod.exists,
        cons_append, mem_cons, not_or]
      constructor
      · rintro ⟨x, y, hcut, ⟨rfl, rfl⟩, rfl⟩
        obtain ⟨hl, hx⟩ := ih.mp hcut
        exact ⟨⟨rfl, hl⟩, Ne.symm ha, hx⟩
      · rintro ⟨⟨rfl, hl⟩, -, hbefore⟩
        exact ⟨before, after, ih.mpr ⟨hl, hbefore⟩, ⟨rfl, rfl⟩, rfl⟩

theorem cut_append {before : List α} (h : sep ∉ before) (after : List α) :
  cut sep (before ++ sep :: after) = some (before, after)
  := cut_eq_some_iff.mpr ⟨rfl, h⟩

theorem cut_eq_none_iff :
  cut sep l = none ↔ sep ∉ l
  := by
  induction l with
  | nil => simp [cut]
  | cons a l ih =>
    rw [cut]
    split
    · rename_i ha
      simp [ha]
    · rename_i ha
      simp [ih, Ne.symm ha]

/-! ### Searching for a pattern -/

/-- The position of the first occurrence of a pattern. -/
def index (pat : List α) : List α → Option ℕ
  | [] => if pat = [] then some 0 else none
  | a :: l => if pat <+: a :: l then some 0 else (index pat l).map (· + 1)

variable {pat : List α}

theorem index_eq_some_iff :
  index pat l = some i ↔ i ≤ l.length ∧ pat <+: l.drop i ∧ ∀ j < i, ¬ pat <+: l.drop j
  := by
  induction l generalizing i with
  | nil =>
    rw [index]
    cases i with
    | zero => simp
    | succ i => simp
  | cons a l ih =>
    rw [index]
    split
    · rename_i h
      cases i with
      | zero => simp [h]
      | succ i =>
        simp only [Option.some.injEq, reduceCtorEq, false_iff, not_and, not_forall, not_not]
        exact fun _ _ => ⟨0, Nat.succ_pos i, h⟩
    rename_i h
    cases i with
    | zero => simp [h]
    | succ i =>
      simp only [Option.map_eq_some_iff, Nat.add_right_cancel_iff, exists_eq_right, ih,
        length_cons, Nat.add_le_add_iff_right, drop_succ_cons, and_congr_right_iff]
      intro _ _
      constructor
      · intro hbelow j hj
        cases j with
        | zero => exact h
        | succ j => exact hbelow j (by omega)
      · intro hbelow j hj
        exact hbelow (j + 1) (by omega)

theorem index_eq_none_iff :
  index pat l = none ↔ ∀ i ≤ l.length, ¬ pat <+: l.drop i
  := by
  induction l with
  | nil => simp [index]
  | cons a l ih =>
    rw [index]
    split
    · rename_i h
      simp only [reduceCtorEq, false_iff, not_forall, not_not]
      exact ⟨0, Nat.zero_le _, h⟩
    rename_i h
    rw [Option.map_eq_none_iff, ih]
    constructor
    · intro hall i hi
      cases i with
      | zero => exact h
      | succ i => exact hall i (by simpa using hi)
    · intro hall i hi
      exact hall (i + 1) (by simpa using hi)

/-- An occurrence ends within the list. -/
theorem index_add_length_le (h : index pat l = some i) :
  i + pat.length ≤ l.length
  := by
  obtain ⟨hle, hocc, -⟩ := index_eq_some_iff.mp h
  have hlength := hocc.length_le
  rw [length_drop] at hlength
  omega

/-- The first occurrence is found whatever follows. -/
theorem index_append (h : index pat l = some i) (m : List α) :
  index pat (l ++ m) = some i
  := by
  have hfit := index_add_length_le h
  obtain ⟨hle, hocc, hbelow⟩ := index_eq_some_iff.mp h
  refine index_eq_some_iff.mpr ⟨?_, ?_, fun j hj hpat => hbelow j hj ?_⟩
  · rw [length_append]
    omega
  · rw [drop_append_of_le_length hle]
    exact hocc.trans (prefix_append _ _)
  · rw [drop_append_of_le_length (by omega)] at hpat
    apply prefix_of_prefix_length_le hpat (prefix_append _ _)
    rw [length_drop]
    omega

/-- A pattern that is not in `l` is in `l ++ m` if and only if it is in what remains after all
but the last `pat.length - 1` elements of `l`. -/
theorem index_append_isSome_iff (m : List α) (h : index pat l = none) :
  (index pat (l ++ m)).isSome
    ↔ (index pat ((l ++ m).drop (l.length - (pat.length - 1)))).isSome
  := by
  rw [← not_iff_not, Option.not_isSome_iff_eq_none, Option.not_isSome_iff_eq_none,
    index_eq_none_iff, index_eq_none_iff]
  constructor
  · intro hall i hi
    rw [drop_drop]
    rw [length_drop] at hi
    by_cases hle : l.length - (pat.length - 1) ≤ (l ++ m).length
    · exact hall _ (by omega)
    · rw [length_append] at hle
      omega
  · intro hall i hi hocc
    by_cases hlate : l.length - (pat.length - 1) ≤ i
    · refine hall (i - (l.length - (pat.length - 1))) (by rw [length_drop]; omega) ?_
      rw [drop_drop]
      rwa [Nat.add_sub_cancel' hlate]
    -- an occurrence that starts earlier lies in `l`
    apply index_eq_none_iff.mp h i (by omega)
    rw [drop_append_of_le_length (by omega)] at hocc
    apply prefix_of_prefix_length_le hocc (prefix_append _ _)
    rw [length_drop]
    omega

/-! ### Trimming -/

/-- The list without the elements that satisfy `p` at its ends. -/
def trim {α : Type} (p : α → Bool) (l : List α) : List α := (l.dropWhile p).rdropWhile p

section Trim

variable {α : Type} {p : α → Bool} {l : List α} {a : α}

theorem dropWhile_concat_of_neg (ha : ¬ p a) :
  (l ++ [a]).dropWhile p = l.dropWhile p ++ [a]
  := by
  rw [dropWhile_append]
  split
  · rename_i hl
    simp [isEmpty_iff.mp hl, ha]
  · rfl

theorem dropWhile_concat_of_ne_nil (hl : l.dropWhile p ≠ []) :
  (l ++ [a]).dropWhile p = l.dropWhile p ++ [a]
  := by
  rw [dropWhile_append, if_neg (by simpa using hl)]

theorem dropWhile_concat_of_nil (ha : p a) (hl : l.dropWhile p = []) :
  (l ++ [a]).dropWhile p = []
  := by
  simp [dropWhile_append, hl, ha]

theorem trim_concat_of_pos (ha : p a) :
  trim p (l ++ [a]) = trim p l
  := by
  by_cases hl : l.dropWhile p = []
  · rw [trim, trim, dropWhile_concat_of_nil ha hl, hl]
  · rw [trim, trim, dropWhile_concat_of_ne_nil hl, rdropWhile_concat_pos _ _ _ ha]

theorem length_trim_le :
  (trim p l).length ≤ (l.dropWhile p).length
  := by
  rw [trim]
  exact List.IsPrefix.length_le <| rdropWhile_prefix _ _

theorem rdropWhile_append_cons {m : List α} (ha : ¬ p a) :
  (l ++ a :: m).rdropWhile p = l ++ a :: m.rdropWhile p
  := by
  induction m using reverseRecOn with
  | nil => simpa using rdropWhile_concat_neg p l a ha
  | append_singleton m b ih =>
    rw [← cons_append, ← append_assoc, rdropWhile_concat, rdropWhile_concat]
    split
    · exact ih
    · simp

/-- What `trim` takes off the end. -/
theorem exists_trim_append :
  ∃ tail, l.dropWhile p = trim p l ++ tail ∧ ∀ a ∈ tail, p a = true
  := ⟨_, rdropWhile_append_rtakeWhile.symm, fun _ => mem_rtakeWhile_imp⟩

end Trim

end Search
