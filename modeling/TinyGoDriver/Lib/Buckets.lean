import Mathlib.Data.List.Range
import Mathlib.Algebra.BigOperators.Group.List.Basic
import Mathlib.Tactic.Ring
import Mathlib.Tactic.Linarith

/-!
# Laying out values in buckets

A list of keys, one for each index, sorts the indices into buckets.  Bucket `w` holds the
indices of key `w` in increasing order, and each of them takes `size w` cells, all with
the value of the index.  `layout` is the row of cells of the buckets `1, …, K`, one after
the other.

An index whose key is `w`, preceded by `c` indices of the same key, has its cells at
`start w + c * size w`; that is `getElem?_layout`.  A row that agrees with the layout
throughout every bucket is the layout, which is `take_eq_layout`.
-/

namespace Buckets

open List

variable {α : Type} (size : ℕ → ℕ) (val : ℕ → α)

/-- The cells of the bucket `w`, for the keys of the indices from `i` on. -/
def bucket (w : ℕ) : ℕ → List ℕ → List α
  | _, [] => []
  | i, k :: keys =>
    if k = w then List.replicate (size w) (val i) ++ bucket w (i + 1) keys
    else bucket w (i + 1) keys

/-- The cells of the buckets `1, …, K`. -/
def layout (keys : List ℕ) (K : ℕ) : List α :=
  (List.range' 1 K).flatMap (fun w => bucket size val w 0 keys)

/-- The first cell of the bucket `w`. -/
def start (keys : List ℕ) (w : ℕ) : ℕ :=
  ((List.range' 1 (w - 1)).map (fun v => keys.count v * size v)).sum

theorem bucket_append (w i : ℕ) (l m : List ℕ) :
  bucket size val w i (l ++ m) = bucket size val w i l ++ bucket size val w (i + l.length) m
  := by
  induction l generalizing i with
  | nil => simp [bucket]
  | cons k l ih =>
    have hlen : i + (l.length + 1) = i + 1 + l.length := by omega
    rw [cons_append, bucket, bucket, ih, length_cons, hlen]
    split
    · rw [append_assoc]
    · rfl

theorem length_bucket (w i : ℕ) (keys : List ℕ) :
  (bucket size val w i keys).length = keys.count w * size w
  := by
  induction keys generalizing i with
  | nil => simp [bucket]
  | cons k keys ih =>
    rw [bucket, count_cons]
    by_cases hk : k = w
    · rw [if_pos hk, length_append, length_replicate, ih]
      simp only [hk, beq_self_eq_true, if_true]
      ring
    · rw [if_neg hk, ih]
      simp [hk]

variable (keys : List ℕ)

theorem length_flatMap_bucket (ws : List ℕ) :
  (ws.flatMap (fun w => bucket size val w 0 keys)).length
    = (ws.map (fun v => keys.count v * size v)).sum
  := by
  induction ws with
  | nil => rfl
  | cons w ws ih =>
    rw [flatMap_cons, length_append, length_bucket, ih, map_cons, sum_cons]

theorem length_layout (K : ℕ) :
  (layout size val keys K).length = start size keys (K + 1)
  := length_flatMap_bucket size val keys _

theorem start_one :
  start size keys 1 = 0
  := rfl

theorem start_succ {w : ℕ} (hw : 1 ≤ w) :
  start size keys (w + 1) = start size keys w + keys.count w * size w
  := by
  obtain ⟨w, rfl⟩ : ∃ v, w = v + 1 := ⟨w - 1, by omega⟩
  rw [start, start, Nat.add_sub_cancel, range'_concat]
  simp [Nat.add_comm]

theorem start_cons (k : ℕ) (keys : List ℕ) (w : ℕ) :
  start size (k :: keys) (w + 1)
    = start size keys (w + 1) + if 1 ≤ k ∧ k ≤ w then size k else 0
  := by
  induction w with
  | zero =>
    rw [start_one, start_one, if_neg (by omega)]
  | succ w ih =>
    have hw : 1 ≤ w + 1 := by omega
    rw [start_succ size (k :: keys) hw, start_succ size keys hw, ih, count_cons]
    by_cases hk : k = w + 1
    · subst hk
      have h₁ : ¬ (1 ≤ w + 1 ∧ w + 1 ≤ w) := by omega
      have h₂ : 1 ≤ w + 1 ∧ w + 1 ≤ w + 1 := by omega
      simp only [if_neg h₁, if_pos h₂, beq_self_eq_true, if_true]
      ring
    · have : (1 ≤ k ∧ k ≤ w + 1) ↔ (1 ≤ k ∧ k ≤ w) := by omega
      simp only [this, beq_iff_eq, if_neg hk]
      ring

/-- The buckets together have the cells of all the keys but 0. -/
theorem start_eq_sum {keys : List ℕ} {K : ℕ} (h : ∀ k ∈ keys, k ≤ K) :
  start size keys (K + 1) = (keys.map (fun k => if k = 0 then 0 else size k)).sum
  := by
  induction keys with
  | nil => simp [start]
  | cons k keys ih =>
    have hk := h k (by simp)
    rw [start_cons, ih (fun v hv => h v (by simp [hv])), map_cons, sum_cons]
    by_cases hk₀ : k = 0
    · rw [if_neg (by omega), if_pos hk₀]
      omega
    · rw [if_pos (by omega), if_neg hk₀]
      omega

theorem start_le_start {w v : ℕ} (hw : 1 ≤ w) (hwv : w ≤ v) :
  start size keys w ≤ start size keys v
  := by
  induction v, hwv using Nat.le_induction with
  | base => rfl
  | succ v hwv ih =>
    rw [start_succ size keys (by omega)]
    omega

/-- The cells of an index, in the layout of all. -/
theorem getElem?_layout {l m : List ℕ} {w K i : ℕ} (hw : 1 ≤ w) (hK : w ≤ K)
    (hlo : start size (l ++ w :: m) w + l.count w * size w ≤ i)
    (hhi : i < start size (l ++ w :: m) w + l.count w * size w + size w) :
  (layout size val (l ++ w :: m) K)[i]? = some (val l.length)
  := by
  set keys := l ++ w :: m with hkeys
  have hrange : range' 1 K
      = range' 1 (w - 1) ++ w :: range' (w + 1) (K - w) := by
    have h₁ : K = (w - 1) + (K - w + 1) := by omega
    have h₂ : 1 + (w - 1) = w := by omega
    rw [h₁, ← range'_append_1, h₂, range'_succ]
    congr 3
    omega
  have hbucket : bucket size val w 0 keys
      = bucket size val w 0 l ++ (replicate (size w) (val l.length)
          ++ bucket size val w (l.length + 1) m) := by
    rw [bucket_append, bucket, if_pos rfl, Nat.zero_add]
  rw [layout, hrange, flatMap_append, flatMap_cons, hbucket, append_assoc, append_assoc]
  have hlen : ((range' 1 (w - 1)).flatMap (fun w => bucket size val w 0 keys)).length
      = start size keys w := length_flatMap_bucket size val keys _
  have hlen' := length_bucket size val w 0 l
  rw [getElem?_append_right (by omega), getElem?_append_right (by omega),
    getElem?_append_left (by rw [length_replicate]; omega), getElem?_replicate, if_pos (by omega)]

/-- Every cell lies in a bucket. -/
theorem exists_bucket {K i : ℕ} (hi : i < start size keys (K + 1)) :
  ∃ w, 1 ≤ w ∧ w ≤ K ∧ start size keys w ≤ i ∧ i < start size keys (w + 1)
  := by
  induction K with
  | zero => simp [start_one] at hi
  | succ K ih =>
    by_cases h : i < start size keys (K + 1)
    · obtain ⟨w, h₁, h₂, h₃, h₄⟩ := ih h
      exact ⟨w, h₁, by omega, h₃, h₄⟩
    · exact ⟨K + 1, by omega, le_rfl, by omega, hi⟩

/-- A row that agrees with the layout in every bucket begins with the layout. -/
theorem take_eq_layout (K : ℕ) (row : List α)
    (h : ∀ w, 1 ≤ w → w ≤ K → ∀ i, start size keys w ≤ i → i < start size keys (w + 1) →
      row[i]? = (layout size val keys K)[i]?) :
  row.take (start size keys (K + 1)) = layout size val keys K
  := by
  apply ext_getElem?
  intro i
  rw [getElem?_take]
  by_cases hi : i < start size keys (K + 1)
  · rw [if_pos hi]
    obtain ⟨w, h₁, h₂, h₃, h₄⟩ := exists_bucket size keys hi
    exact h w h₁ h₂ i h₃ h₄
  · rw [if_neg hi, getElem?_eq_none]
    rw [length_layout]
    omega

end Buckets
