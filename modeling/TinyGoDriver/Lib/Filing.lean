import Mathlib.Data.List.AList
import Mathlib.Data.List.Perm.Basic

/-!
# Files of items under keys

A finite map whose values are lists, in which a key with nothing under it is left out: `store`
drops the key when the list is empty.  The items of all keys together are given up to order,
which is what a count or a statement that nothing stands in it twice needs.
-/

universe u v

/-- Lists of items under keys. -/
abbrev Filing (κ : Type u) (α : Type v) := AList fun _ : κ => List α

namespace Filing

open List

variable {κ : Type u} {α : Type v} [DecidableEq κ]

/-- What stands under a key. -/
def bucket (m : Filing κ α) (k : κ) : List α := (m.lookup k).getD []

/-- Put the list under the key. -/
def store (m : Filing κ α) (k : κ) (l : List α) : Filing κ α :=
  match l with
  | [] => m.erase k
  | x :: xs => m.insert k (x :: xs)

/-- What stands under any key. -/
def items (m : Filing κ α) : List α := m.entries.flatMap Sigma.snd

/-- No key has nothing under it. -/
def Tidy (m : Filing κ α) : Prop := ∀ k l, m.lookup k = some l → l ≠ []

/-! ### Buckets -/

@[simp]
theorem bucket_empty (k : κ) :
  bucket (∅ : Filing κ α) k = []
  := rfl

@[simp]
theorem bucket_store_self (m : Filing κ α) (k : κ) (l : List α) :
  (m.store k l).bucket k = l
  := by
  cases l with
  | nil | cons x xs => simp [bucket, store]

variable {k : κ} {m : Filing κ α}

theorem bucket_store_ne (m : Filing κ α) {k' : κ} (l : List α) (h : k' ≠ k) :
  (m.store k l).bucket k' = m.bucket k'
  := by
  cases l with
  | nil => rw [bucket, store, AList.lookup_erase_ne h, bucket]
  | cons x xs => rw [bucket, store, AList.lookup_insert_ne h, bucket]

/-- What holds of a list and of the buckets holds of the buckets with the list stored. -/
theorem forall_bucket_store {l : List α} {P : κ → List α → Prop} (hl : P k l)
    (hm : ∀ k', P k' (m.bucket k')) (k' : κ) :
  P k' ((m.store k l).bucket k')
  := by
  rcases eq_or_ne k' k with rfl | hne
  · rw [bucket_store_self]
    exact hl
  · rw [bucket_store_ne m l hne]
    exact hm k'

theorem tidy_empty : Tidy (∅ : Filing κ α) := by simp [Tidy]

theorem Tidy.store (hm : m.Tidy) (k : κ) (l : List α) :
  (m.store k l).Tidy
  := by
  intro k' l' h
  cases l with
  | nil =>
    rcases eq_or_ne k' k with rfl | hne
    · simp [Filing.store] at h
    · rw [Filing.store, AList.lookup_erase_ne hne] at h
      exact hm k' l' h
  | cons x xs =>
    rcases eq_or_ne k' k with rfl | hne
    · simp only [Filing.store, AList.lookup_insert, Option.some.injEq] at h
      simp [← h]
    · rw [Filing.store, AList.lookup_insert_ne hne] at h
      exact hm k' l' h

/-! ### All items -/

omit [DecidableEq κ] in
@[simp]
theorem items_empty : items (∅ : Filing κ α) = [] := rfl

theorem mem_items {x : α} :
  x ∈ m.items ↔ ∃ k, x ∈ m.bucket k
  := by
  simp only [items, mem_flatMap]
  constructor
  · rintro ⟨⟨k, l⟩, hmem, hx⟩
    refine ⟨k, ?_⟩
    rw [bucket, AList.mem_lookup_iff.mpr hmem]
    exact hx
  · rintro ⟨k, hx⟩
    cases hl : m.lookup k with
    | none => simp [bucket, hl] at hx
    | some l =>
      rw [bucket, hl] at hx
      exact ⟨⟨k, l⟩, AList.mem_lookup_iff.mp hl, hx⟩

/-- The items are those under one key and those under the others. -/
theorem items_perm (m : Filing κ α) (k : κ) :
  m.items.Perm (m.bucket k ++ items (m.erase k))
  := by
  by_cases hk : k ∈ m.entries.keys
  · obtain ⟨l, es₁, es₂, hes₁, heq, hkerase⟩ := exists_of_kerase hk
    have hl : m.lookup k = some l := AList.mem_lookup_iff.mpr (by simp [heq])
    have herase : (m.erase k).entries = es₁ ++ es₂ := hkerase
    simp only [items, bucket, hl, herase, heq, Option.getD_some, flatMap_append, flatMap_cons]
    rw [← append_assoc, ← append_assoc]
    exact perm_append_comm.append_right _
  · have hl : m.lookup k = none := AList.lookup_eq_none.mpr hk
    have herase : (m.erase k).entries = m.entries := kerase_of_notMem_keys hk
    simp [items, bucket, hl, herase]

theorem items_store_perm (m : Filing κ α) (k : κ) (l : List α) :
  (m.store k l).items.Perm (l ++ items (m.erase k))
  := by
  cases l with
  | nil => exact .refl _
  | cons x xs =>
    exact .refl _

/-- Storing under a key what was there but for `gone`, with `new` added. -/
theorem items_store_of_perm {l kept : List α} (gone new : List α)
    (hold : (m.bucket k).Perm (gone ++ kept)) (hnew : l.Perm (new ++ kept)) :
  ∃ rest, m.items.Perm (gone ++ rest) ∧ (m.store k l).items.Perm (new ++ rest)
  := by
  refine ⟨kept ++ items (m.erase k), ?_, ?_⟩
  · rw [← append_assoc]
    exact (m.items_perm k).trans (hold.append_right _)
  · rw [← append_assoc]
    exact (m.items_store_perm k l).trans (hnew.append_right _)

end Filing
