import Mathlib.Algebra.Order.BigOperators.Group.List
import TinyGoDriver.Lib.Buckets
import TinyGoDriver.Zstd.FseDescription

/-!
# Huffman decoding tables

A Huffman code is transmitted as the weights of its symbols: a symbol of weight `w > 0`
takes `2 ^ (w - 1)` of the `2 ^ maxBits` slots of the decoding table, and its code the
`maxBits + 1 - w` bits that tell those slots from the others.  The weight of the last
symbol is whatever completes the sum to a power of two.

`HuffDecTable.build` lays the symbols out, the smallest weights first, in an array of
2048 entries that may hold what earlier tables left.  `Complete` says that weights make a
code; `build_complete` gives the table built from such weights, and `build_cases` says
that all others are refused.
-/

namespace Zstd

open GoRt Buckets
open List hiding Vector

/-- The longest code. -/
def maxHuffBits : ℕ := 11

/-- One slot of a decoding table: the symbol whose code starts with the bits of the slot,
and how many of them the code takes. -/
structure HuffDecEntry where
  symbol : UInt8
  nbBits : ℕ
  deriving DecidableEq, Repr, Inhabited

/-- A decoding table, in storage for the longest codes. -/
structure HuffDecTable where
  entries : Vector HuffDecEntry 2048
  maxBits : ℕ
  deriving Repr

/-- The slots a symbol of weight `w` takes. -/
def slots (w : ℕ) : ℕ := if w = 0 then 0 else 2 ^ (w - 1)

/-- The loop that gives the `n` slots from `lo` on to one symbol. -/
def fillRange {α : Type} {k : ℕ} (a : α) : ℕ → ℕ → Vector α k → Go Err (Vector α k)
  | 0, _, v => .ok v
  | n + 1, lo, v => do
    let v ← setIdx v lo a
    fillRange a n (lo + 1) v

/-- The loop over the symbols from `s` on: `next` holds the next slot of each weight. -/
def fillSymbols (maxBits : ℕ) :
    List ℕ → ℕ → List ℕ → Vector HuffDecEntry 2048 → Go Err (Vector HuffDecEntry 2048)
  | [], _, _, entries => .ok entries
  | w :: ws, s, next, entries =>
    if w = 0 then
      fillSymbols maxBits ws (s + 1) next entries
    else do
      let lo ← idx next w
      let e : HuffDecEntry := ⟨UInt8.ofNat s, wrap 8 ((maxBits : ℤ) + 1 - w)⟩
      let entries ← fillRange e (2 ^ (w - 1)) lo entries
      let next ← setAt next w (lo + 2 ^ (w - 1))
      fillSymbols maxBits ws (s + 1) next entries

/-- The first slot of each weight: those of the smaller weights come before it. -/
def firstSlots (weights : List ℕ) (maxBits : ℕ) : List ℕ :=
  (List.range (maxHuffBits + 1)).map (fun w =>
    if 1 ≤ w ∧ w ≤ maxBits then start (fun v => 2 ^ (v - 1)) weights w else 0)

namespace HuffDecTable

/-- `build`: fills `t` from the weights of the symbols but the last. -/
def build (t : HuffDecTable) (weights : List ℕ) : Go Err HuffDecTable :=
  if weights.any (maxHuffBits < ·) then
    .error (.fail .corruptLiterals)
  else
    let total := (weights.map slots).sum
    if total = 0 then
      .error (.fail .corruptLiterals)
    else
      let maxBits := total.size
      if maxHuffBits < maxBits then
        .error (.fail .corruptLiterals)
      else
        let left := 2 ^ maxBits - total
        if left &&& (left - 1) ≠ 0 then
          .error (.fail .corruptLiterals)
        else
          let lastWeight := left.size
          -- rankCount[lastWeight]++
          if maxHuffBits < lastWeight then
            .error .panic
          else
            let all := weights ++ [lastWeight]
            if all.count 1 < 2 ∨ all.count 1 % 2 ≠ 0 then
              .error (.fail .corruptLiterals)
            else do
              let entries ← fillSymbols maxBits all 0 (firstSlots all maxBits) t.entries
              .ok ⟨entries, maxBits⟩

/-- `t.entries[i]`, for a slot of the table. -/
def slot (t : HuffDecTable) (i : ℕ) : Go Err HuffDecEntry :=
  if i < 2 ^ t.maxBits then idx t.entries.toList i else .error .stray

/-- The entries in use. -/
def live (t : HuffDecTable) : List HuffDecEntry := t.entries.toList.take (2 ^ t.maxBits)

/-- Tables that agree on what is in use. -/
def Agree (t u : HuffDecTable) : Prop := t.maxBits = u.maxBits ∧ t.live = u.live

/-- Codes are at most `maxBits` long. -/
structure Wf (t : HuffDecTable) : Prop where
  maxBits_le : t.maxBits ≤ maxHuffBits
  nbBits_le : ∀ e ∈ t.live, e.nbBits ≤ t.maxBits

end HuffDecTable

/-! ### Weights that make a code -/

/-- The weights, with `last` for the last symbol, fill a table of `2 ^ maxBits` slots. -/
structure Complete (weights : List ℕ) (last maxBits : ℕ) : Prop where
  maxBits_le : maxBits ≤ maxHuffBits
  le : ∀ w ∈ weights, w ≤ maxBits
  last_pos : 1 ≤ last
  last_le : last ≤ maxBits
  sum : ((weights ++ [last]).map slots).sum = 2 ^ maxBits
  ones : 2 ≤ (weights ++ [last]).count 1 ∧ (weights ++ [last]).count 1 % 2 = 0

/-- The entry of the symbol `s`. -/
def symbolEntry (weights : List ℕ) (maxBits s : ℕ) : HuffDecEntry :=
  ⟨UInt8.ofNat s, maxBits + 1 - weights.getD s 0⟩

/-- The slots of a table for the weights of all symbols. -/
def huffLayout (weights : List ℕ) (maxBits : ℕ) : List HuffDecEntry :=
  layout (fun w => 2 ^ (w - 1)) (symbolEntry weights maxBits) weights maxBits

variable {maxBits : ℕ} {weights : List ℕ}

theorem start_eq_sum_slots (h : ∀ w ∈ weights, w ≤ maxBits) :
  start (fun w => 2 ^ (w - 1)) weights (maxBits + 1) = (weights.map slots).sum
  := start_eq_sum (fun w => 2 ^ (w - 1)) h

theorem fillRange_ok {α : Type} {k : ℕ} (a : α) {n lo : ℕ} (v : Vector α k) (h : lo + n ≤ k) :
  ∃ v', fillRange a n lo v = .ok v'
    ∧ ∀ i, v'.toList[i]? = if lo ≤ i ∧ i < lo + n then some a else v.toList[i]?
  := by
  induction n generalizing lo v with
  | zero =>
    refine ⟨v, rfl, ?_⟩
    intro i
    rw [if_neg (by omega)]
  | succ n ih =>
    obtain ⟨v', hv', hget⟩ := ih (v.set lo a (by omega))
      (show lo + 1 + n ≤ k by omega)
    refine ⟨v', ?_, ?_⟩
    · rw [fillRange, setIdx, dif_pos (by omega), ok_bind, hv']
    intro i
    rw [hget, Vector.toList_set, getElem?_set]
    by_cases hlo : lo = i
    · subst hlo
      rw [if_neg (by omega), if_pos rfl, if_pos (by simp; omega), if_pos (by omega)]
    · have : (lo + 1 ≤ i ∧ i < lo + 1 + n) ↔ (lo ≤ i ∧ i < lo + (n + 1)) := by omega
      simp only [this, if_neg hlo]

/-! ### The table built -/

/-- Each symbol is laid out where the layout has it.  The invariant is that the entries
agree with the layout up to the next slot of each weight; a write that agrees with the
layout keeps what agreed before. -/
theorem fillSymbols_ok {all : List ℕ} (hmax : maxBits ≤ maxHuffBits)
    (hle : ∀ w ∈ all, w ≤ maxBits) (hsum : (all.map slots).sum = 2 ^ maxBits)
    {l m : List ℕ} (hall : all = l ++ m) {next : List ℕ} {entries : Vector HuffDecEntry 2048}
    (hlen : next.length = maxHuffBits + 1)
    (hnext : ∀ w, 1 ≤ w → w ≤ maxBits → next.getD w 0
      = start (fun v => 2 ^ (v - 1)) all w + l.count w * 2 ^ (w - 1))
    (hrow : ∀ w, 1 ≤ w → w ≤ maxBits → ∀ i, start (fun v => 2 ^ (v - 1)) all w ≤ i →
      i < start (fun v => 2 ^ (v - 1)) all w + l.count w * 2 ^ (w - 1) →
      entries.toList[i]? = (huffLayout all maxBits)[i]?) :
  ∃ entries', fillSymbols maxBits m l.length next entries = .ok entries'
    ∧ entries'.toList.take (2 ^ maxBits) = huffLayout all maxBits
  := by
  have hpow : 2 ^ maxBits ≤ 2048 := Nat.pow_le_pow_right (by omega) hmax
  have hend := start_eq_sum_slots hle
  rw [hsum] at hend
  induction m generalizing l next entries with
  | nil =>
    refine ⟨entries, rfl, ?_⟩
    rw [← hend]
    apply take_eq_layout
    intro w hw hwK i hlo hhi
    apply hrow w hw hwK i hlo
    rw [append_nil] at hall
    rwa [← hall, ← start_succ _ _ hw]
  | cons w m ih =>
    have hall' : all = (l ++ [w]) ++ m := by rw [hall]; simp
    have hlen' : (l ++ [w]).length = l.length + 1 := by simp
    have hwK : w ≤ maxBits := hle w (by rw [hall]; simp)
    rw [fillSymbols]
    by_cases hw : w = 0
    · rw [if_pos hw, ← hlen']
      have hcount : ∀ v, 1 ≤ v → (l ++ [w]).count v = l.count v := by
        intro v hv
        rw [count_append, count_singleton]
        simp only [beq_iff_eq]
        rw [if_neg (by omega)]
        rfl
      apply ih hall' hlen
      · intro v hv hvK
        rw [hcount v hv]
        exact hnext v hv hvK
      · intro v hv hvK i
        rw [hcount v hv]
        exact hrow v hv hvK i
    have hw' : 1 ≤ w := by omega
    have hlt : w < next.length := by omega
    have hget : next[w]
        = start (fun v => 2 ^ (v - 1)) all w + l.count w * 2 ^ (w - 1) := by
      rw [← hnext w hw' hwK, getD, getElem?_eq_getElem hlt, Option.getD_some]
    -- the slots of the symbol lie inside those of its weight
    have hfit : next[w] + 2 ^ (w - 1) ≤ 2 ^ maxBits := by
      have h₁ := start_succ (fun v => 2 ^ (v - 1)) all hw'
      have h₂ : start (fun v => 2 ^ (v - 1)) all (w + 1)
          ≤ start (fun v => 2 ^ (v - 1)) all (maxBits + 1) :=
        start_le_start _ _ (by omega) (by omega)
      have h₃ : (l.count w + 1) * 2 ^ (w - 1) ≤ all.count w * 2 ^ (w - 1) := by
        apply Nat.mul_le_mul_right
        rw [hall, count_append, count_cons_self]
        omega
      rw [Nat.succ_mul] at h₃
      omega
    have hentry : (⟨UInt8.ofNat l.length, wrap 8 ((maxBits : ℤ) + 1 - w)⟩ : HuffDecEntry)
        = symbolEntry all maxBits l.length := by
      have h₁ : (maxBits : ℤ) + 1 - w = ((maxBits + 1 - w : ℕ) : ℤ) := by omega
      have h₂ : all.getD l.length 0 = w := by
        rw [hall, getD]
        simp
      rw [symbolEntry, h₁, h₂, wrap_of_lt (by rw [maxHuffBits] at hmax; omega)]
    obtain ⟨entries', hentries', hget'⟩ := fillRange_ok (symbolEntry all maxBits l.length)
      entries (show next[w] + 2 ^ (w - 1) ≤ 2048 by omega)
    rw [if_neg hw, idx_of_lt hlt]
    simp only [hentry, hentries', ok_bind, setAt_of_lt next _ hlt]
    rw [← hlen']
    have hcount : ∀ v, (l ++ [w]).count v = l.count v + if w = v then 1 else 0 := by
      intro v
      rw [count_append, count_singleton]
      simp only [beq_iff_eq]
    apply ih hall' (by simpa using hlen)
    · intro v hv hvK
      rw [hcount, getD, getElem?_set]
      by_cases hvw : w = v
      · subst hvw
        rw [if_pos rfl, if_pos hlt, if_pos rfl, Option.getD_some, hget]
        ring
      · rw [if_neg hvw, if_neg hvw]
        exact hnext v hv hvK
    intro v hv hvK i hlo hhi
    rw [hget']
    by_cases hi : next[w] ≤ i ∧ i < next[w] + 2 ^ (w - 1)
    · rw [if_pos hi, huffLayout]
      have := getElem?_layout (fun v => 2 ^ (v - 1)) (symbolEntry all maxBits)
        (l := l) (m := m) (i := i) hw' hwK
      rw [← hall] at this
      rw [this (by omega) (by omega)]
    rw [if_neg hi]
    apply hrow v hv hvK i hlo
    rw [hcount] at hhi
    by_cases hvw : w = v
    · subst hvw
      rw [if_pos rfl, Nat.add_mul] at hhi
      omega
    · rw [if_neg hvw] at hhi
      exact hhi

theorem two_pow_and_pred (k : ℕ) :
  2 ^ k &&& (2 ^ k - 1) = 0
  := by
  rw [Nat.and_two_pow_sub_one_eq_mod, Nat.mod_self]

/-- A number that has no bit in common with its predecessor is a power of two. -/
theorem eq_two_pow_of_and_pred {n : ℕ} (hn : n ≠ 0) (h : n &&& (n - 1) = 0) :
  n = 2 ^ (n.size - 1)
  := by
  obtain ⟨k, rfl⟩ := (Nat.and_sub_one_eq_zero_iff_isPowerOfTwo hn).mp h
  rw [Nat.size_pow, Nat.add_sub_cancel]

theorem sum_slots_append (weights : List ℕ) {last : ℕ} (hlast : 1 ≤ last) :
  ((weights ++ [last]).map slots).sum = (weights.map slots).sum + 2 ^ (last - 1)
  := by
  rw [map_append, sum_append]
  simp only [map_cons, map_nil, sum_cons, sum_nil, slots]
  rw [if_neg (by omega)]
  omega

namespace Complete

variable {weights : List ℕ} {last maxBits : ℕ} (h : Complete weights last maxBits)

include h

/-- The weights but the last take at least half of the slots. -/
theorem total_bounds :
  (weights.map slots).sum + 2 ^ (last - 1) = 2 ^ maxBits
    ∧ 2 ^ (maxBits - 1) ≤ (weights.map slots).sum
  := by
  have hsum := h.sum
  rw [sum_slots_append weights h.last_pos] at hsum
  have h₁ := h.last_pos
  have h₂ := h.last_le
  have hdouble : 2 ^ maxBits = 2 * 2 ^ (maxBits - 1) := by
    rw [← pow_succ']
    congr 1
    omega
  have hhalf : 2 ^ (last - 1) ≤ 2 ^ (maxBits - 1) :=
    Nat.pow_le_pow_right (by omega) (by omega)
  omega

theorem total_size :
  (weights.map slots).sum.size = maxBits
  := by
  obtain ⟨h₁, h₂⟩ := h.total_bounds
  have hpos : 0 < 2 ^ (last - 1) := by positivity
  apply le_antisymm
  · apply Nat.size_le.mpr
    omega
  · have : maxBits - 1 < (weights.map slots).sum.size := Nat.lt_size.mpr h₂
    omega

theorem le_all :
  ∀ w ∈ weights ++ [last], w ≤ maxBits
  := by
  intro w hw
  rcases mem_append.mp hw with hw | hw
  · exact h.le w hw
  rw [mem_singleton] at hw
  subst hw
  exact h.last_le

end Complete

/-- Codes of the layout are at most `maxBits` long. -/
theorem nbBits_le_of_mem_huffLayout {e : HuffDecEntry} (he : e ∈ huffLayout weights maxBits) :
  e.nbBits ≤ maxBits
  := by
  rw [huffLayout, layout, mem_flatMap] at he
  obtain ⟨w, hw, he⟩ := he
  rw [mem_range'_1] at hw
  -- an entry of the bucket `w` is the entry of a symbol of weight `w`
  have hbucket : ∀ (l m : List ℕ), weights = l ++ m →
      e ∈ bucket (fun w => 2 ^ (w - 1)) (symbolEntry weights maxBits) w l.length m →
      e.nbBits ≤ maxBits := by
    intro l m
    induction m generalizing l with
    | nil =>
      intro _ he
      cases he
    | cons k m ih =>
      intro hl he
      have hl' : weights = (l ++ [k]) ++ m := by rw [hl]; simp
      have hlen : (l ++ [k]).length = l.length + 1 := by simp
      rw [bucket] at he
      by_cases hk : k = w
      · rw [if_pos hk, mem_append] at he
        rcases he with he | he
        · have hget : weights.getD l.length 0 = k := by
            rw [hl, getD]
            simp
          rw [eq_of_mem_replicate he, symbolEntry]
          simp only [hget]
          omega
        · exact ih _ hl' (by rwa [hlen])
      · rw [if_neg hk] at he
        exact ih _ hl' (by rwa [hlen])
  exact hbucket [] weights rfl he

namespace HuffDecTable

/-- Weights that make a code are built into the table of their layout, whatever the array
held before. -/
theorem build_complete {weights : List ℕ} {last maxBits : ℕ} (h : Complete weights last maxBits)
    (t : HuffDecTable) :
  ∃ t', t.build weights = .ok t' ∧ t'.maxBits = maxBits
    ∧ t'.live = huffLayout (weights ++ [last]) maxBits ∧ t'.Wf
  := by
  obtain ⟨htotal, hhalf⟩ := h.total_bounds
  have hmax := h.maxBits_le
  have hany : ¬ weights.any (maxHuffBits < ·) = true := by
    rw [any_eq_true]
    rintro ⟨w, hw, hlt⟩
    have := h.le w hw
    rw [decide_eq_true_iff] at hlt
    omega
  have hzero : (weights.map slots).sum ≠ 0 := by
    have : 0 < 2 ^ (maxBits - 1) := by positivity
    omega
  have hleft : 2 ^ maxBits - (weights.map slots).sum = 2 ^ (last - 1) := by
    rw [← htotal, Nat.add_sub_cancel_left]
  have hlast : (2 ^ (last - 1)).size = last := by
    have := h.last_pos
    rw [Nat.size_pow]
    omega
  have hlast_le := h.last_le
  obtain ⟨hones, heven⟩ := h.ones
  have hnext : (firstSlots (weights ++ [last]) maxBits).length = maxHuffBits + 1 := by
    simp [firstSlots]
  obtain ⟨entries, hfill, hlive⟩ := fillSymbols_ok hmax h.le_all h.sum
    (l := []) (m := weights ++ [last]) rfl hnext
    (by
      intro w hw hwK
      rw [firstSlots, getD, getElem?_map, getElem?_range (by omega),
        Option.map_some, if_pos ⟨hw, hwK⟩]
      simp)
    (by
      intro w _ _ i hlo hhi
      simp only [count_nil, Nat.zero_mul, Nat.add_zero] at hhi
      omega)
  refine ⟨⟨entries, maxBits⟩, ?_, rfl, hlive, hmax, ?_⟩
  · rw [build, if_neg hany]
    have h₁ : ¬ maxHuffBits < maxBits := by omega
    have h₂ : ¬ maxHuffBits < last := by omega
    have h₃ : ¬ ((weights ++ [last]).count 1 < 2 ∨ (weights ++ [last]).count 1 % 2 ≠ 0) := by
      omega
    simp only [h.total_size, hleft, two_pow_and_pred, hlast, if_neg hzero, if_neg h₁, if_neg h₂,
      if_neg h₃, ne_eq, not_true_eq_false, if_false]
    simp only [length_nil] at hfill
    rw [hfill, ok_bind]
  · intro e he
    rw [live] at he
    simp only [hlive] at he
    exact nbBits_le_of_mem_huffLayout he

/-- `build` refuses weights that do not make a code, and otherwise builds the same
well-formed table over whatever the array held before. -/
theorem build_cases (weights : List ℕ) :
  (∀ t : HuffDecTable, t.build weights = .error (.fail .corruptLiterals))
    ∨ ∃ last maxBits, Complete weights last maxBits
  := by
  by_cases hany : weights.any (maxHuffBits < ·) = true
  · left
    intro t
    rw [build, if_pos hany]
  by_cases hzero : (weights.map slots).sum = 0
  · left
    intro t
    rw [build, if_neg hany]
    simp only [if_pos hzero]
  by_cases hmax : maxHuffBits < (weights.map slots).sum.size
  · left
    intro t
    rw [build, if_neg hany]
    simp only [if_neg hzero, if_pos hmax]
  set total := (weights.map slots).sum with htotal
  have hlt : total < 2 ^ total.size := Nat.lt_size_self total
  set left := 2 ^ total.size - total with hleft
  by_cases hand : left &&& (left - 1) = 0
  swap
  · left
    intro t
    rw [build, if_neg hany]
    simp only [← htotal, ← hleft, if_neg hzero, if_neg hmax]
    rw [if_pos hand]
  have hne : left ≠ 0 := by omega
  have hleft' := eq_two_pow_of_and_pred hne hand
  have hlast : 1 ≤ left.size := Nat.size_pos.mpr (by omega)
  have hlast_le : left.size ≤ total.size := by
    apply Nat.size_le.mpr
    omega
  by_cases hones : (weights ++ [left.size]).count 1 < 2 ∨ (weights ++ [left.size]).count 1 % 2 ≠ 0
  · left
    intro t
    rw [build, if_neg hany]
    simp only [← htotal, ← hleft, if_neg hzero, if_neg hmax]
    rw [if_neg (by omega), if_neg (by omega), if_pos hones]
  right
  refine ⟨left.size, total.size, by omega, ?_, hlast, hlast_le, ?_, by omega⟩
  · intro w hw
    by_contra hge
    have hw₀ : w ≠ 0 := by omega
    have hslots : slots w ≤ total :=
      single_le_sum (fun _ _ => Nat.zero_le _) _ (mem_map_of_mem hw)
    rw [slots, if_neg hw₀] at hslots
    have : 2 ^ total.size ≤ 2 ^ (w - 1) := Nat.pow_le_pow_right (by omega) (by omega)
    omega
  · rw [sum_slots_append weights hlast]
    omega

theorem Agree.wf {t u : HuffDecTable} (h : t.Agree u) (ht : t.Wf) :
  u.Wf
  := by
  obtain ⟨hbits, hlive⟩ := h
  obtain ⟨h₁, h₂⟩ := ht
  rw [hbits] at h₁ h₂
  rw [hlive] at h₂
  exact ⟨h₁, h₂⟩

end HuffDecTable

end Zstd
