import Mathlib.Algebra.Order.BigOperators.Group.List
import TinyGoDriver.Zstd.FseEncode

/-!
# Fitting a distribution to the symbols of a block

`normalizeCounts` scales the counts of the symbols to the states of a table.  A symbol that occurs
is never left without a state, so the shares may come to more than there are states; the excess is
taken from the most frequent symbol if it can spare it, and otherwise one state at a time from all
that have two.  When there are states enough for the symbols that occur, this always ends with a
distribution that fills the table (`normalizeCounts_fills`).
-/

namespace Zstd

open GoRt List

/-- The conversion to a signed 16-bit integer. -/
def int16 (x : ℤ) : ℤ := x.bmod (2 ^ 16)

/-- The share of the table for a symbol that occurs `c` times of `total`. -/
def share (total tableLog c : ℕ) : ℕ :=
  if c = 0 then 0 else max 1 (c <<< tableLog / total)

/-- The first symbol from `s` on with the largest count, if that exceeds `largestCount`. -/
def largestFrom : ℕ → Option ℕ → ℕ → List ℕ → Option ℕ
  | _, largest, _, [] => largest
  | s, largest, largestCount, c :: counts =>
    if largestCount < c then largestFrom (s + 1) (some s) c counts
    else largestFrom (s + 1) largest largestCount counts

/-- One pass that takes a state from each symbol that can spare one, until `tableSize` are left. -/
def shave (tableSize : ℤ) : ℤ → List ℤ → ℤ × List ℤ
  | sum, [] => (sum, [])
  | sum, v :: norm =>
    if sum = tableSize then (sum, v :: norm)
    else if 1 < v then
      let (sum, norm) := shave tableSize (sum - 1) norm
      (sum, (v - 1) :: norm)
    else
      let (sum, norm) := shave tableSize sum norm
      (sum, v :: norm)

/-- The loop of `normalizeCounts` that settles the states given out in excess. -/
def settle (tableSize : ℤ) (largest : ℕ) : ℕ → ℤ → List ℤ → Go Err (Option (List ℤ))
  | 0, _, _ => .error .diverge
  | fuel + 1, sum, norm =>
    if tableSize < sum then do
      let v ← idx norm largest
      if sum - tableSize < v then
        .ok (some (norm.set largest (v - (sum - tableSize))))
      else
        let (sum', norm') := shave tableSize sum norm
        -- no progress
        if sum' = sum then .ok none else settle tableSize largest fuel sum' norm'
    else
      .ok (some norm)

/-- `normalizeCounts`, with `norm` as long as `counts`: the distribution, or `none` where it reports
false.  A share is divided by `total` once a symbol occurs. -/
def normalizeCounts (counts : List ℕ) (total tableLog : ℕ) : Go Err (Option (List ℤ)) :=
  let tableSize : ℤ := 2 ^ tableLog
  let shares : List ℤ := counts.map (fun c => share total tableLog c)
  let norm := shares.map int16
  let sum := shares.sum
  match largestFrom 0 none 0 counts with
  | none => .ok none
  | some largest =>
    if total = 0 then
      .error .panic
    else if sum < tableSize then do
      let v ← idx norm largest
      .ok (some (norm.set largest (int16 (v + (tableSize - sum)))))
    else
      settle tableSize largest (sum.toNat + 1) sum norm

/-- The number of symbols that occur. -/
def used (counts : List ℕ) : ℕ := counts.countP (· ≠ 0)

/-- The symbols that occur have states, the others none. -/
def Shares (counts : List ℕ) (norm : List ℤ) : Prop :=
  List.Forall₂ (fun c v => if c = 0 then v = 0 else 1 ≤ v) counts norm

namespace Shares

variable {counts : List ℕ} {norm : List ℤ}

/-- A symbol that occurs may take any positive number of states. -/
theorem set (h : Shares counts norm) {s : ℕ} (hs : s < counts.length) (hne : counts[s] ≠ 0)
    {v : ℤ} (hv : 1 ≤ v) :
  Shares counts (norm.set s v)
  := by
  induction h generalizing s with
  | nil => cases hs
  | cons hcv htail ih =>
    cases s with
    | zero =>
      refine List.Forall₂.cons ?_ htail
      rwa [if_neg (by simpa using hne)]
    | succ s => exact List.Forall₂.cons hcv (ih (by simpa using hs) hne)

/-- Where no symbol has a state to spare, there are as many states as symbols that occur. -/
theorem sum_of_le (h : Shares counts norm) (hle : ∀ v ∈ norm, v ≤ 1) :
  norm.sum = used counts
  := by
  induction h with
  | nil => rfl
  | @cons c v counts norm hcv _ ih =>
    have hv := hle v (by simp)
    have htail := ih (fun w hw => hle w (by simp [hw]))
    rw [used] at htail ⊢
    by_cases hc : c = 0
    · rw [if_pos hc] at hcv
      simp [hc, hcv, htail]
    · rw [if_neg hc] at hcv
      simp [hc, htail]
      omega

theorem fits (h : Shares counts norm) {log : ℕ} (hsum : norm.sum = 2 ^ log) :
  Fits norm log
  := by
  have hcells : (∀ v ∈ norm, -1 ≤ v) ∧ ((norm.map cells).sum : ℤ) = norm.sum := by
    clear hsum
    induction h with
    | nil => simp
    | @cons c v counts norm hcv _ ih =>
      have hv : 0 ≤ v := by split at hcv <;> omega
      have hcell : (cells v : ℤ) = v := by
        rw [cells, if_neg (by omega)]
        omega
      refine ⟨fun w hw => ?_, ?_⟩
      · rcases mem_cons.mp hw with rfl | hw
        · omega
        · exact ih.1 w hw
      · rw [map_cons, sum_cons, sum_cons, Nat.cast_add, hcell, ih.2]
  refine ⟨hcells.1, ?_⟩
  have := hcells.2.trans hsum
  exact_mod_cast this

end Shares

theorem sum_set_int {norm : List ℤ} {s : ℕ} (v : ℤ) (hs : s < norm.length) :
  (norm.set s v).sum = norm.sum - norm[s] + v
  := by
  induction norm generalizing s with
  | nil => cases hs
  | cons a norm ih =>
    cases s with
    | zero =>
      simp
      ring
    | succ s =>
      simp only [set_cons_succ, sum_cons, getElem_cons_succ]
      rw [ih (by simpa using hs)]
      ring

theorem largestFrom_cases (s largestCount : ℕ) (largest : Option ℕ) (counts : List ℕ) :
  (largestFrom s largest largestCount counts = largest ∧ ∀ c ∈ counts, c ≤ largestCount)
    ∨ ∃ i, ∃ h : i < counts.length, largestFrom s largest largestCount counts = some (s + i)
      ∧ largestCount < counts[i]
  := by
  induction counts generalizing s largest largestCount with
  | nil => exact .inl ⟨rfl, by simp⟩
  | cons c counts ih =>
    rw [largestFrom]
    split
    · rename_i hlt
      rcases ih (s + 1) c (some s) with ⟨heq, -⟩ | ⟨i, hi, heq, hlt'⟩
      · exact .inr ⟨0, by simp, heq, hlt⟩
      refine .inr ⟨i + 1, by simpa using hi, ?_, ?_⟩
      · rw [heq, Nat.add_assoc, Nat.add_comm 1]
      · simpa using hlt.trans hlt'
    rcases ih (s + 1) largestCount largest with ⟨heq, hall⟩ | ⟨i, hi, heq, hlt⟩
    · refine .inl ⟨heq, fun d hd => ?_⟩
      rcases mem_cons.mp hd with rfl | hd
      · omega
      · exact hall d hd
    · refine .inr ⟨i + 1, by simpa using hi, ?_, hlt⟩
      rw [heq, Nat.add_assoc, Nat.add_comm 1]

/-- A pass keeps the shares and takes as many states as it says: at least one, where a symbol has
one to spare. -/
theorem shave_spec {tableSize : ℤ} {counts : List ℕ} {norm : List ℤ} (h : Shares counts norm)
    {sum : ℤ} (hsum : tableSize ≤ sum) :
  Shares counts (shave tableSize sum norm).2
    ∧ (shave tableSize sum norm).2.sum - norm.sum = (shave tableSize sum norm).1 - sum
    ∧ tableSize ≤ (shave tableSize sum norm).1 ∧ (shave tableSize sum norm).1 ≤ sum
    ∧ ((shave tableSize sum norm).1 = sum → sum = tableSize ∨ ∀ v ∈ norm, v ≤ 1)
  := by
  induction h generalizing sum with
  | nil => exact ⟨List.Forall₂.nil, by simp [shave], hsum, le_rfl, by simp⟩
  | @cons c v counts norm hcv htail ih =>
    rw [shave]
    split
    · rename_i heq
      exact ⟨List.Forall₂.cons hcv htail, by ring, hsum, le_rfl, fun _ => .inl heq⟩
    rename_i hne
    split
    · obtain ⟨hshares, hdiff, hge, hle, -⟩ := @ih (sum - 1) (by omega)
      refine ⟨List.Forall₂.cons ?_ hshares, ?_, hge, by simp only; omega, ?_⟩
      · split at hcv <;> split <;> omega
      · simp only [sum_cons]
        omega
      · intro heq
        simp only at heq
        omega
    · obtain ⟨hshares, hdiff, hge, hle, hspare⟩ := @ih sum hsum
      refine ⟨List.Forall₂.cons hcv hshares, ?_, hge, hle, fun heq => .inr fun w hw => ?_⟩
      · simp only [sum_cons]
        omega
      · rcases mem_cons.mp hw with rfl | hw
        · omega
        · exact (hspare heq).resolve_left hne w hw

theorem settle_spec {tableSize : ℤ} {counts : List ℕ} {norm : List ℤ} {largest fuel : ℕ} {sum : ℤ}
    (h : Shares counts norm) (hlt : largest < counts.length) (hne : counts[largest] ≠ 0)
    (hused : used counts ≤ tableSize) (hsum : norm.sum = sum) (hge : tableSize ≤ sum)
    (hfuel : sum - tableSize < fuel) :
  ∃ norm', settle tableSize largest fuel sum norm = .ok (some norm')
    ∧ Shares counts norm' ∧ norm'.sum = tableSize
  := by
  induction fuel generalizing sum norm with
  | zero =>
    omega
  | succ fuel ih =>
    have hlt' : largest < norm.length := by rwa [← List.Forall₂.length_eq h]
    rw [settle]
    split
    · rw [idx_of_lt hlt', ok_bind]
      split
      · refine ⟨_, rfl, h.set hlt hne (by omega), ?_⟩
        rw [sum_set_int _ hlt', hsum]
        ring
      obtain ⟨hshares, hdiff, hge', hle', hspare⟩ := shave_spec h hge
      simp only
      split
      · -- no symbol has a state to spare: there is no excess
        rename_i hsame
        rcases hspare hsame with heq | hones
        · omega
        · have := h.sum_of_le hones
          omega
      · apply ih hshares (by omega) hge'
        omega
    · exact ⟨norm, rfl, h, by omega⟩

/-! ### Shares of the whole -/

theorem share_le {counts : List ℕ} (log : ℕ) {c : ℕ} (hc : c ∈ counts) :
  share counts.sum log c ≤ 2 ^ log
  := by
  rw [share]
  split
  · exact Nat.zero_le _
  refine max_le Nat.one_le_two_pow ?_
  rw [Nat.shiftLeft_eq]
  apply Nat.div_le_of_le_mul
  exact Nat.mul_le_mul_right _ (single_le_sum (by simp) _ hc)

theorem int16_eq {x : ℤ} (h : 0 ≤ x) (h' : x < 2 ^ 15) :
  int16 x = x
  := by
  exact Int.bmod_eq_of_le (by omega) (by omega)

theorem shares_share (total log : ℕ) (counts : List ℕ) :
  Shares counts (counts.map (fun c => (share total log c : ℤ)))
  := by
  rw [Shares, forall₂_map_right_iff, forall₂_same]
  intro c _
  rw [share]
  split
  · rfl
  · exact_mod_cast le_max_left _ _

/-- A distribution of all states, of which just the symbols that occur have some. -/
theorem normalizeCounts_spec {counts : List ℕ} {log : ℕ} (hlog : log ≤ 9)
    (hused : 1 ≤ used counts) (hroom : used counts ≤ 2 ^ log) :
  ∃ norm, normalizeCounts counts counts.sum log = .ok (some norm)
    ∧ norm.sum = 2 ^ log ∧ Shares counts norm
  := by
  have hsize : 2 ^ log ≤ 2 ^ 9 := Nat.pow_le_pow_right (by decide) hlog
  have hcast : ((2 ^ log : ℕ) : ℤ) = 2 ^ log := Nat.cast_pow 2 log
  have hshares := shares_share counts.sum log counts
  rw [normalizeCounts]
  generalize hdef : counts.map (fun c => (share counts.sum log c : ℤ)) = shares at hshares ⊢
  have hint16 : shares.map int16 = shares := by
    rw [← hdef, map_map]
    apply map_congr_left
    intro c hc
    have := share_le log hc
    rw [Function.comp_apply, int16_eq (by omega) (by omega)]
  rcases largestFrom_cases 0 0 none counts with ⟨-, hall⟩ | ⟨largest, hlt, hlargest, hpos⟩
  · -- no symbol occurs
    rw [used, Nat.one_le_iff_ne_zero, ne_eq, countP_eq_zero] at hused
    exact absurd (fun c hc => by simpa using hall c hc) hused
  simp only [hlargest, hint16, Nat.zero_add]
  have hlt' : largest < shares.length := by rwa [← List.Forall₂.length_eq hshares]
  have hle := single_le_sum (by simp) _ (getElem_mem hlt)
  rw [if_neg (by omega)]
  split
  · have hnonneg : 0 ≤ shares.sum := by
      rw [← hdef]
      exact sum_nonneg (by simp)
    have hshare := share_le log (getElem_mem hlt)
    have hat : shares[largest] = share counts.sum log counts[largest] := by simp [← hdef]
    rw [idx_of_lt hlt', ok_bind, int16_eq (by omega) (by omega)]
    refine ⟨_, rfl, ?_, hshares.set hlt (by omega) (by omega)⟩
    rw [sum_set_int _ hlt']
    ring
  · obtain ⟨norm, hnorm, hs, hn⟩ := @settle_spec (2 ^ log) _ _ _ (shares.sum.toNat + 1) _
      hshares hlt (by omega) (by omega) rfl (by omega) (by omega)
    exact ⟨norm, hnorm, hn, hs⟩

theorem normalizeCounts_fills {counts : List ℕ} {tableLog : ℕ} (hlog : 5 ≤ tableLog)
    (hlog' : tableLog ≤ 9) (hused : 1 ≤ used counts) (hroom : used counts ≤ 2 ^ tableLog) :
  ∃ norm, normalizeCounts counts counts.sum tableLog = .ok (some norm)
    ∧ norm.sum = 2 ^ tableLog ∧ Shares counts norm
    ∧ (∃ tableSymbol, spreadSymbols norm tableLog = .ok (some tableSymbol))
    ∧ (counts.length ≤ maxFSESymbols →
      ∃ ct, buildCTable norm tableLog = .ok ct ∧ ct.stateTable.length = 2 ^ tableLog)
  := by
  obtain ⟨norm, hnorm, hsum, hshares⟩ := normalizeCounts_spec hlog' hused hroom
  have hfits := hshares.fits hsum
  refine ⟨norm, hnorm, hsum, hshares, ?_, fun hlen => ?_⟩
  · obtain ⟨tableSymbol, htable, -⟩ := spreadSymbols_spec hfits (by omega) (by omega)
    exact ⟨tableSymbol, htable⟩
  rw [List.Forall₂.length_eq hshares] at hlen
  obtain ⟨ct, hct, hstates, -⟩ :=
    fillCTable_mirrors hfits (by omega) hlog' hlen length_replicate
  exact ⟨ct, hct, hstates⟩

/-- The most frequent symbol gives up what the rare ones take beyond their part. -/
theorem normalizeCounts_fills_rare :
  ∃ norm, normalizeCounts [200, 0, 1, 1, 1] 203 5 = .ok (some norm) ∧ norm.sum = 2 ^ 5
    ∧ Shares [200, 0, 1, 1, 1] norm ∧ ∃ ct, buildCTable norm 5 = .ok ct
  := by
  obtain ⟨norm, hnorm, hsum, hshares, -, hct⟩ := @normalizeCounts_fills [200, 0, 1, 1, 1] 5
    (by decide) (by decide) (by decide) (by decide)
  obtain ⟨ct, hct, -⟩ := hct (by decide)
  exact ⟨norm, hnorm, hsum, hshares, ct, hct⟩

end Zstd
