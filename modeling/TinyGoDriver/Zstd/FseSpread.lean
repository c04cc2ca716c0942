import Mathlib.Data.Nat.Prime.Basic
import TinyGoDriver.Lib.Stride
import TinyGoDriver.Zstd.BackReader

/-!
# Spreading symbols over the states of an FSE table

Encoder and decoder build their tables from the same assignment of a symbol to each of
the `2 ^ tableLog` states.  Symbols of probability `-1` take one state each from the top
of the table down; the others are placed along a walk round the table whose stride is
prime to its size, which skips the states already taken.

`spreadSymbols_spec` says that a distribution that accounts for exactly the states of
the table is always spread: the walk ends where it began, and the table is a
rearrangement of the symbols, each taken as often as its probability says.
-/

namespace Zstd

open GoRt Stride List

/-- The number of states a symbol of probability `v` takes: `-1` takes one. -/
def cells (v : ℤ) : ℕ := if v = -1 then 1 else v.toNat

/-- The symbols from `i` on of probability `-1`, in the order of the loop that gives them
the states at the top. -/
def lowSymbols : ℕ → List ℤ → List ℕ
  | _, [] => []
  | i, v :: norm => if v = -1 then i :: lowSymbols (i + 1) norm else lowSymbols (i + 1) norm

/-- The symbols from `i` on in the order in which the two nested loops place them, each
as often as its probability.  A negative probability gives no iteration. -/
def spreadOrder : ℕ → List ℤ → List ℕ
  | _, [] => []
  | i, v :: norm => List.replicate v.toNat i ++ spreadOrder (i + 1) norm

/-- The loop over the symbols of probability `-1`: each takes the state `highThreshold`,
which then goes down by one as an unsigned 32-bit number. -/
def placeLow : List ℕ → ℕ → List ℕ → Go Err (ℕ × List ℕ)
  | [], highThreshold, table => .ok (highThreshold, table)
  | sym :: syms, highThreshold, table => do
    let table ← setAt table highThreshold sym
    placeLow syms (wrap 32 ((highThreshold : ℤ) - 1)) table

/-- The next position of the walk that is not above `highThreshold`. -/
def advance (step mask highThreshold : ℕ) : ℕ → ℕ → Go Err ℕ
  | 0, _ => .error .diverge
  | fuel + 1, position =>
    if highThreshold < (position + step) &&& mask then
      advance step mask highThreshold fuel ((position + step) &&& mask)
    else
      .ok ((position + step) &&& mask)

/-- The loop that places `syms` along the walk.  It returns the position after the last
of them. -/
def placeSpread (step mask highThreshold tableSize : ℕ) :
    List ℕ → ℕ → List ℕ → Go Err (ℕ × List ℕ)
  | [], position, table => .ok (position, table)
  | sym :: syms, position, table => do
    let table ← setAt table position sym
    let position ← advance step mask highThreshold tableSize position
    placeSpread step mask highThreshold tableSize syms position table

/-- `spreadSymbols`: the symbol of each state, or `none` where it reports false.  The sum
of the probabilities, at most 53 of 16 bits, does not wrap. -/
def spreadSymbols (norm : List ℤ) (tableLog : ℕ) : Go Err (Option (List ℕ)) :=
  let tableSize := 2 ^ tableLog
  if norm.any (· < -1) then
    .ok none
  else if (norm.map cells).sum ≠ tableSize then
    .ok none
  else do
    let (highThreshold, table) ←
      placeLow (lowSymbols 0 norm) (tableSize - 1) (List.replicate tableSize 0)
    let step := tableSize / 2 + tableSize / 8 + 3
    let (position, table) ←
      placeSpread step (tableSize - 1) highThreshold tableSize (spreadOrder 0 norm) 0 table
    .ok (if position = 0 then some table else none)

/-- The probabilities of `norm` account for exactly the states of a table. -/
structure Fits (norm : List ℤ) (tableLog : ℕ) : Prop where
  ge : ∀ v ∈ norm, -1 ≤ v
  sum : (norm.map cells).sum = 2 ^ tableLog

/-! ### The symbols placed -/

theorem length_lowSymbols_add (i : ℕ) (norm : List ℤ) :
  (lowSymbols i norm).length + (spreadOrder i norm).length = (norm.map cells).sum
  := by
  induction norm generalizing i with
  | nil => rfl
  | cons v norm ih =>
    have h := ih (i + 1)
    rw [lowSymbols, spreadOrder, map_cons, sum_cons, length_append, length_replicate, cells]
    split
    · rw [length_cons]
      omega
    · omega

/-- A symbol is placed as often as its probability says. -/
theorem count_symbols (i c : ℕ) (norm : List ℤ) :
  (lowSymbols i norm ++ spreadOrder i norm).count c
    = if c < i then 0 else cells (norm.getD (c - i) 0)
  := by
  induction norm generalizing i with
  | nil => simp [lowSymbols, spreadOrder, cells]
  | cons v norm ih =>
    have h := ih (i + 1)
    rw [count_append] at h ⊢
    have hcount : (lowSymbols i (v :: norm)).count c + (spreadOrder i (v :: norm)).count c
        = (if i = c then cells v else 0)
          + ((lowSymbols (i + 1) norm).count c + (spreadOrder (i + 1) norm).count c) := by
      rw [lowSymbols, spreadOrder, count_append, count_replicate, cells]
      by_cases hv : v = -1
      · subst hv
        rw [if_pos rfl, count_cons]
        have hz : (-1 : ℤ).toNat = 0 := rfl
        simp only [hz, beq_iff_eq, ite_self, if_true]
        omega
      · simp only [hv, beq_iff_eq, if_false]
        omega
    rw [hcount, h]
    rcases lt_trichotomy c i with hc | hc | hc
    · rw [if_neg (by omega), if_pos (by omega), if_pos hc]
    · subst hc
      simp
    · rw [if_neg (by omega), if_neg (by omega), if_neg (by omega)]
      obtain ⟨k, rfl⟩ : ∃ k, c = i + 1 + k := ⟨c - (i + 1), by omega⟩
      have h₂ : i + 1 + k - i = k + 1 := by omega
      rw [h₂]
      simp

variable {norm : List ℤ} {log : ℕ}

theorem mem_symbols_lt {i c : ℕ} (h : c ∈ lowSymbols i norm ++ spreadOrder i norm) :
  c < i + norm.length
  := by
  induction norm generalizing i with
  | nil => simp [lowSymbols, spreadOrder] at h
  | cons v norm ih =>
    have hrec : c = i ∨ c ∈ lowSymbols (i + 1) norm ++ spreadOrder (i + 1) norm := by
      rw [lowSymbols, spreadOrder] at h
      simp only [mem_append, mem_replicate] at h ⊢
      split at h
      · simp only [mem_cons] at h
        tauto
      · tauto
    rw [length_cons]
    rcases hrec with rfl | hrec
    · omega
    · have := ih hrec
      omega

/-! ### The states at the top -/

/-- The `m` positions from `h` down. -/
def downFrom : ℕ → ℕ → List ℕ
  | _, 0 => []
  | h, m + 1 => h :: downFrom (h - 1) m

@[simp]
theorem length_downFrom (h m : ℕ) :
  (downFrom h m).length = m
  := by
  induction m generalizing h with
  | zero => rfl
  | succ m ih => rw [downFrom, length_cons, ih]

theorem downFrom_perm {h m : ℕ} (hm : m ≤ h + 1) :
  (downFrom h m).Perm (List.range' (h + 1 - m) m)
  := by
  induction m generalizing h with
  | zero => simp [downFrom]
  | succ m ih =>
    rw [range'_concat]
    have hlast : h + 1 - (m + 1) + 1 * m = h := by omega
    rw [hlast]
    apply List.Perm.trans _ (perm_append_singleton h _).symm
    apply List.Perm.cons
    cases m with
    | zero => simp [downFrom]
    | succ m =>
      have := ih (h := h - 1) (by omega)
      have heq : h - 1 + 1 - (m + 1) = h + 1 - (m + 1 + 1) := by omega
      rwa [heq] at this

/-- The symbols of probability `-1` are written from `h` down, and the threshold ends
below them. -/
theorem placeLow_eq {syms : List ℕ} {h : ℕ} {table : List ℕ}
    (hlen : syms.length ≤ h + 1) (hlt : h < table.length) (hbig : h < 2 ^ 32) :
  ∃ h', placeLow syms h table = .ok (h', writeAll table ((downFrom h syms.length).zip syms))
    ∧ (syms.length ≤ h → h' = h - syms.length)
  := by
  induction syms generalizing h table with
  | nil => exact ⟨h, rfl, fun _ => rfl⟩
  | cons sym syms ih =>
    rw [length_cons] at hlen
    rw [placeLow, setAt_of_lt table sym hlt]
    cases syms with
    | nil =>
      refine ⟨_, rfl, fun hle => ?_⟩
      have : (h : ℤ) - 1 = ((h - 1 : ℕ) : ℤ) := by
        simp only [length_cons, length_nil] at hle
        omega
      rw [this, wrap_of_lt (by omega)]
      rfl
    | cons sym' syms =>
      rw [length_cons] at hlen
      have hwrap : wrap 32 ((h : ℤ) - 1) = h - 1 := by
        have : (h : ℤ) - 1 = ((h - 1 : ℕ) : ℤ) := by omega
        rw [this, wrap_of_lt (by omega)]
      have hlt' : h - 1 < (table.set h sym).length := by
        rw [length_set]
        omega
      obtain ⟨h', heq, hend⟩ := ih (by rw [length_cons]; omega) hlt' (by omega)
      refine ⟨h', ?_, ?_⟩
      · rw [hwrap]
        exact heq
      intro hle
      rw [length_cons, length_cons] at hle
      rw [hend (by rw [length_cons]; omega)]
      simp only [length_cons]
      omega

/-! ### The walk -/

/-- `advance` goes on to the next position the walk visits. -/
theorem advance_visited {s H : ℕ} {m i fuel p : ℕ} {ps : List ℕ} (hfuel : m ≤ fuel)
    (hvis : visited s (2 ^ log) H (i + 1) m = p :: ps) :
  ∃ j m', advance s (2 ^ log - 1) H fuel (stride s (2 ^ log) i) = .ok p
    ∧ stride s (2 ^ log) j = p ∧ visited s (2 ^ log) H (j + 1) m' = ps ∧ m' ≤ m
  := by
  induction m generalizing i fuel with
  | zero => cases hvis
  | succ m ih =>
    obtain ⟨fuel, rfl⟩ : ∃ k, fuel = k + 1 := ⟨fuel - 1, by omega⟩
    have hstep : (stride s (2 ^ log) i + s) &&& (2 ^ log - 1) = stride s (2 ^ log) (i + 1) := by
      rw [Nat.and_two_pow_sub_one_eq_mod, stride_succ]
    rw [advance, hstep]
    rw [visited] at hvis
    by_cases hle : stride s (2 ^ log) (i + 1) ≤ H
    · rw [if_pos hle] at hvis
      obtain ⟨rfl, rfl⟩ := hvis
      rw [if_neg (by omega)]
      exact ⟨i + 1, m, rfl, rfl, rfl, by omega⟩
    · rw [if_neg hle] at hvis
      rw [if_pos (by omega)]
      obtain ⟨j, m', h₁, h₂, h₃, h₄⟩ := ih (show m ≤ fuel by omega) hvis
      exact ⟨j, m', h₁, h₂, h₃, by omega⟩

/-- The symbols are written along the positions visited, and the walk ends at the one
after the last of them. -/
theorem placeSpread_eq {s H : ℕ} {syms V table : List ℕ} {i m : ℕ} (hm : m ≤ 2 ^ log)
    (hvis : visited s (2 ^ log) H (i + 1) m = V) (hlen : V.length = syms.length)
    (htable : table.length = 2 ^ log) :
  placeSpread s (2 ^ log - 1) H (2 ^ log) syms (stride s (2 ^ log) i) table
    = .ok (V.getLastD (stride s (2 ^ log) i), writeAll table ((stride s (2 ^ log) i :: V).zip syms))
  := by
  induction syms generalizing V table i m with
  | nil =>
    obtain rfl := length_eq_zero_iff.mp hlen
    rfl
  | cons sym syms ih =>
    cases V with
    | nil => cases hlen
    | cons p V =>
      have hpos : stride s (2 ^ log) i < table.length := by
        rw [htable]
        apply stride_lt (by positivity)
      obtain ⟨j, m', h₁, h₂, h₃, h₄⟩ := advance_visited hm hvis
      rw [placeSpread, setAt_of_lt _ _ hpos, ok_bind, h₁, ok_bind]
      have htable' : (table.set (stride s (2 ^ log) i) sym).length = 2 ^ log := by
        rw [length_set, htable]
      have := ih (by omega) h₃ (by simpa using hlen) htable'
      rw [h₂] at this
      rw [this, getLastD_cons]
      rfl

/-- The stride is odd, so it is prime to the size of the table. -/
theorem coprime_step (hlog : 4 ≤ log) :
  Nat.Coprime (2 ^ log) (2 ^ log / 2 + 2 ^ log / 8 + 3)
  := by
  apply Nat.Coprime.pow_left
  rw [Nat.coprime_two_left, Nat.odd_iff]
  obtain ⟨k, rfl⟩ : ∃ k, log = k + 4 := ⟨log - 4, by omega⟩
  rw [pow_add]
  omega

/-- The two loops of `spreadSymbols` over a table of `2 ^ tableLog` states, with what they write
in their order. -/
def placeAll (tableLog : ℕ) (low syms : List ℕ) : Go Err (ℕ × List ℕ) := do
  let (highThreshold, table) ←
    placeLow low (2 ^ tableLog - 1) (List.replicate (2 ^ tableLog) 0)
  placeSpread (2 ^ tableLog / 2 + 2 ^ tableLog / 8 + 3) (2 ^ tableLog - 1) highThreshold
    (2 ^ tableLog) syms 0 table

/-- The two loops for `norm`, where each assignment writes its number and not its symbol. -/
def placeNumbers (norm : List ℤ) (tableLog : ℕ) : Go Err (ℕ × List ℕ) :=
  placeAll tableLog (List.range (lowSymbols 0 norm).length)
    (List.range' (lowSymbols 0 norm).length (spreadOrder 0 norm).length)

/-- As many assignments as there are states reach each state once, whatever they write. -/
theorem placeAll_perm {low syms : List ℕ} (hlen : low.length + syms.length = 2 ^ log)
    (hlog : 4 ≤ log) (hlog' : log ≤ 31) :
  ∃ table, placeAll log low syms = .ok (0, table) ∧ table.Perm (low ++ syms)
  := by
  set n := 2 ^ log with hn
  have hpos : 0 < n := by positivity
  have hbig : n < 2 ^ 32 := Nat.pow_lt_pow_right (by omega) (by omega)
  have htable : n - 1 < (replicate n 0).length := by
    rw [length_replicate]
    omega
  obtain ⟨H, hH, hHeq⟩ := placeLow_eq (show low.length ≤ n - 1 + 1 by omega) htable (by omega)
  rw [placeAll, hH]
  by_cases hsyms : syms = []
  · -- every symbol has probability -1, and the walk places nothing
    have hlow : low.length = n := by
      rw [hsyms] at hlen
      omega
    rw [hsyms]
    refine ⟨_, rfl, ?_⟩
    rw [append_nil]
    have hzip : ((downFrom (n - 1) low.length).zip low).map Prod.fst
        = downFrom (n - 1) low.length := by
      apply map_fst_zip
      simp
    have := writeAll_perm (t := replicate n 0)
      (by
        rw [hzip]
        apply (downFrom_perm (by omega)).trans
        rw [hlow, length_replicate, range_eq_range']
        have : n - 1 + 1 - n = 0 := by omega
        rw [this])
    rwa [map_snd_zip (by simp)] at this
  have hsyms' : 0 < syms.length := length_pos_iff.mpr hsyms
  have hHlt : H + 1 = syms.length := by
    omega
  set s := n / 2 + n / 8 + 3
  have hround : 0 :: visited s n H 1 n = visited s n H 0 n ++ [0] := by
    rw [← visited_round, visited, stride_zero, if_pos (by omega)]
  have hperm := visited_perm (coprime_step hlog) (H := H) (by omega)
  have hG : (visited s n H 0 n).length = syms.length := by
    rw [hperm.length_eq, length_range, hHlt]
  have hV : (visited s n H 1 n).length = syms.length := by
    have := congrArg length hround
    simp only [length_cons, length_append, length_nil, hG] at this
    omega
  have htable : (writeAll (replicate n 0)
      ((downFrom (n - 1) low.length).zip low)).length = 2 ^ log := by
    rw [length_writeAll, length_replicate]
  have hplace := placeSpread_eq (le_refl n) rfl hV htable
  have hend : (visited s n H 1 n).getLastD 0 = 0 := by
    have := getLastD_cons (a := 0) (b := 0) (l := visited s n H 1 n)
    rw [← this, hround]
    simp
  have hzip : (visited s n H 0 n ++ [0]).zip syms = (visited s n H 0 n).zip syms := by
    rw [← append_nil syms, zip_append hG]
    simp
  rw [stride_zero, hend, hround, hzip, ← writeAll_append] at hplace
  refine ⟨_, hplace, ?_⟩
  have hfst : ((downFrom (n - 1) low.length).zip low ++ (visited s n H 0 n).zip syms).map Prod.fst
      = downFrom (n - 1) low.length ++ visited s n H 0 n := by
    rw [map_append, map_fst_zip (by simp), map_fst_zip (by omega)]
  have hsnd : ((downFrom (n - 1) low.length).zip low ++ (visited s n H 0 n).zip syms).map Prod.snd
      = low ++ syms := by
    rw [map_append, map_snd_zip (by simp), map_snd_zip (by omega)]
  have := writeAll_perm (t := replicate n 0)
    (by
      rw [hfst, length_replicate]
      apply ((downFrom_perm (by omega)).append hperm).trans
      apply perm_append_comm.trans
      rw [range_eq_range', range_eq_range']
      have h₁ : n - 1 + 1 - low.length = 0 + 1 * (H + 1) := by omega
      rw [h₁, range'_append]
      have h₂ : H + 1 + low.length = n := by omega
      rw [h₂])
  rwa [hsnd] at this

theorem Fits.spreadSymbols_eq (hfits : Fits norm log) :
  spreadSymbols norm log = (do
    let (position, table) ← placeAll log (lowSymbols 0 norm) (spreadOrder 0 norm)
    .ok (if position = 0 then some table else none))
  := by
  have hany : norm.any (· < -1) = false := by
    rw [any_eq_false]
    intro v hv
    have := hfits.ge v hv
    simp
    omega
  rw [spreadSymbols, placeAll]
  simp only [hany, hfits.sum, ne_eq, not_true_eq_false, if_false, Bool.false_eq_true, bind_assoc]

/-- A distribution that accounts for exactly the states of a table is spread over them:
every state holds one symbol, and every symbol as many states as it takes. -/
theorem spreadSymbols_spec (hfits : Fits norm log) (hlog : 4 ≤ log) (hlog' : log ≤ 31) :
  ∃ table, spreadSymbols norm log = .ok (some table) ∧ table.length = 2 ^ log
    ∧ table.Perm (lowSymbols 0 norm ++ spreadOrder 0 norm)
  := by
  have hlen := length_lowSymbols_add 0 norm
  rw [hfits.sum] at hlen
  obtain ⟨table, htable, hperm⟩ := placeAll_perm hlen hlog hlog'
  refine ⟨table, ?_, ?_, hperm⟩
  · rw [hfits.spreadSymbols_eq, htable]
    rfl
  · rw [hperm.length_eq, length_append, hlen]

/-- All assignments of a distribution that fits are still there at the end: no state is missed,
and none is assigned twice. -/
theorem Fits.placeNumbers_perm (hfits : Fits norm log) (hlog : 4 ≤ log) (hlog' : log ≤ 31) :
  ∃ table, placeNumbers norm log = .ok (0, table) ∧ table.Perm (List.range (2 ^ log))
  := by
  have hlen := length_lowSymbols_add 0 norm
  rw [hfits.sum] at hlen
  rw [placeNumbers, ← hlen]
  generalize (lowSymbols 0 norm).length = a at hlen ⊢
  generalize (spreadOrder 0 norm).length = b at hlen ⊢
  obtain ⟨table, htable, hperm⟩ := placeAll_perm
    (show (range a).length + (range' a b).length = 2 ^ log by simpa using hlen)
    hlog hlog'
  refine ⟨table, htable, ?_⟩
  rwa [range_add, ← range'_eq_map_range]

end Zstd
