import TinyGoDriver.Go.Relational
import TinyGoDriver.Zstd.FseDecode

/-!
# Reading a table description

`readFSEDescription` parses the distribution of an FSE table off the wire.  The states
not accounted for yet, plus one, are `remaining`; a probability is read in a width that
narrows with it, since it can be no larger.  `DescState.Inv` is the loop invariant: the
width is that of `remaining`, and `remaining` with the states given out makes up the
table.  So a description that is accepted fits its table, which is
`readFSEDescription_safe`.

`readTable` builds the table that is described; `readTable_same` says that neither the
storage for the distribution nor the table may have held anything that shows in it.
-/

namespace Zstd

open GoRt
open List hiding Vector

/-- The smallest accuracy of a table. -/
def minTableLog : ℕ := 5

/-- `fwdReader.peek` at the bit `pos`: the next `n` bits, zero past the end. -/
def fwdPeek (src : List UInt8) (pos n : ℕ) : ℕ :=
  (leNat ((src.drop (pos / 8)).take 4)) >>> (pos % 8) &&& (2 ^ n - 1)

/-- The variables of the loop of `readFSEDescription`. -/
structure DescState where
  pos : ℕ
  remaining : ℤ
  threshold : ℕ
  nbBits : ℕ
  previous0 : Bool
  symbol : ℕ
  norm : List ℤ
  deriving DecidableEq, Repr

/-- The loop over two-bit repeat flags: a flag of 3 means that another follows. -/
def repeatFlags (src : List UInt8) : ℕ → ℕ → ℕ → Go Err (ℕ × ℕ)
  | 0, _, _ => .error .diverge
  | fuel + 1, pos, symbol =>
    if fwdPeek src pos 2 ≠ 3 then
      .ok (pos + 2, symbol + fwdPeek src pos 2)
    else
      repeatFlags src fuel (pos + 2) (symbol + fwdPeek src pos 2)

/-- The loop that narrows the width while `remaining` is below the threshold. -/
def narrow (remaining : ℤ) : ℕ → ℕ → Go Err (ℕ × ℕ)
  | 0, _ => .error .diverge
  | nbBits + 1, threshold =>
    if remaining < threshold then
      narrow remaining nbBits (threshold >>> 1)
    else
      .ok (nbBits + 1, threshold)

/-- The value read at `pos`, and the position after it: values below `max` fit in one bit
fewer, the rest take the full width, the upper half of their range shifted down. -/
def readValue (src : List UInt8) (pos threshold nbBits : ℕ) (remaining : ℤ) : ℤ × ℕ :=
  let max : ℤ := (2 * threshold - 1) - remaining
  let v := fwdPeek src pos nbBits
  if ((v &&& (threshold - 1) : ℕ) : ℤ) < max then
    ((v &&& (threshold - 1) : ℕ), pos + (nbBits - 1))
  else if threshold ≤ v then
    (v - max, pos + nbBits)
  else
    (v, pos + nbBits)

/-- After a probability of zero, the repeat flags for those that follow it. -/
def skipZeros (src : List UInt8) (s : DescState) : Go Err (ℕ × ℕ) :=
  if s.previous0 then
    repeatFlags src (4 * src.length + 1) s.pos s.symbol
  else
    .ok (s.pos, s.symbol)

/-- One iteration of the loop of `readFSEDescription`. -/
def descStep (src : List UInt8) (s : DescState) : Go Err DescState := do
  let (pos, symbol) ← skipZeros src s
  if s.norm.length ≤ symbol then
    .error (.fail .corruptTable)
  else do
    let (v, pos) := readValue src pos s.threshold s.nbBits s.remaining
    -- the value on the wire is one higher than the probability
    let count := v - 1
    let remaining := if count < 0 then s.remaining - 1 else s.remaining - count
    let norm ← setAt s.norm symbol count
    let (nbBits, threshold) ← narrow remaining s.nbBits s.threshold
    .ok ⟨pos, remaining, threshold, nbBits, count = 0, symbol + 1, norm⟩

/-- The loop of `readFSEDescription`. -/
def descLoop (src : List UInt8) : ℕ → DescState → Go Err DescState
  | 0, _ => .error .diverge
  | fuel + 1, s =>
    if 1 < s.remaining then do
      let s ← descStep src s
      descLoop src fuel s
    else
      .ok s

/-- The state of the loop before the first symbol. -/
def descInit (tableLog : ℕ) (norm : List ℤ) : DescState :=
  ⟨4, 2 ^ tableLog + 1, 2 ^ tableLog, tableLog + 1, false, 0, norm.map (fun _ => 0)⟩

/-- `readFSEDescription`: the bytes the description took, its accuracy log, how many
symbols it described, and the distribution, written over `norm`. -/
def readFSEDescription (src : List UInt8) (norm : List ℤ) (maxLog : ℕ) :
    Go Err (ℕ × ℕ × ℕ × List ℤ) :=
  if src = [] then
    .error (.fail .corruptTable)
  else
    let tableLog := fwdPeek src 0 4 + minTableLog
    if maxLog < tableLog then
      .error (.fail .corruptTable)
    else do
      let s ← descLoop src (norm.length + 1) (descInit tableLog norm)
      let n := (s.pos + 7) / 8
      if src.length < n then
        .error (.fail .corruptTable)
      else
        .ok (n, tableLog, s.symbol, s.norm)

/-- Reads a description of at most `alphabet` symbols over the front of `norm` and fills `t`
from it: the bytes the description took, the table, and `norm` after it. -/
def readTable (norm : Vector ℤ 53) (t : FseDecTable) (alphabet maxLog : ℕ) (src : List UInt8) :
    Go Err (ℕ × FseDecTable × Vector ℤ 53) := do
  let scratch ← slice norm.toList 0 alphabet
  let (n, tableLog, symbols, scratch) ← readFSEDescription src scratch maxLog
  let norm ← writeFrom norm 0 scratch
  let dist ← slice scratch 0 symbols
  let t ← t.build dist tableLog
  .ok (n, t, norm)

variable (src : List UInt8)

/-- Nothing of what `norm` held before is read. -/
theorem readFSEDescription_norm (norm : List ℤ) (maxLog : ℕ) :
  readFSEDescription src norm maxLog
    = readFSEDescription src (List.replicate norm.length 0) maxLog
  := by
  simp [readFSEDescription, descInit]

theorem fwdPeek_eq (pos n : ℕ) :
  fwdPeek src pos n = leNat ((src.drop (pos / 8)).take 4) / 2 ^ (pos % 8) % 2 ^ n
  := by
  rw [fwdPeek, Nat.and_two_pow_sub_one_eq_mod, Nat.shiftRight_eq_div_pow]

theorem fwdPeek_lt (pos n : ℕ) :
  fwdPeek src pos n < 2 ^ n
  := by
  rw [fwdPeek_eq]
  apply Nat.mod_lt
  positivity

/-- The repeat flags end at the latest past the end of the stream. -/
theorem repeatFlags_ok {fuel pos : ℕ} (symbol : ℕ)
    (hpos : 0 < fuel) (hfuel : 8 * src.length + 2 ≤ pos + 2 * fuel) :
  ∃ pos' symbol', repeatFlags src fuel pos symbol = .ok (pos', symbol') ∧ symbol ≤ symbol'
  := by
  induction fuel generalizing pos symbol with
  | zero => omega
  | succ fuel ih =>
    rw [repeatFlags]
    by_cases hlast : fwdPeek src pos 2 ≠ 3
    · rw [if_pos hlast]
      exact ⟨_, _, rfl, by omega⟩
    rw [if_neg hlast]
    have hlt : pos < 8 * src.length := by
      by_contra hge
      rw [fwdPeek_eq, drop_of_length_le (by omega)] at hlast
      simp at hlast
    have hfuel' : 8 * src.length + 2 ≤ pos + 2 + 2 * fuel := by omega
    obtain ⟨pos', symbol', h, hle⟩ := ih (symbol + fwdPeek src pos 2) (by omega) hfuel'
    exact ⟨pos', symbol', h, by omega⟩

/-! ### The loop -/

/-- The invariant of the loop: the width is that of `remaining`, which with the states
given out so far makes up a table of accuracy `log`. -/
structure DescState.Inv (s : DescState) (log len : ℕ) : Prop where
  length_eq : s.norm.length = len
  symbol_le : s.symbol ≤ len
  nbBits_pos : 0 < s.nbBits
  threshold_eq : s.threshold = 2 ^ (s.nbBits - 1)
  threshold_le : s.threshold ≤ s.remaining
  lt_threshold : s.remaining < 2 * s.threshold
  ge : ∀ v ∈ s.norm, -1 ≤ v
  zeros : ∀ i, s.symbol ≤ i → s.norm.getD i 0 = 0
  sum : ((s.norm.map cells).sum : ℤ) + s.remaining = 2 ^ log + 1

variable {log len : ℕ} {s : DescState} {remaining : ℤ}

theorem descInit_inv (hlog : 0 < log) (norm : List ℤ) :
  (descInit log norm).Inv log norm.length
  := by
  have hpow : (1 : ℤ) < 2 ^ log := one_lt_pow₀ (by omega) (by omega)
  refine ⟨by simp [descInit], by simp [descInit], by simp [descInit], by simp [descInit],
    by simp [descInit], ?_, ?_, ?_, ?_⟩
  · simp only [descInit]
    push_cast
    linarith
  · intro v hv
    simp only [descInit, mem_map] at hv
    omega
  · intro i _
    simp only [descInit, getD, getElem?_map]
    cases norm[i]? with
    | none => rfl
    | some v => rfl
  · simp [descInit, cells]

/-- A value is at most `remaining`, so that the probability leaves at least 1. -/
theorem readValue_bounds (pos : ℕ) {threshold nbBits : ℕ} (hbits : 0 < nbBits)
    (hthreshold : threshold = 2 ^ (nbBits - 1)) (hle : threshold ≤ remaining) :
  0 ≤ (readValue src pos threshold nbBits remaining).1
    ∧ (readValue src pos threshold nbBits remaining).1 ≤ remaining
  := by
  have hv := fwdPeek_lt src pos nbBits
  have hpow : 2 ^ nbBits = 2 * threshold := by
    rw [hthreshold, ← pow_succ']
    congr 1
    omega
  rw [readValue]
  split
  · constructor <;> omega
  split
  · constructor <;> omega
  · constructor <;> omega

/-- Narrowing restores the width of `remaining`. -/
theorem narrow_ok (hpos : 1 ≤ remaining) {nbBits threshold : ℕ} (hbits : 0 < nbBits)
    (hthreshold : threshold = 2 ^ (nbBits - 1)) (hlt : remaining < 2 * threshold) :
  ∃ nb th, narrow remaining nbBits threshold = .ok (nb, th) ∧ 0 < nb ∧ th = 2 ^ (nb - 1)
    ∧ th ≤ remaining ∧ remaining < 2 * th
  := by
  induction nbBits generalizing threshold with
  | zero => omega
  | succ nbBits ih =>
    rw [narrow]
    by_cases hbelow : remaining < threshold
    · rw [if_pos hbelow]
      have hbits' : 0 < nbBits := by
        rcases Nat.eq_zero_or_pos nbBits with rfl | h
        · omega
        · exact h
      have hhalf : threshold = 2 * 2 ^ (nbBits - 1) := by
        rw [hthreshold, ← pow_succ']
        congr 1
        omega
      apply ih hbits'
      · omega
      · omega
    · rw [if_neg hbelow]
      exact ⟨_, _, rfl, hbits, hthreshold, by omega, hlt⟩

/-- Giving a symbol its probability takes its states from what remains. -/
theorem sum_cells_set {norm : List ℤ} {symbol : ℕ} (v : ℤ) (hlt : symbol < norm.length)
    (hzero : norm.getD symbol 0 = 0) :
  ((norm.set symbol v).map cells).sum = (norm.map cells).sum + cells v
  := by
  induction norm generalizing symbol with
  | nil => simp at hlt
  | cons w norm ih =>
    cases symbol with
    | zero =>
      subst hzero
      simp [cells, Nat.add_comm]
    | succ symbol =>
      have h := ih (Nat.lt_of_succ_lt_succ hlt) hzero
      simp only [set_cons_succ, map_cons, sum_cons, h]
      omega

theorem skipZeros_ok (s : DescState) :
  ∃ pos symbol, skipZeros src s = .ok (pos, symbol) ∧ s.symbol ≤ symbol
  := by
  rw [skipZeros]
  split
  · exact repeatFlags_ok src s.symbol (by omega) (by omega)
  · exact ⟨_, _, rfl, le_rfl⟩

/-- One iteration keeps the invariant and describes at least one symbol more. -/
theorem descStep_safe (hinv : s.Inv log len) (hrem : 1 < s.remaining) :
  Safe (descStep src s) (fun s' => s'.Inv log len ∧ s.symbol < s'.symbol)
  := by
  obtain ⟨pos, symbol, hpos, hsymbol⟩ := skipZeros_ok src s
  rw [descStep, hpos, ok_bind]
  dsimp only
  by_cases hrange : s.norm.length ≤ symbol
  · rw [if_pos hrange]
    exact Safe.fail
  rw [if_neg hrange]
  obtain ⟨hlo, hhi⟩ := readValue_bounds src pos hinv.nbBits_pos hinv.threshold_eq
    hinv.threshold_le
  generalize readValue src pos s.threshold s.nbBits s.remaining = r at hlo hhi
  obtain ⟨v, pos'⟩ := r
  have hcells : (if v - 1 < 0 then s.remaining - 1 else s.remaining - (v - 1))
      = s.remaining - cells (v - 1) := by
    by_cases hneg : v - 1 < 0
    · have : v = 0 := by omega
      subst this
      simp [cells]
    · rw [if_neg hneg, cells, if_neg (by omega)]
      omega
  have hrem' : 1 ≤ s.remaining - cells (v - 1) := by
    rw [← hcells]
    split <;> omega
  obtain ⟨nb, th, hnarrow, h₁, h₂, h₃, h₄⟩ := narrow_ok hrem' hinv.nbBits_pos
    hinv.threshold_eq (by have := hinv.lt_threshold; omega)
  rw [setAt_of_lt _ _ (by omega), ok_bind, hcells, hnarrow, ok_bind]
  have hzero : s.norm.getD symbol 0 = 0 := hinv.zeros symbol hsymbol
  refine ⟨⟨?_, ?_, h₁, h₂, h₃, h₄, ?_, ?_, ?_⟩, by simp only; omega⟩
  · simp [hinv.length_eq]
  · have := hinv.length_eq
    simp only
    omega
  · intro w hw
    rcases mem_or_eq_of_mem_set hw with hw | rfl
    · exact hinv.ge w hw
    · omega
  · intro i hi
    simp only at hi
    rw [getD, getElem?_set_ne (by omega)]
    exact hinv.zeros i (by omega)
  · have h := sum_cells_set (v - 1) (by omega) hzero
    have hsum := hinv.sum
    simp only [h]
    omega

theorem descLoop_safe {fuel : ℕ} (hinv : s.Inv log len)
    (hfuel : len < s.symbol + fuel) :
  Safe (descLoop src fuel s) (fun s' => s'.Inv log len ∧ s'.remaining = 1)
  := by
  induction fuel generalizing s with
  | zero =>
    have := hinv.symbol_le
    omega
  | succ fuel ih =>
    rw [descLoop]
    by_cases hrem : 1 < s.remaining
    · rw [if_pos hrem]
      apply Safe.bind (descStep_safe src hinv hrem)
      rintro s' ⟨hinv', hlt⟩
      exact ih hinv' (by omega)
    rw [if_neg hrem]
    refine ⟨hinv, ?_⟩
    have hpow : 0 < 2 ^ (s.nbBits - 1) := by positivity
    have h₁ := hinv.threshold_eq
    have h₂ := hinv.threshold_le
    omega

/-- The symbols a finished loop described account for the whole table. -/
theorem DescState.Inv.fits (hinv : s.Inv log len) (hrem : s.remaining = 1) :
  Fits (s.norm.take s.symbol) log
  := by
  have hrest : ((s.norm.drop s.symbol).map cells).sum = 0 := by
    apply sum_eq_zero
    intro c hc
    rw [mem_map] at hc
    obtain ⟨v, hv, rfl⟩ := hc
    obtain ⟨i, hi, rfl⟩ := mem_iff_getElem.mp hv
    have h := hinv.zeros (s.symbol + i) (by omega)
    rw [length_drop] at hi
    rw [getD, getElem?_eq_getElem (by omega), Option.getD_some] at h
    rw [getElem_drop, h]
    rfl
  constructor
  · intro v hv
    exact hinv.ge v (mem_of_mem_take hv)
  have hsum := hinv.sum
  rw [← take_append_drop s.symbol s.norm, map_append, sum_append, hrest, hrem] at hsum
  zify
  push_cast at hsum
  omega

/-- What is accepted is well formed: a description ends in the source, names at most the
symbols there are room for, and its distribution fits a table of the accuracy it gives. -/
theorem readFSEDescription_safe (norm : List ℤ) (maxLog : ℕ) :
  Safe (readFSEDescription src norm maxLog) (fun (n, tableLog, symbols, norm') =>
    n ≤ src.length ∧ minTableLog ≤ tableLog ∧ tableLog ≤ maxLog ∧ symbols ≤ norm.length
      ∧ norm'.length = norm.length ∧ Fits (norm'.take symbols) tableLog)
  := by
  rw [readFSEDescription]
  split
  · exact Safe.fail
  dsimp only
  split
  · exact Safe.fail
  have hinit := descInit_inv (show 0 < fwdPeek src 0 4 + minTableLog by simp [minTableLog]) norm
  apply Safe.bind (descLoop_safe src hinit (by simp [descInit]))
  rintro s ⟨hinv, hrem⟩
  split
  · exact Safe.fail
  rw [Safe.ok_iff]
  dsimp only
  exact ⟨by omega, by omega, by omega, hinv.symbol_le, hinv.length_eq, hinv.fits hrem⟩

/-- A distribution read off the wire accounts for the states of its table, and `spreadSymbols`
gives it the table: every symbol has as many states as its count says, and every state is assigned
exactly once.  The counts of a table of up to `2 ^ 14` states fit the 16 bits they are stored in;
the callers allow `2 ^ 9`. -/
theorem described_spreads {src : List UInt8} {norm norm' : List ℤ} {maxLog n tableLog symbols : ℕ}
    (hmax : maxLog ≤ 14)
    (h : readFSEDescription src norm maxLog = .ok (n, tableLog, symbols, norm')) :
  ((norm'.take symbols).map cells).sum = 2 ^ tableLog
    ∧ (∃ table, spreadSymbols (norm'.take symbols) tableLog = .ok (some table)
      ∧ ∀ c, table.count c = cells ((norm'.take symbols).getD c 0))
    ∧ ∃ table, placeNumbers (norm'.take symbols) tableLog = .ok (0, table)
      ∧ table.Perm (List.range (2 ^ tableLog))
  := by
  have hsafe := readFSEDescription_safe src norm maxLog
  rw [h] at hsafe
  obtain ⟨-, hmin, hlog, -, -, hfits⟩ := hsafe
  rw [minTableLog] at hmin
  obtain ⟨table, htable, -, hperm⟩ := spreadSymbols_spec hfits (by omega) (by omega)
  refine ⟨hfits.sum, ⟨table, htable, fun c => ?_⟩, ?_⟩
  · rw [hperm.count_eq, count_symbols]
    rfl
  · exact hfits.placeNumbers_perm (by omega) (by omega)

/-- A table of 32 states, one of them for a symbol of probability `-1`. -/
theorem described_spreads_low :
  readFSEDescription [0x00, 0x7e] (List.replicate 53 0) 9
      = .ok (2, 5, 2, [-1, 31] ++ List.replicate 51 0)
    ∧ (([-1, 31] : List ℤ).map cells).sum = 2 ^ 5
    ∧ (∃ table, spreadSymbols [-1, 31] 5 = .ok (some table)
      ∧ ∀ c, table.count c = cells (([-1, 31] : List ℤ).getD c 0))
    ∧ ∃ table, placeNumbers [-1, 31] 5 = .ok (0, table) ∧ table.Perm (List.range (2 ^ 5))
  := by
  have h : readFSEDescription [0x00, 0x7e] (replicate 53 0) 9
      = .ok (2, 5, 2, [-1, 31] ++ replicate 51 0) := by decide +kernel
  exact ⟨h, described_spreads (by omega) h⟩

/-- The table read depends on the description alone, and it is well formed. -/
theorem readTable_same (v w : Vector ℤ 53) (t u : FseDecTable) {alphabet maxLog : ℕ}
    (ha : alphabet ≤ maxFSESymbols) (hlog : maxLog ≤ 9) (src : List UInt8) :
  Same (fun r s => r.1 = s.1 ∧ r.1 ≤ src.length ∧ r.2.1.Agree s.2.1
      ∧ r.2.1.Wf (alphabet - 1) ∧ minTableLog ≤ r.2.1.tableLog ∧ r.2.1.tableLog ≤ maxLog)
    (readTable v t alphabet maxLog src) (readTable w u alphabet maxLog src)
  := by
  rw [maxFSESymbols] at ha
  have hslice : ∀ x : Vector ℤ 53, (slice x.toList 0 alphabet : Go Err _)
      = .ok (x.toList.take alphabet) := by
    intro x
    rw [slice_of_le le_rfl (by omega) (by simp; omega)]
    simp
  have hnorm : ∀ x : Vector ℤ 53, readFSEDescription src (x.toList.take alphabet) maxLog
      = readFSEDescription src (replicate alphabet 0) maxLog := by
    intro x
    rw [readFSEDescription_norm]
    congr 2
    simp
    omega
  rw [readTable, readTable, hslice, hslice, ok_bind, ok_bind, hnorm, hnorm]
  apply (Same.of_safe (readFSEDescription_safe src (replicate alphabet 0) maxLog)).bind
  rintro ⟨n, log, symbols, norm⟩ s ⟨rfl, hn, hmin, hmax, hsym, hlen, -⟩
  rw [length_replicate] at hsym hlen
  dsimp only
  obtain ⟨v', hv', -⟩ := writeFrom_eq v (show 0 + norm.length ≤ 53 by omega)
  obtain ⟨w', hw', -⟩ := writeFrom_eq w (show 0 + norm.length ≤ 53 by omega)
  rw [hv', hw', ok_bind, ok_bind, slice_of_le le_rfl (by omega) (by omega), ok_bind, ok_bind]
  set dist := (norm.take (symbols : ℤ).toNat).drop (0 : ℤ).toNat with hdist
  have hdlen : dist.length ≤ alphabet := by
    simp [hdist]
    omega
  rw [minTableLog] at hmin
  rcases FseDecTable.build_cases dist (show 4 ≤ log by omega) (by omega)
    (by rw [maxFSESymbols]; omega) with hfail | ⟨es, hbuild⟩
  · rw [hfail, hfail]
    exact Same.fail
  obtain ⟨t', ht', hlog₁, hlive₁, hwf₁⟩ := hbuild t
  obtain ⟨u', hu', hlog₂, hlive₂, -⟩ := hbuild u
  rw [ht', hu', ok_bind, ok_bind]
  refine ⟨rfl, hn, ⟨by rw [hlog₁, hlog₂], by rw [hlive₁, hlive₂]⟩, hwf₁.mono (by omega), ?_, ?_⟩
  · dsimp only
    rw [minTableLog]
    omega
  · dsimp only
    omega

end Zstd
