import Mathlib.Data.List.GetD
import TinyGoDriver.Zstd.BitWriter
import TinyGoDriver.Zstd.FseDecode

/-!
# Encoding with an FSE table

`fillCTable` turns a distribution into an encoding table over the same assignment of symbols to
states from which the decoder builds its own.  To encode a symbol, a state `x` gives up its low bits
and becomes the state of the symbol whose number is what is left of `x`; the decoder finds there how
many bits to read back, and what to add to them (`CTable.Mirrors`).

Storage for the states is reused from block to block; what it held does not show.
-/

namespace Zstd

open GoRt List Nat

structure SymbolTransform where
  deltaNbBits : ℕ
  deltaFindState : ℤ
  deriving DecidableEq, Repr

structure CTable where
  stateTable : List ℕ
  symbolTT : List SymbolTransform
  tableLog : ℕ
  deriving DecidableEq, Repr

/-- The first state of each symbol, when `total` states are taken before them. -/
def cumulFrom : ℕ → List ℤ → List ℕ
  | _, [] => []
  | total, v :: norm => total :: cumulFrom (total + cells v) norm

/-- The loop of `fillCTable` that enters the states, from `u` on, under their symbols. -/
def placeStates (tableSize : ℕ) : ℕ → List ℕ → List ℕ → List ℕ → Go Err (List ℕ)
  | _, [], _, states => .ok states
  | u, sym :: syms, cumul, states => do
    let c ← idx cumul sym
    let states ← setAt states c (tableSize + u)
    let cumul ← setAt cumul sym (c + 1)
    placeStates tableSize (u + 1) syms cumul states

/-- The transform of a symbol of probability `v`, when `total` states are taken before it. -/
def symbolTransform (tableLog total : ℕ) (v : ℤ) : SymbolTransform :=
  if v = 0 then
    ⟨0, 0⟩
  else if v = -1 ∨ v = 1 then
    ⟨wrap 32 ((tableLog <<< 16 : ℕ) - (2 ^ tableLog : ℕ)), total - 1⟩
  else
    let maxBitsOut := wrap 32 ((tableLog : ℤ) - (((v - 1).toNat.size : ℤ) - 1))
    let minStatePlus := v.toNat <<< maxBitsOut % 2 ^ 32
    ⟨wrap 32 ((maxBitsOut <<< 16 : ℕ) - minStatePlus), total - v⟩

/-- The loop of `fillCTable` over the transforms. -/
def symbolTransforms (tableLog : ℕ) : ℕ → List ℤ → List SymbolTransform
  | _, [] => []
  | total, v :: norm =>
    symbolTransform tableLog total v :: symbolTransforms tableLog (total + cells v) norm

/-- `fillCTable`, over the storage `states`.  Every transform is written. -/
def fillCTable (states : List ℕ) (norm : List ℤ) (tableLog : ℕ) : Go Err CTable :=
  if 512 < 2 ^ tableLog then
    .error .panic
  else do
    match ← spreadSymbols norm tableLog with
    | none => .error .panic
    | some tableSymbol =>
      if maxFSESymbols < norm.length then
        .error .panic
      else do
        let states ← placeStates (2 ^ tableLog) 0 tableSymbol (cumulFrom 0 norm) states
        if (norm.map cells).sum ≠ 2 ^ tableLog then .error .panic
        else .ok ⟨states, symbolTransforms tableLog 0 norm, tableLog⟩

def buildCTable (norm : List ℤ) (tableLog : ℕ) : Go Err CTable :=
  fillCTable (List.replicate (2 ^ tableLog) 0) norm tableLog

/-! ### States -/

structure FseState where
  state : ℕ
  ct : CTable

/-- The conversion of an unsigned 32-bit integer to a signed one. -/
def int32 (x : ℕ) : ℤ := if x < 2 ^ 31 then x else x - 2 ^ 32

/-- `stateTable[i]` -/
def CTable.stateAt (ct : CTable) (i : ℤ) : Go Err ℕ :=
  if i < 0 then .error .panic else idx ct.stateTable i.toNat

namespace FseState

def init (ct : CTable) (symbol : ℕ) : Go Err FseState := do
  let tt ← idx ct.symbolTT symbol
  let nbBitsOut := ((tt.deltaNbBits + 2 ^ 15) % 2 ^ 32) >>> 16
  let im := int32 (wrap 32 ((nbBitsOut <<< 16 : ℕ) - tt.deltaNbBits))
  let state ← ct.stateAt (im / 2 ^ nbBitsOut + tt.deltaFindState)
  .ok ⟨state, ct⟩

def encode (s : FseState) (bw : BitWriter) (symbol : ℕ) : Go Err (FseState × BitWriter) := do
  let tt ← idx s.ct.symbolTT symbol
  let nbBitsOut := ((s.state + tt.deltaNbBits) % 2 ^ 32) >>> 16
  let dst : ℤ := (s.state >>> (nbBitsOut &&& 15) : ℕ) + tt.deltaFindState
  let bw := bw.addBits s.state (nbBitsOut % 2 ^ 8)
  let state ← s.ct.stateAt dst
  .ok (⟨state, s.ct⟩, bw)

def flush (s : FseState) (bw : BitWriter) : BitWriter :=
  bw.flush32.addBits s.state s.ct.tableLog

end FseState

/-! ### The states entered -/

/-- The states taken before those of the symbol `c`. -/
def startOf (norm : List ℤ) (c : ℕ) : ℕ := ((norm.take c).map cells).sum

theorem length_cumulFrom (total : ℕ) (norm : List ℤ) :
  (cumulFrom total norm).length = norm.length
  := by
  induction norm generalizing total with
  | nil => rfl
  | cons v norm ih => simp [cumulFrom, ih]

variable {norm : List ℤ}

theorem getD_cumulFrom (total : ℕ) {c : ℕ} (hc : c < norm.length) :
  (cumulFrom total norm).getD c 0 = total + startOf norm c
  := by
  induction norm generalizing total c with
  | nil => cases hc
  | cons v norm ih =>
    cases c with
    | zero => simp [cumulFrom, startOf]
    | succ c =>
      rw [cumulFrom, getD_cons_succ, ih _ (by simpa using hc), startOf, startOf,
        take_succ_cons, map_cons, sum_cons]
      omega

theorem getElem?_symbolTransforms (log total : ℕ) {c : ℕ} (hc : c < norm.length) :
  (symbolTransforms log total norm)[c]?
    = some (symbolTransform log (total + startOf norm c) (norm.getD c 0))
  := by
  induction norm generalizing total c with
  | nil => cases hc
  | cons v norm ih =>
    cases c with
    | zero => simp [symbolTransforms, startOf]
    | succ c =>
      rw [symbolTransforms, getElem?_cons_succ, ih _ (by simpa using hc), startOf, startOf,
        take_succ_cons, map_cons, sum_cons, getD_cons_succ, add_assoc]

/-- The states of a symbol end before those of a later one begin. -/
theorem startOf_add_le {c c' : ℕ} (h : c < c') (hc : c < norm.length) :
  startOf norm c + cells (norm.getD c 0) ≤ startOf norm c'
  := by
  have hsucc : startOf norm (c + 1) = startOf norm c + cells (norm.getD c 0) := by
    rw [startOf, startOf, take_add_one]
    simp [getD, hc]
  obtain ⟨k, rfl⟩ : ∃ k, c' = c + 1 + k := ⟨c' - (c + 1), by omega⟩
  have htake : norm.take (c + 1 + k) = norm.take (c + 1) ++ (norm.drop (c + 1)).take k :=
    take_add ..
  rw [← hsucc, startOf, startOf, htake, map_append, List.sum_append]
  omega

theorem startOf_length (norm : List ℤ) :
  startOf norm norm.length = (norm.map cells).sum
  := by
  rw [startOf, take_length]

/-- Where each state is entered, when the states of different symbols do not overlap. -/
theorem placeStates_eq {size u₀ : ℕ} {syms cumul states : List ℕ}
    (hmem : ∀ c ∈ syms, c < cumul.length)
    (hle : ∀ c ∈ syms, cumul.getD c 0 + syms.count c ≤ states.length)
    (hapart : ∀ c ∈ syms, ∀ c' ∈ syms, c < c' → cumul.getD c 0 + syms.count c ≤ cumul.getD c' 0) :
  ∃ states', placeStates size u₀ syms cumul states = .ok states'
    ∧ states'.length = states.length
    ∧ (∀ u < syms.length,
        states'[cumul.getD (syms.getD u 0) 0 + (syms.take u).count (syms.getD u 0)]?
          = some (size + u₀ + u))
    ∧ ∀ i, (∀ c ∈ syms, i < cumul.getD c 0 ∨ cumul.getD c 0 + syms.count c ≤ i) →
        states'[i]? = states[i]?
  := by
  induction syms generalizing u₀ cumul states with
  | nil =>
    refine ⟨states, rfl, rfl, ?_, fun _ _ => rfl⟩
    intro u hu
    cases hu
  | cons sym syms ih =>
    have hsym := hmem sym (by simp)
    have hget : cumul.getD sym 0 = cumul[sym] := by simp [getD, hsym]
    have hroom := hle sym (by simp)
    rw [count_cons_self] at hroom
    -- the next state of `sym` goes one further, the other symbols stay
    have hset : ∀ c, (cumul.set sym (cumul[sym] + 1)).getD c 0
        = cumul.getD c 0 + if sym = c then 1 else 0 := by
      intro c
      by_cases hc : sym = c
      · subst hc
        simp [hsym]
      · simp [hc]
    have hcount : ∀ c, (sym :: syms).count c = syms.count c + if sym = c then 1 else 0 := by
      intro c
      simp [count_cons]
    obtain ⟨states', hplace, hlen, hat, helse⟩ := @ih (u₀ + 1)
      (cumul.set sym (cumul[sym] + 1)) (states.set cumul[sym] (size + u₀))
      (fun c hc => by
        rw [length_set]
        exact hmem c (by simp [hc]))
      (fun c hc => by
        have := hle c (by simp [hc])
        rw [hcount] at this
        rw [hset, length_set]
        omega)
      (fun c hc c' hc' hlt => by
        have := hapart c (by simp [hc]) c' (by simp [hc']) hlt
        rw [hcount] at this
        rw [hset, hset]
        omega)
    refine ⟨states', ?_, ?_, ?_, ?_⟩
    · rw [placeStates, idx_of_lt hsym, ok_bind, setAt_of_lt _ _ (by omega), ok_bind,
        setAt_of_lt _ _ hsym, ok_bind, hplace]
    · rw [hlen, length_set]
    · intro u hu
      cases u with
      | zero =>
        rw [getD_cons_zero, take_zero, count_nil, add_zero, hget, helse]
        · rw [getElem?_set_self (by omega)]
          rfl
        intro c hc
        rw [hset]
        rcases lt_trichotomy sym c with hlt | rfl | hlt
        · have := hapart sym (by simp) c (by simp [hc]) hlt
          rw [hcount, if_pos rfl] at this
          left
          omega
        · rw [if_pos rfl]
          left
          omega
        · have := hapart c (by simp [hc]) sym (by simp) hlt
          rw [hcount] at this
          right
          omega
      | succ u =>
        have := hat u (by simpa using hu)
        rw [hset] at this
        rw [getD_cons_succ, take_succ_cons, count_cons]
        rw [show size + u₀ + (u + 1) = size + (u₀ + 1) + u by omega, ← this]
        simp only [beq_iff_eq]
        congr 1
        omega
    · intro i hi
      have hi₀ := hi sym (by simp)
      rw [hcount, if_pos rfl] at hi₀
      rw [helse, getElem?_set_ne (by omega)]
      intro c hc
      have := hi c (by simp [hc])
      rw [hcount] at this
      rw [hset]
      by_cases hsc : sym = c
      · omega
      · rw [if_neg hsc] at this ⊢
        exact this

/-- Among the states of a symbol each number is taken. -/
theorem exists_state {table : List ℕ} {c j : ℕ} (h : j < table.count c) :
  ∃ u < table.length, table.getD u 0 = c ∧ (table.take u).count c = j
  := by
  induction table generalizing j with
  | nil => simp at h
  | cons a table ih =>
    by_cases hac : a = c
    · subst hac
      cases j with
      | zero => exact ⟨0, by simp, by simp, by simp⟩
      | succ j =>
        rw [count_cons_self] at h
        obtain ⟨u, hu, hget, hcount⟩ := @ih j (by omega)
        refine ⟨u + 1, by simpa using hu, hget, ?_⟩
        rw [take_succ_cons, count_cons_self, hcount]
    · rw [count_cons_of_ne hac] at h
      obtain ⟨u, hu, hget, hcount⟩ := ih h
      refine ⟨u + 1, by simpa using hu, hget, ?_⟩
      rw [take_succ_cons, count_cons_of_ne hac, hcount]

/-! ### The bits given up -/

section Bits

variable {log n x : ℕ} (hlog : 1 ≤ log) (hlog' : log ≤ 9)

include hlog hlog'

theorem two_pow_log_le :
  2 ≤ 2 ^ log ∧ 2 ^ log ≤ 512
  := ⟨le_trans (by norm_num) (Nat.pow_le_pow_right (by omega) hlog),
    Nat.pow_le_pow_right (by omega) hlog'⟩

/-- The transform of a symbol with `n` states. -/
theorem symbolTransform_eq {v : ℤ} (total : ℕ) (hv : -1 ≤ v) (hn : cells v = n) (hpos : 0 < n)
    (hle : n ≤ 2 ^ log) :
  ∃ maxBits, symbolTransform log total v = ⟨maxBits * 65536 - n * 2 ^ maxBits, total - n⟩
    ∧ 1 ≤ maxBits ∧ maxBits ≤ log ∧ 2 ^ log ≤ n * 2 ^ maxBits ∧ n * 2 ^ maxBits ≤ 2 * 2 ^ log
  := by
  obtain ⟨hL, hL'⟩ := two_pow_log_le hlog hlog'
  have hv₀ : v ≠ 0 := by
    rintro rfl
    simp [cells] at hn
    omega
  by_cases hone : v = -1 ∨ v = 1
  · have hn₁ : n = 1 := by
      rcases hone with rfl | rfl <;> simpa [cells] using hn.symm
    subst hn₁
    refine ⟨log, ?_, hlog, le_rfl, by omega, by omega⟩
    rw [symbolTransform, if_neg hv₀, if_pos hone, shiftLeft_eq,
      wrap_sub_of_le (by omega) (by omega)]
    simp
  have hn₂ : v = n := by
    rw [cells, if_neg (by omega)] at hn
    omega
  subst hn₂
  -- `n - 1` has `k` bits, so `n` shifted by the rest of the table's bits reaches its size
  obtain ⟨k, hk⟩ : ∃ k, (n - 1).size = k := ⟨_, rfl⟩
  have hk₁ : 1 ≤ k := by
    rw [← hk]
    exact lt_size.mpr (by rw [pow_zero]; omega)
  have hk₂ : k ≤ log := by
    rw [← hk]
    exact size_le.mpr (by omega)
  have hupper : n ≤ 2 ^ k := by
    have := lt_size_self (n - 1)
    rw [hk] at this
    omega
  have hlower : 2 ^ (k - 1) < n := by
    have : 2 ^ (k - 1) ≤ n - 1 := lt_size.mp (by omega)
    omega
  have hpow : 2 ^ k * 2 ^ (log + 1 - k) = 2 * 2 ^ log := by
    rw [← pow_add, ← pow_succ']
    congr 1
    omega
  have hpow' : 2 ^ (k - 1) * 2 ^ (log + 1 - k) = 2 ^ log := by
    rw [← pow_add]
    congr 1
    omega
  have hge := mul_le_mul_right (2 ^ (log + 1 - k)) hlower.le
  have hle' := mul_le_mul_right (2 ^ (log + 1 - k)) hupper
  rw [hpow'] at hge
  rw [hpow] at hle'
  refine ⟨log + 1 - k, ?_, by omega, by omega, hge, hle'⟩
  have htoNat : ((n : ℤ) - 1).toNat = n - 1 := by omega
  have hmax : wrap 32 ((log : ℤ) - ((k : ℤ) - 1)) = log + 1 - k := by
    have : (log : ℤ) - ((k : ℤ) - 1) = ((log + 1 - k : ℕ) : ℤ) := by omega
    rw [this, wrap_of_lt (by omega)]
  rw [symbolTransform, if_neg hv₀, if_neg hone]
  simp only [htoNat, hk, hmax, shiftLeft_eq, Int.toNat_natCast]
  rw [mod_eq_of_lt (by omega), wrap_sub_of_le (by omega) (by omega)]

/-- The bits that a state gives up leave a number of the symbol. -/
theorem exists_bits {v : ℤ} (total : ℕ) (hv : -1 ≤ v) (hn : cells v = n) (hpos : 0 < n)
    (hle : n ≤ 2 ^ log) (hx : 2 ^ log ≤ x) (hx' : x < 2 ^ (log + 1)) :
  ∃ nb, ((x + (symbolTransform log total v).deltaNbBits) % 2 ^ 32) >>> 16 = nb ∧ nb ≤ log
    ∧ n ≤ x / 2 ^ nb ∧ x / 2 ^ nb < 2 * n
  := by
  obtain ⟨hL, hL'⟩ := two_pow_log_le hlog hlog'
  obtain ⟨maxBits, htt, hmax, hmax', hge, hle'⟩ := symbolTransform_eq hlog hlog' total hv hn
    hpos hle
  have hx₂ : x < 2 * 2 ^ log := by rwa [pow_succ'] at hx'
  rw [htt]
  simp only
  by_cases hM : n * 2 ^ maxBits ≤ x
  · refine ⟨maxBits, ?_, hmax', ?_, ?_⟩
    · omega
    · rwa [le_div_iff_mul_le (by positivity)]
    · rw [div_lt_iff_lt_mul (by positivity)]
      nlinarith
  obtain ⟨m, rfl⟩ : ∃ m, maxBits = m + 1 := ⟨maxBits - 1, by omega⟩
  rw [pow_succ] at hge hle' hM ⊢
  refine ⟨m, ?_, by omega, ?_, ?_⟩
  · omega
  · rw [le_div_iff_mul_le (by positivity)]
    nlinarith
  · rw [div_lt_iff_lt_mul (by positivity)]
    nlinarith

end Bits

/-! ### Encoding against the decoder's table -/

/-- The values a state of an encoding table takes: those of its second half of `2 ^ (log + 1)`
numbers, or zero where there is but one state. -/
def Seated (log x : ℕ) : Prop := if log = 0 then x = 0 else 2 ^ log ≤ x ∧ x < 2 ^ (log + 1)

/-- What is encoded with `ct` for the symbols in use is what a decoder reads with `t`: the decoder
is in the state of the low bits, finds the symbol there, and from the bits that the encoder gave up
gets back the state the encoder was in. -/
structure CTable.Mirrors (ct : CTable) (t : FseDecTable) (used : ℕ → Prop) : Prop where
  log_eq : t.tableLog = ct.tableLog
  log_le : ct.tableLog ≤ 9
  init : ∀ c, used c → ∃ x, FseState.init ct c = .ok ⟨x, ct⟩ ∧ Seated ct.tableLog x
    ∧ (t.live.getD (x % 2 ^ ct.tableLog) default).symbol = c
  encode : ∀ c, used c → ∀ x, Seated ct.tableLog x → ∃ y nb newState,
    (∀ bw, FseState.encode ⟨x, ct⟩ bw c = .ok (⟨y, ct⟩, bw.addBits x nb))
    ∧ Seated ct.tableLog y ∧ nb ≤ ct.tableLog
    ∧ t.live.getD (y % 2 ^ ct.tableLog) default = ⟨newState, c, nb⟩
    ∧ newState + x % 2 ^ nb = x % 2 ^ ct.tableLog

section Fill

variable {norm : List ℤ} {log : ℕ}

theorem lt_length_of_cells {c : ℕ} (h : 0 < cells (norm.getD c 0)) :
  c < norm.length
  := by
  by_contra hc
  rw [getD_eq_default _ _ (by omega)] at h
  simp [cells] at h

/-- The states entered for a symbol, by their numbers. -/
def StatesOf (norm : List ℤ) (log : ℕ) (es : List FseDecEntry) (states : List ℕ) : Prop :=
  ∀ c j, j < cells (norm.getD c 0) → ∃ u < 2 ^ log, states[startOf norm c + j]? = some (2 ^ log + u)
    ∧ es.getD u default = stateEntry log c (cells (norm.getD c 0) + j)

theorem placeStates_statesOf (hfits : Fits norm log) {table states : List ℕ}
    {es : List FseDecEntry} (hlength : table.length = 2 ^ log)
    (hcount : ∀ c, table.count c = cells (norm.getD c 0))
    (hentry : ∀ u < 2 ^ log, es.getD u default
      = stateEntry log (table.getD u 0) (stateNumber norm table u))
    (hstates : states.length = 2 ^ log) :
  ∃ states', placeStates (2 ^ log) 0 table (cumulFrom 0 norm) states = .ok states'
    ∧ states'.length = 2 ^ log ∧ StatesOf norm log es states'
  := by
  have hmem : ∀ c ∈ table, c < norm.length := by
    intro c hc
    apply lt_length_of_cells
    rw [← hcount]
    exact count_pos_iff.mpr hc
  have hcumul : ∀ c, c < norm.length → (cumulFrom 0 norm).getD c 0 = startOf norm c := by
    intro c hc
    rw [getD_cumulFrom 0 hc, zero_add]
  obtain ⟨states', hplace, hlen, hat, -⟩ := @placeStates_eq (2 ^ log) 0 table (cumulFrom 0 norm)
    states
    (fun c hc => by
      rw [length_cumulFrom]
      exact hmem c hc)
    (fun c hc => by
      have := startOf_add_le (hmem c hc) (hmem c hc)
      rw [startOf_length, hfits.sum] at this
      rw [hcumul c (hmem c hc), hcount, hstates]
      exact this)
    (fun c hc c' hc' hlt => by
      rw [hcumul c (hmem c hc), hcumul c' (hmem c' hc'), hcount]
      exact startOf_add_le hlt (hmem c hc))
  refine ⟨states', hplace, by rw [hlen, hstates], ?_⟩
  intro c j hj
  rw [← hcount] at hj
  obtain ⟨u, hu, hget, hnum⟩ := exists_state hj
  refine ⟨u, by omega, ?_, ?_⟩
  · have := hat u hu
    rw [hget, hnum, hcumul c (lt_length_of_cells (by rw [← hcount]; omega))] at this
    simpa using this
  · rw [hentry u (by omega), stateNumber, hget, hnum]

variable {es : List FseDecEntry} {ct : CTable} (hfits : Fits norm log) (hlog : 4 ≤ log)
  (hlog' : log ≤ 9) (hct : ct.symbolTT = symbolTransforms log 0 norm)
  (hstates : StatesOf norm log es ct.stateTable)

include hfits in
theorem cells_le (c : ℕ) :
  cells (norm.getD c 0) ≤ 2 ^ log
  := by
  by_cases hc : c < norm.length
  · have := startOf_add_le hc hc
    rw [startOf_length, hfits.sum] at this
    omega
  · rw [getD_eq_default _ _ (by omega)]
    simp [cells]

include hfits in
theorem getD_ge (c : ℕ) :
  -1 ≤ norm.getD c 0
  := by
  by_cases hc : c < norm.length
  · rw [getD_eq_getElem _ _ hc]
    exact hfits.ge _ (getElem_mem hc)
  · rw [getD_eq_default _ _ (by omega)]
    omega

include hct in
theorem idx_symbolTT {c : ℕ} (hc : 0 < cells (norm.getD c 0)) :
  idx ct.symbolTT c = (.ok (symbolTransform log (startOf norm c) (norm.getD c 0))
    : Go Err SymbolTransform)
  := by
  apply idx_eq_ok
  rw [hct, getElem?_symbolTransforms log 0 (lt_length_of_cells hc), zero_add]

include hstates in
/-- The state with the number `n` of a symbol. -/
theorem stateAt_eq {c n : ℕ} (hn : cells (norm.getD c 0) ≤ n)
    (hn' : n < 2 * cells (norm.getD c 0)) :
  ∃ u < 2 ^ log, ct.stateAt ((n : ℤ) + (startOf norm c - cells (norm.getD c 0))) = .ok (2 ^ log + u)
    ∧ es.getD u default = stateEntry log c n
  := by
  obtain ⟨u, hu, hget, hentry⟩ := hstates c (n - cells (norm.getD c 0)) (by omega)
  refine ⟨u, hu, ?_, ?_⟩
  · have hidx : ((n : ℤ) + (startOf norm c - cells (norm.getD c 0))).toNat
        = startOf norm c + (n - cells (norm.getD c 0)) := by omega
    rw [CTable.stateAt, if_neg (by omega), hidx]
    exact idx_eq_ok hget
  · rw [hentry]
    congr 1
    omega

/-- The entry of what is left of a state has the bits that were given up. -/
theorem stateEntry_of_bits {x nb c : ℕ} (hnb : nb ≤ log) (hx : 2 ^ log ≤ x)
    (hx' : x < 2 ^ (log + 1)) :
  stateEntry log c (x / 2 ^ nb) = ⟨x / 2 ^ nb * 2 ^ nb - 2 ^ log, c, nb⟩
    ∧ x / 2 ^ nb * 2 ^ nb - 2 ^ log + x % 2 ^ nb = x % 2 ^ log
  := by
  have hsize : (x / 2 ^ nb).size = log + 1 - nb := by
    apply le_antisymm
    · rw [Nat.size_le, Nat.div_lt_iff_lt_mul (by positivity), ← pow_add,
        Nat.sub_add_cancel (by omega)]
      exact hx'
    · have : log - nb < (x / 2 ^ nb).size := by
        rw [Nat.lt_size, Nat.le_div_iff_mul_le (by positivity), ← pow_add, Nat.sub_add_cancel hnb]
        exact hx
      omega
  have hshift : 2 ^ log ≤ x / 2 ^ nb * 2 ^ nb := by
    have : 2 ^ log = 2 ^ (log - nb) * 2 ^ nb := by
      rw [← pow_add, Nat.sub_add_cancel hnb]
    rw [this]
    apply Nat.mul_le_mul_right
    rw [Nat.le_div_iff_mul_le (by positivity), ← this]
    exact hx
  constructor
  · rw [stateEntry, hsize, show log + 1 - (log + 1 - nb) = nb by omega]
  have hdiv := Nat.div_add_mod' x (2 ^ nb)
  have hmod : x % 2 ^ log = x - 2 ^ log := by
    rw [Nat.mod_eq_sub_mod hx, Nat.mod_eq_of_lt]
    omega
  omega

include hfits hlog hlog' hct hstates

/-- A table with the states entered for a distribution mirrors the one the decoder builds. -/
theorem mirrors_of_statesOf (hlogct : ct.tableLog = log) {t : FseDecTable} (ht : t.tableLog = log)
    (hlive : t.live = es) :
  ct.Mirrors t (fun c => 0 < cells (norm.getD c 0))
  := by
  obtain ⟨hL, hL'⟩ := two_pow_log_le (by omega) hlog'
  have hseated : ∀ u < 2 ^ log, Seated ct.tableLog (2 ^ log + u)
      ∧ (2 ^ log + u) % 2 ^ ct.tableLog = u := by
    intro u hu
    rw [hlogct, Seated, if_neg (by omega), pow_succ]
    refine ⟨⟨by omega, by omega⟩, ?_⟩
    rw [add_mod_left, mod_eq_of_lt hu]
  refine ⟨by rw [ht, hlogct], by omega, ?_, ?_⟩
  · intro c hc
    obtain ⟨maxBits, htt, hmax, hmax', hge, hle⟩ := symbolTransform_eq
      (by omega) hlog' (startOf norm c) (getD_ge hfits c) rfl hc
      (cells_le hfits c)
    obtain ⟨u, hu, hat, hentry⟩ := stateAt_eq hstates le_rfl
      (show cells (norm.getD c 0) < 2 * cells (norm.getD c 0) by omega)
    refine ⟨2 ^ log + u, ?_, (hseated u hu).1, ?_⟩
    · have hnb : (maxBits * 65536 - cells (norm.getD c 0) * 2 ^ maxBits + 2 ^ 15) % 2 ^ 32 / 2 ^ 16
          = maxBits := by
        rw [mod_eq_of_lt (by omega)]
        omega
      have him : int32 (wrap 32 (((maxBits * 2 ^ 16 : ℕ) : ℤ)
          - (maxBits * 65536 - cells (norm.getD c 0) * 2 ^ maxBits : ℕ)))
          = (cells (norm.getD c 0) * 2 ^ maxBits : ℕ) := by
        rw [wrap_sub_of_le (by omega) (by omega), int32, if_pos (by omega)]
        congr 1
        omega
      have hdiv : ((cells (norm.getD c 0) * 2 ^ maxBits : ℕ) : ℤ) / 2 ^ maxBits
          = cells (norm.getD c 0) := by
        push_cast
        exact Int.mul_ediv_cancel _ (by positivity)
      rw [FseState.init, idx_symbolTT hct hc, ok_bind, htt]
      simp only [shiftRight_eq_div_pow, shiftLeft_eq, hnb, him, hdiv]
      rw [hat, ok_bind]
    · rw [(hseated u hu).2, hlive, hentry]
      rfl
  · intro c hc x hx
    rw [hlogct, Seated, if_neg (by omega)] at hx
    obtain ⟨nb, hnb, hnb', hge, hlt⟩ := exists_bits (by omega) hlog'
      (startOf norm c) (getD_ge hfits c) rfl hc (cells_le hfits c) hx.1 hx.2
    obtain ⟨maxBits, htt, -⟩ := symbolTransform_eq (by omega) hlog'
      (startOf norm c) (getD_ge hfits c) rfl hc (cells_le hfits c)
    obtain ⟨u, hu, hat, hentry⟩ := stateAt_eq hstates hge hlt
    obtain ⟨hstate, hback⟩ := stateEntry_of_bits hnb' hx.1 hx.2
    refine ⟨2 ^ log + u, nb, x / 2 ^ nb * 2 ^ nb - 2 ^ log, ?_, (hseated u hu).1, by omega, ?_, ?_⟩
    · intro bw
      have hand : nb &&& 15 = nb := by
        rw [show (15 : ℕ) = 2 ^ 4 - 1 from rfl, and_two_pow_sub_one_eq_mod, mod_eq_of_lt (by omega)]
      have hfind : (symbolTransform log (startOf norm c) (norm.getD c 0)).deltaFindState
          = startOf norm c - cells (norm.getD c 0) := by rw [htt]
      rw [FseState.encode, idx_symbolTT hct hc, ok_bind]
      simp only [hnb, hand, hfind, shiftRight_eq_div_pow]
      rw [hat, ok_bind, mod_eq_of_lt (by omega)]
    · rw [(hseated u hu).2, hlive, hentry, hstate]
    · rw [hlogct, hback]

end Fill

/-- A distribution that fits is made into an encoding table that mirrors the decoder's, whatever the
storage of either held before. -/
theorem fillCTable_mirrors {log : ℕ} (hfits : Fits norm log) (hlog : 4 ≤ log) (hlog' : log ≤ 9)
    (hlen : norm.length ≤ maxFSESymbols) {states : List ℕ} (hstates : states.length = 2 ^ log) :
  ∃ ct, fillCTable states norm log = .ok ct ∧ ct.stateTable.length = 2 ^ log
    ∧ ∀ t : FseDecTable, ∃ t', t.build norm log = .ok t'
      ∧ ct.Mirrors t' (fun c => 0 < cells (norm.getD c 0))
  := by
  obtain ⟨table, es, htable, hlength, hcount, hes, hentry, hbuild⟩ :=
    FseDecTable.build_spec hfits hlog hlog' hlen
  obtain ⟨states', hplace, hlen', hof⟩ :=
    placeStates_statesOf hfits hlength hcount hentry hstates
  obtain ⟨hL, hL'⟩ := two_pow_log_le (by omega) hlog'
  refine ⟨⟨states', symbolTransforms log 0 norm, log⟩, ?_, hlen', ?_⟩
  · rw [fillCTable, if_neg (by omega), htable, ok_bind]
    simp only
    rw [if_neg (by omega), hplace, ok_bind, if_neg (by simp [hfits.sum])]
  · intro t
    obtain ⟨t', ht', hlogt, hlive⟩ := hbuild t
    exact ⟨t', ht', mirrors_of_statesOf hfits hlog hlog' rfl hof rfl hlogt hlive⟩

/-! ### One coder -/

/-- The symbols from the last to the first: the state is seated for the last of them and gives up
bits for every other.  The writer is flushed before each, as it is before each sequence. -/
def encodeSymbols (ct : CTable) (dst : List UInt8) : List ℕ → Go Err (FseState × BitWriter)
  | [] => .error .panic
  | [c] => do
    let s ← FseState.init ct c
    .ok (s, BitWriter.new dst)
  | c :: syms => do
    let (s, bw) ← encodeSymbols ct dst syms
    s.encode bw.flush32 c

/-- The stream of the symbols: the bits given up, the final state, and the end marker. -/
def encodeStream (ct : CTable) (dst : List UInt8) (syms : List ℕ) : Go Err (List UInt8) := do
  let (s, bw) ← encodeSymbols ct dst syms
  .ok (s.flush bw).close

/-- Reads `n` symbols from the state `x`; the state does not advance after the last. -/
def decodeSymbols (reload : Bool) (t : FseDecTable) :
    ℕ → BackReader → ℕ → Go Err (List ℕ × BackReader)
  | 0, br, _ => .ok ([], br)
  | n + 1, br, x => do
    let e ← t.entry x
    if n = 0 then
      .ok ([e.symbol], br)
    else do
      let br ← br.fill reload
      let (v, br) := br.bits e.nbBits
      let (syms, br) ← decodeSymbols reload t n br (e.newState + v)
      .ok (e.symbol :: syms, br)

/-- Reads `n` symbols of a stream, and whether they end where the stream begins. -/
def decodeStream (reload : Bool) (t : FseDecTable) (n : ℕ) (stream : List UInt8) :
    Go Err (List ℕ × Bool) := do
  let br ← BackReader.init reload stream
  let (x, br) := br.bits t.tableLog
  let (syms, br) ← decodeSymbols reload t n br x
  let br ← br.fill reload
  .ok (syms, br.finished)

section OneCoder

open BitStack BackReader

variable {ct : CTable} {t : FseDecTable} {used : ℕ → Prop} (h : ct.Mirrors t used) {syms : List ℕ}

include h

/-- The decoder's entry in the state of the low bits. -/
theorem CTable.Mirrors.entry_eq (x : ℕ) :
  t.entry (x % 2 ^ ct.tableLog) = .ok (t.live.getD (x % 2 ^ ct.tableLog) default)
  := by
  have hlt : x % 2 ^ ct.tableLog < 2 ^ ct.tableLog := mod_lt _ (by positivity)
  have hle : 2 ^ ct.tableLog ≤ 2 ^ 9 := Nat.pow_le_pow_right (by omega) h.log_le
  have hlive : x % 2 ^ ct.tableLog < t.live.length := by
    rw [FseDecTable.live, h.log_eq, length_take, Vector.length_toList]
    omega
  rw [FseDecTable.entry_eq, h.log_eq, if_pos hlt, idx_of_lt hlive, getD_eq_getElem _ _ hlive]

/-- What the encoder leaves on the stream, the decoder takes off it, down to nothing. -/
theorem CTable.Mirrors.encodeSymbols_eq (reload : Bool) (dst : List UInt8) (hne : syms ≠ [])
    (hused : ∀ c ∈ syms, used c) :
  ∃ x bw S, encodeSymbols ct dst syms = .ok (⟨x, ct⟩, bw) ∧ Seated ct.tableLog x
    ∧ bw.Wrote dst (num S) (width S) ∧ bw.nBits < 64 ∧ BitStack.Fits S
    ∧ ∀ br : BackReader, br.Stands S → br.Within 71 → ∃ br',
      decodeSymbols reload t syms.length br (x % 2 ^ ct.tableLog) = .ok (syms, br')
        ∧ br'.Stands [] ∧ br'.Within 71
  := by
  induction syms with
  | nil => exact absurd rfl hne
  | cons c syms ih =>
    cases syms with
    | nil =>
      obtain ⟨x, hinit, hseated, hsymbol⟩ := h.init c (hused c (by simp))
      refine ⟨x, BitWriter.new dst, [], ?_, hseated, BitWriter.wrote_new dst, zero_lt_succ _,
        .nil, fun br hs hw => ⟨br, ?_, hs, hw⟩⟩
      · rw [encodeSymbols, hinit, ok_bind]
      · rw [length_singleton, decodeSymbols, h.entry_eq, ok_bind, if_pos rfl, hsymbol]
    | cons c' syms =>
      obtain ⟨x, bw, S, hencode, hseated, hwrote, hroom, hfits, hdecode⟩ :=
        ih (by simp) fun d hd => hused d (by simp [hd])
      obtain ⟨y, nb, newState, hstep, hseated', hnb, hentry, hback⟩ :=
        h.encode c (hused c (by simp)) x hseated
      have hlog := h.log_le
      obtain ⟨hflushed, hbits⟩ := hwrote.flush hroom
      obtain ⟨hpushed, hbits'⟩ := hflushed.push x (n := nb) (by omega) (by omega)
      refine ⟨y, bw.flush32.put x nb, (x % 2 ^ nb, nb) :: S, ?_, hseated', hpushed, by omega,
        .cons (mod_lt _ (by positivity)) hfits, fun br hs hw => ?_⟩
      · rw [encodeSymbols, hencode]
        · exact hstep bw.flush32
        · simp
      obtain ⟨br₁, hfill, hs₁, hw₁⟩ := hs.fill reload hw
      have hpeek := hs₁.peek_eq (by omega) (hw₁.mono (by omega))
      obtain ⟨br₂, hrest, hs₂, hw₂⟩ :=
        hdecode (br₁.skip nb) hs₁.skip ((hw₁.skip nb).mono (by omega))
      refine ⟨br₂, ?_, hs₂, hw₂⟩
      rw [length_cons, decodeSymbols, h.entry_eq, ok_bind, hentry, if_neg (by simp), hfill]
      simp only [BackReader.bits, hpeek, hback, hrest, ok_bind]

/-- A stream of symbols is read back whole. -/
theorem CTable.Mirrors.decodeStream_eq (reload : Bool) (dst : List UInt8) (hne : syms ≠ [])
    (hused : ∀ c ∈ syms, used c) :
  ∃ stream, encodeStream ct dst syms = .ok (dst ++ stream)
    ∧ decodeStream reload t syms.length stream = .ok (syms, true)
  := by
  obtain ⟨x, bw, S, hencode, -, hwrote, hroom, hfits, hdecode⟩ :=
    h.encodeSymbols_eq reload dst hne hused
  have hlog := h.log_le
  obtain ⟨hflushed, hbits⟩ := hwrote.flush hroom
  obtain ⟨hpushed, hbits'⟩ := hflushed.push x (n := ct.tableLog) (by omega) (by omega)
  obtain ⟨stream, hclose, hnum, hlen⟩ := hpushed.close (by omega)
  have hfits' : BitStack.Fits ((x % 2 ^ ct.tableLog, ct.tableLog) :: S) :=
    .cons (mod_lt _ (by positivity)) hfits
  obtain ⟨br, hinit, hs, hw, -⟩ := init_stands reload hfits' hnum hlen
  have hpeek := hs.peek_eq (by omega) (hw.mono (by omega))
  obtain ⟨br₁, hsyms, hs₁, hw₁⟩ :=
    hdecode (br.skip ct.tableLog) hs.skip ((hw.skip ct.tableLog).mono (by omega))
  obtain ⟨br₂, hfill, hs₂, hw₂⟩ := hs₁.fill reload hw₁
  refine ⟨stream, ?_, ?_⟩
  · rw [encodeStream, hencode, ← hclose]
    rfl
  · rw [decodeStream, hinit]
    simp only [BackReader.bits, h.log_eq, hpeek, hsyms, hfill, ok_bind,
      (finished_iff hw₂).mpr hs₂.left_eq]

end OneCoder

/-- Symbols that have a place in a distribution are encoded with the table that `buildCTable` makes
of it, and read back exactly, to the beginning of the stream, with the table that `build` makes of
it. -/
theorem fse_roundTrip {norm : List ℤ} {log : ℕ} (hfits : Fits norm log) (hlog : 5 ≤ log)
    (hlog' : log ≤ 9) (hlen : norm.length ≤ maxFSESymbols) (reload : Bool) (t : FseDecTable)
    (dst : List UInt8) {syms : List ℕ} (hne : syms ≠ [])
    (hsyms : ∀ c ∈ syms, norm.getD c 0 ≠ 0) :
  ∃ ct t' stream, buildCTable norm log = .ok ct ∧ t.build norm log = .ok t'
    ∧ encodeStream ct dst syms = .ok (dst ++ stream)
    ∧ decodeStream reload t' syms.length stream = .ok (syms, true)
  := by
  obtain ⟨ct, hct, -, hmirrors⟩ :=
    fillCTable_mirrors hfits (by omega) hlog' hlen (length_replicate)
  obtain ⟨t', ht', hmirror⟩ := hmirrors t
  have hused : ∀ c ∈ syms, 0 < cells (norm.getD c 0) := by
    intro c hc
    have hge := getD_ge hfits c
    have hc' := hsyms c hc
    rw [cells]
    split
    · exact one_pos
    · omega
  obtain ⟨stream, hencode, hdecode⟩ := hmirror.decodeStream_eq reload dst hne hused
  exact ⟨ct, t', stream, hct, ht', hencode, hdecode⟩

/-- A symbol of probability 31/32 and one of probability -1. -/
theorem fse_roundTrip_two :
  let t : FseDecTable := ⟨Vector.replicate 512 default, 0⟩
  Fits [31, -1] 5 ∧ ∃ ct t' stream, buildCTable [31, -1] 5 = .ok ct ∧ t.build [31, -1] 5 = .ok t'
    ∧ encodeStream ct [] [0, 1, 0] = .ok ([] ++ stream)
    ∧ decodeStream true t' 3 stream = .ok ([0, 1, 0], true)
  := ⟨⟨by decide, by decide⟩, fse_roundTrip ⟨by decide, by decide⟩ (by decide) (by decide)
    (by decide) true _ [] (by decide) (by decide)⟩

end Zstd
