import TinyGoDriver.Zstd.FseSpread

/-!
# FSE decoding tables

`FseDecTable` is a decoding table in an array of 512 entries, of which the first
`2 ^ tableLog` are in use; the rest is what earlier tables left.  `FseDecTable.build`
fills the table from a distribution.  Each occurrence of a symbol of `c` states takes the
next of the numbers `c, …, 2 * c - 1`, and the number determines the entry, as
`stateEntry` says.

`build_spec` describes the table built, and `FseDecTable.Wf` is what decoding relies on:
from every state in use, every state the entry leads to is in use again.
-/

namespace Zstd

open GoRt
open List hiding Vector

/-- One state of a decoding table: the symbol it stands for, and the next state, which is
`newState` plus the next `nbBits` bits of the stream. -/
structure FseDecEntry where
  newState : ℕ
  symbol : ℕ
  nbBits : ℕ
  deriving DecidableEq, Repr, Inhabited

/-- A decoding table, in storage for any the format allows. -/
structure FseDecTable where
  entries : Vector FseDecEntry 512
  tableLog : ℕ
  deriving Repr

/-- The largest alphabet any FSE table describes. -/
def maxFSESymbols : ℕ := 53

/-- The loop of `build` over the states: `next` holds the number the next occurrence of
each symbol takes. -/
def buildEntries (tableLog : ℕ) : List ℕ → List ℕ → Go Err (List FseDecEntry)
  | [], _ => .ok []
  | sym :: syms, next => do
    let n ← idx next sym
    let next ← setAt next sym (wrap 16 (n + 1))
    let nb := wrap 8 ((tableLog : ℤ) - ((n.size : ℤ) - 1))
    let entries ← buildEntries tableLog syms next
    .ok (⟨wrap 16 ((n <<< nb : ℕ) - (2 ^ tableLog : ℕ)), sym, nb⟩ :: entries)

namespace FseDecTable

/-- `build`: fills `t` from a normalised distribution. -/
def build (t : FseDecTable) (norm : List ℤ) (tableLog : ℕ) : Go Err FseDecTable :=
  if 512 < 2 ^ tableLog then
    .error .panic
  else do
    match ← spreadSymbols norm tableLog with
    | none => .error (.fail .corruptTable)
    | some tableSymbol =>
      if maxFSESymbols < norm.length then
        .error .panic
      else do
        let new ← buildEntries tableLog tableSymbol (norm.map cells)
        let entries ← writeFrom t.entries 0 new
        .ok ⟨entries, tableLog⟩

/-- `rle`: makes `t` a one-state table that yields `symbol` and reads nothing. -/
def rle (t : FseDecTable) (symbol : ℕ) : FseDecTable :=
  ⟨t.entries.set 0 ⟨0, symbol, 0⟩, 0⟩

/-- `t.entries[state]`, for a state of the table. -/
def entry (t : FseDecTable) (state : ℕ) : Go Err FseDecEntry :=
  if state < 2 ^ t.tableLog then idx t.entries.toList state else .error .stray

/-- The entries in use. -/
def live (t : FseDecTable) : List FseDecEntry := t.entries.toList.take (2 ^ t.tableLog)

/-- Tables that agree on what is in use. -/
def Agree (t u : FseDecTable) : Prop := t.tableLog = u.tableLog ∧ t.live = u.live

/-- The symbols in use are at most `maxSymbol`, and every state an entry in use leads to
is in use. -/
structure Wf (t : FseDecTable) (maxSymbol : ℕ) : Prop where
  log_le : t.tableLog ≤ 9
  symbol_le : ∀ e ∈ t.live, e.symbol ≤ maxSymbol
  next_le : ∀ e ∈ t.live, e.newState + 2 ^ e.nbBits ≤ 2 ^ t.tableLog

end FseDecTable

/-! ### The table built -/

/-- The entry of the state that takes the number `n` of the symbol `sym`. -/
def stateEntry (tableLog sym n : ℕ) : FseDecEntry :=
  ⟨n * 2 ^ (tableLog + 1 - n.size) - 2 ^ tableLog, sym, tableLog + 1 - n.size⟩

/-- The number that the state `u` takes among those of its symbol. -/
def stateNumber (norm : List ℤ) (table : List ℕ) (u : ℕ) : ℕ :=
  cells (norm.getD (table.getD u 0) 0) + (table.take u).count (table.getD u 0)

section StateNumbers

variable {log n : ℕ} (hn : 0 < n) (hlt : n < 2 ^ (log + 1))

include hn hlt

theorem size_bounds :
  0 < n.size ∧ n.size ≤ log + 1
  := ⟨Nat.lt_size.mpr (by rw [pow_zero]; exact hn), Nat.size_le.mpr hlt⟩

/-- Shifted up by its bits, the number of a state reaches the size of the table. -/
theorem two_pow_le_shifted :
  2 ^ log ≤ n * 2 ^ (log + 1 - n.size)
  := by
  obtain ⟨h₁, h₂⟩ := size_bounds hn hlt
  have hn' : 2 ^ (n.size - 1) ≤ n := Nat.lt_size.mp (by omega)
  calc
    2 ^ log = 2 ^ (n.size - 1) * 2 ^ (log + 1 - n.size) := by
      rw [← pow_add]
      congr 1
      omega
    _ ≤ n * 2 ^ (log + 1 - n.size) := Nat.mul_le_mul_right _ hn'

/-- Shifted up by its bits, the number of a state stays below twice the size of the table,
whatever the bits below it are. -/
theorem shifted_le_two_pow :
  (n + 1) * 2 ^ (log + 1 - n.size) ≤ 2 ^ (log + 1)
  := by
  obtain ⟨h₁, h₂⟩ := size_bounds hn hlt
  have hn' : n + 1 ≤ 2 ^ n.size := Nat.lt_size_self n
  calc
    (n + 1) * 2 ^ (log + 1 - n.size) ≤ 2 ^ n.size * 2 ^ (log + 1 - n.size) :=
      Nat.mul_le_mul_right _ hn'
    _ = 2 ^ (log + 1) := by
      rw [← pow_add]
      congr 1
      omega

/-- The entry a state leads to a state in use. -/
theorem stateEntry_next_le (sym : ℕ) :
  (stateEntry log sym n).newState + 2 ^ (stateEntry log sym n).nbBits ≤ 2 ^ log
  := by
  have h₁ := two_pow_le_shifted hn hlt
  have h₂ := shifted_le_two_pow hn hlt
  rw [Nat.succ_mul] at h₂
  simp only [stateEntry]
  omega

/-- The arithmetic of `build` does not wrap. -/
theorem stateEntry_eq (hlog : log ≤ 9) (sym : ℕ) :
  (⟨wrap 16 ((n <<< wrap 8 ((log : ℤ) - ((n.size : ℤ) - 1)) : ℕ) - (2 ^ log : ℕ)), sym,
    wrap 8 ((log : ℤ) - ((n.size : ℤ) - 1))⟩ : FseDecEntry) = stateEntry log sym n
  := by
  obtain ⟨h₁, h₂⟩ := size_bounds hn hlt
  have hnb : wrap 8 ((log : ℤ) - ((n.size : ℤ) - 1)) = log + 1 - n.size := by
    have : (log : ℤ) - ((n.size : ℤ) - 1) = ((log + 1 - n.size : ℕ) : ℤ) := by omega
    rw [this, wrap_of_lt (by omega)]
  have h₃ := two_pow_le_shifted hn hlt
  have h₄ := shifted_le_two_pow hn hlt
  have hpow : 2 ^ (log + 1) ≤ 2 ^ 10 := Nat.pow_le_pow_right (by omega) (by omega)
  have h₅ : n * 2 ^ (log + 1 - n.size) - 2 ^ log < 2 ^ 16 := by
    apply lt_of_le_of_lt (Nat.sub_le _ _)
    apply lt_of_le_of_lt (le_trans (Nat.mul_le_mul_right _ (Nat.le_succ n)) h₄)
    apply lt_of_le_of_lt hpow
    norm_num
  rw [hnb, Nat.shiftLeft_eq, wrap_sub_of_le h₃ h₅]
  rfl

end StateNumbers

/-- The entries of `build`: each state has the entry of its number, where `next` holds the
number of the first state of each symbol. -/
theorem buildEntries_eq {log : ℕ} (hlog : log ≤ 9) (syms next : List ℕ)
    (hmem : ∀ c ∈ syms, c < next.length)
    (hpos : ∀ c ∈ syms, 0 < next.getD c 0)
    (hle : ∀ c ∈ syms, next.getD c 0 + syms.count c ≤ 2 ^ (log + 1)) :
  ∃ es, buildEntries log syms next = .ok es ∧ es.length = syms.length
    ∧ ∀ u < syms.length, es.getD u default
        = stateEntry log (syms.getD u 0)
            (next.getD (syms.getD u 0) 0 + (syms.take u).count (syms.getD u 0))
  := by
  induction syms generalizing next with
  | nil =>
    refine ⟨[], rfl, rfl, ?_⟩
    intro u hu
    cases hu
  | cons sym syms ih =>
    have hsym := hmem sym (by simp)
    have hpow : 2 ^ (log + 1) ≤ 2 ^ 10 := Nat.pow_le_pow_right (by omega) (by omega)
    have hn := hle sym (by simp)
    have hn₀ := hpos sym (by simp)
    rw [count_cons_self] at hn
    have hget : next.getD sym 0 = next[sym] := by simp [getD, hsym]
    rw [hget] at hn hn₀
    have hwrap : wrap 16 ((next[sym] : ℤ) + 1) = next[sym] + 1 := by
      have : ((next[sym] : ℤ) + 1) = ((next[sym] + 1 : ℕ) : ℤ) := by push_cast; rfl
      rw [this, wrap_of_lt (by omega)]
    -- the next occurrence of `sym` takes the next number, the other symbols keep theirs
    have hset : ∀ c, (next.set sym (next[sym] + 1)).getD c 0
        = next.getD c 0 + if sym = c then 1 else 0 := by
      intro c
      by_cases hc : sym = c
      · subst hc
        simp [hsym]
      · simp [hc]
    obtain ⟨es, hes, hlen, hentry⟩ := ih (next.set sym (next[sym] + 1))
      (fun c hc => by
        rw [length_set]
        exact hmem c (by simp [hc]))
      (fun c hc => by
        rw [hset]
        have := hpos c (by simp [hc])
        omega)
      (fun c hc => by
        rw [hset]
        have := hle c (by simp [hc])
        rw [count_cons] at this
        simp only [beq_iff_eq] at this
        omega)
    rw [buildEntries, idx_of_lt hsym, ok_bind, hwrap, setAt_of_lt _ _ hsym]
    simp only [hes, ok_bind, stateEntry_eq hn₀ (by omega) hlog]
    refine ⟨_, rfl, by simp [hlen], ?_⟩
    intro u hu
    cases u with
    | zero => simp [hsym]
    | succ u =>
      have := hentry u (by simpa using hu)
      rw [hset] at this
      simp only [getD_cons_succ, take_succ_cons, count_cons, this, beq_iff_eq]
      congr 1
      omega

namespace FseDecTable

variable {norm : List ℤ} {log : ℕ} {t u : FseDecTable}

/-- A distribution that fits its table is built into a table whose states have the entries
of their numbers, whatever the array held before. -/
theorem build_spec (hfits : Fits norm log) (hlog : 4 ≤ log) (hlog' : log ≤ 9)
    (hlen : norm.length ≤ maxFSESymbols) :
  ∃ (table : List ℕ) (es : List FseDecEntry),
    spreadSymbols norm log = .ok (some table) ∧ table.length = 2 ^ log
    ∧ (∀ c, table.count c = cells (norm.getD c 0))
    ∧ es.length = 2 ^ log
    ∧ (∀ u < 2 ^ log, es.getD u default
        = stateEntry log (table.getD u 0) (stateNumber norm table u))
    ∧ ∀ t : FseDecTable, ∃ t', t.build norm log = .ok t' ∧ t'.tableLog = log ∧ t'.live = es
  := by
  obtain ⟨table, htable, hlength, hperm⟩ := spreadSymbols_spec hfits hlog (by omega)
  have hcount : ∀ c, table.count c = cells (norm.getD c 0) := by
    intro c
    rw [hperm.count_eq, count_symbols]
    simp
  have hmem : ∀ c ∈ table, c < norm.length := by
    intro c hc
    have := mem_symbols_lt (hperm.subset hc)
    omega
  have hnext : ∀ c, (norm.map cells).getD c 0 = cells (norm.getD c 0) := by
    intro c
    simp only [getD, getElem?_map]
    cases norm[c]? with
    | none => rfl
    | some v => rfl
  have hle : ∀ c, table.count c ≤ 2 ^ log := by
    intro c
    rw [← hlength]
    apply count_le_length
  obtain ⟨es, hes, hes', hentry⟩ := buildEntries_eq hlog' table
    (norm.map cells)
    (fun c hc => by
      rw [length_map]
      exact hmem c hc)
    (fun c hc => by
      rw [hnext, ← hcount]
      exact count_pos_iff.mpr hc)
    (fun c _ => by
      have := hle c
      rw [hnext, ← hcount]
      omega)
  refine ⟨table, es, htable, hlength, hcount, by rw [hes', hlength], ?_, ?_⟩
  · intro u hu
    rw [hentry u (by omega), hnext, stateNumber]
  intro t
  have hsize : 2 ^ log ≤ 512 := Nat.pow_le_pow_right (by omega) hlog'
  obtain ⟨w, hw, hw'⟩ := writeFrom_eq t.entries (show 0 + es.length ≤ 512 by omega)
  refine ⟨⟨w, log⟩, ?_, rfl, ?_⟩
  · rw [build, if_neg (by omega), htable, ok_bind]
    simp only
    rw [if_neg (by omega), hes, ok_bind, hw]
    rfl
  · rw [live]
    rw [hw', take_zero, nil_append, ← hlength, ← hes', take_left']
    rfl

/-- The states of a symbol that takes `c` of them have the numbers from `c` up to, but not
including, `2 * c`. -/
theorem stateNumber_bounds {table : List ℕ} {u : ℕ}
    (hcount : ∀ c, table.count c = cells (norm.getD c 0)) (hu : u < table.length) :
  cells (norm.getD (table.getD u 0) 0) ≤ stateNumber norm table u
    ∧ stateNumber norm table u < 2 * cells (norm.getD (table.getD u 0) 0)
  := by
  have hget : table.getD u 0 = table[u] := by simp [getD, hu]
  have hsplit : table.count table[u]
      = (table.take u).count table[u] + ((table.drop (u + 1)).count table[u] + 1) := by
    have h := take_append_drop u table
    rw [drop_eq_getElem_cons hu] at h
    have h' := congrArg (count table[u]) h
    rwa [count_append, count_cons_self, eq_comm] at h'
  rw [stateNumber, hget, ← hcount]
  omega

/-- `build` refuses a distribution that does not fit, and otherwise builds the same
well-formed table over whatever the array held before. -/
theorem build_cases (norm : List ℤ) {log : ℕ} (hlog : 4 ≤ log) (hlog' : log ≤ 9)
    (hlen : norm.length ≤ maxFSESymbols) :
  (∀ t : FseDecTable, t.build norm log = .error (.fail .corruptTable))
    ∨ ∃ es, ∀ t : FseDecTable, ∃ t', t.build norm log = .ok t' ∧ t'.tableLog = log
        ∧ t'.live = es ∧ t'.Wf (norm.length - 1)
  := by
  have hsize : 2 ^ log ≤ 512 := Nat.pow_le_pow_right (by omega) hlog'
  by_cases hfits : Fits norm log
  · right
    obtain ⟨table, es, -, hlength, hcount, hes, hentry, hbuild⟩ :=
      build_spec hfits hlog hlog' hlen
    refine ⟨es, fun t => ?_⟩
    obtain ⟨t', ht', hlog'', hlive⟩ := hbuild t
    have hstate : ∀ e ∈ es, ∃ u < 2 ^ log,
        e = stateEntry log (table.getD u 0) (stateNumber norm table u) := by
      intro e he
      obtain ⟨u, hu, rfl⟩ := mem_iff_getElem.mp he
      refine ⟨u, by omega, ?_⟩
      rw [← hentry u (by omega)]
      simp [getD, hu]
    have hcell : ∀ u < 2 ^ log, 0 < cells (norm.getD (table.getD u 0) 0)
        ∧ cells (norm.getD (table.getD u 0) 0) ≤ 2 ^ log := by
      intro u hu
      rw [← hcount]
      constructor
      · apply count_pos_iff.mpr
        simp [getD, hlength, hu]
      · rw [← hlength]
        apply count_le_length
    refine ⟨t', ht', hlog'', hlive, by omega, ?_, ?_⟩
    · intro e he
      rw [hlive] at he
      obtain ⟨u, hu, rfl⟩ := hstate e he
      have hpos := (hcell u hu).1
      have hlt : table.getD u 0 < norm.length := by
        by_contra hge
        rw [getD, getElem?_eq_none (by omega)] at hpos
        simp [cells] at hpos
      simp only [stateEntry]
      omega
    · intro e he
      rw [hlive] at he
      obtain ⟨u, hu, rfl⟩ := hstate e he
      obtain ⟨h₁, h₂⟩ := stateNumber_bounds hcount (u := u) (by omega)
      obtain ⟨h₃, h₄⟩ := hcell u hu
      rw [hlog'']
      apply stateEntry_next_le
      · omega
      · omega
  · left
    intro t
    have hspread : spreadSymbols norm log = .ok none := by
      rw [spreadSymbols]
      by_cases hany : norm.any (· < -1)
      · rw [if_pos hany]
      rw [if_neg hany, if_pos]
      intro hsum
      apply hfits
      refine ⟨?_, hsum⟩
      intro v hv
      by_contra hlt
      apply hany
      rw [any_eq_true]
      exact ⟨v, hv, by simp; omega⟩
    rw [build, if_neg (by omega), hspread]
    rfl

theorem live_rle (t : FseDecTable) (symbol : ℕ) :
  (t.rle symbol).live = [⟨0, symbol, 0⟩]
  := by
  apply ext_getElem
  · simp [live, rle]
  intro i h₁ h₂
  have : i = 0 := by simpa using h₂
  subst this
  simp [live, rle]

theorem rle_wf (t : FseDecTable) {symbol maxSymbol : ℕ} (h : symbol ≤ maxSymbol) :
  (t.rle symbol).Wf maxSymbol
  := by
  refine ⟨by simp [rle], ?_, ?_⟩
  · intro e he
    rw [live_rle, mem_singleton] at he
    subst he
    exact h
  · intro e he
    rw [live_rle, mem_singleton] at he
    subst he
    simp [rle]

/-! ### What decoding depends on -/

theorem Agree.wf {maxSymbol : ℕ} (h : t.Agree u) (ht : t.Wf maxSymbol) :
  u.Wf maxSymbol
  := by
  obtain ⟨hlog, hlive⟩ := h
  obtain ⟨h₁, h₂, h₃⟩ := ht
  rw [hlog] at h₁ h₃
  rw [hlive] at h₂ h₃
  exact ⟨h₁, h₂, h₃⟩

theorem Wf.mono {m m' : ℕ} (h : t.Wf m) (hm : m ≤ m') :
  t.Wf m'
  := ⟨h.log_le, fun e he => (h.symbol_le e he).trans hm, h.next_le⟩

theorem entry_eq (t : FseDecTable) (state : ℕ) :
  t.entry state = if state < 2 ^ t.tableLog then idx t.live state else .error .stray
  := by
  rw [entry]
  split
  · rename_i h
    rw [idx, idx, live, getElem?_take_of_lt h]
  · rfl

/-- Tables that agree on what is in use decode alike. -/
theorem Agree.entry_eq (h : t.Agree u) :
  t.entry = u.entry
  := by
  funext state
  rw [FseDecTable.entry_eq, FseDecTable.entry_eq, h.1, h.2]

/-- A state in use has an entry, and every state it leads to is in use. -/
theorem entry_safe {maxSymbol state : ℕ} (ht : t.Wf maxSymbol) (hstate : state < 2 ^ t.tableLog) :
  Safe (t.entry state) (fun e => e.symbol ≤ maxSymbol ∧ e.nbBits ≤ 9
    ∧ e.newState + 2 ^ e.nbBits ≤ 2 ^ t.tableLog)
  := by
  have hpow : 2 ^ t.tableLog ≤ 512 := Nat.pow_le_pow_right (by omega) ht.log_le
  have hlt : state < t.live.length := by
    simp [live]
    omega
  rw [FseDecTable.entry_eq, if_pos hstate]
  apply (Safe.idx hlt).mono
  rintro e rfl
  have hmem := getElem_mem hlt
  have hnext := ht.next_le _ hmem
  refine ⟨ht.symbol_le _ hmem, ?_, hnext⟩
  have : 2 ^ t.live[state].nbBits ≤ 2 ^ 9 := by
    apply le_trans (Nat.le_add_left _ _)
    exact le_trans hnext hpow
  exact (Nat.pow_le_pow_iff_right (by omega)).mp this

end FseDecTable

end Zstd
