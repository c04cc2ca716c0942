import TinyGoDriver.Zstd.HuffEncode

/-!
# Huffman codes

The codes that `buildHuffTable` gives to the symbols are the numbers of the decoder's slots: the
code `v` of length `n` stands for the slots that begin with its bits (`Codes.getElem?_huffLayout`).
The table that the decoder builds from the weights of the encoder's table therefore reads its codes
(`Canonical.readBy_build`), and every symbol that is counted has one (`buildHuffTable_ok`).
-/

namespace Zstd

open GoRt Buckets BitStack BackReader List

/-! ### The numbering -/

/-- The first slot of the codes of length `n`. -/
def firstSlot (bits : List ℕ) (maxBit n : ℕ) : ℕ :=
  start (fun w => 2 ^ (w - 1)) (bits.map (weightOf maxBit)) (maxBit + 1 - n)

/-- The first code of length `n`. -/
def firstCode (bits : List ℕ) (maxBit n : ℕ) : ℕ := firstSlot bits maxBit n / 2 ^ (maxBit - n)

variable {k maxSymbol : ℕ} {counts lengths : List ℕ}

namespace Codes

variable {bits : List ℕ} {maxBit : ℕ} (h : Codes bits maxBit)

include h

variable {n : ℕ} {l m : List ℕ}

theorem firstSlot_pred (hn : n + 1 ≤ maxBit) :
  firstSlot bits maxBit n
    = firstSlot bits maxBit (n + 1) + bits.count (n + 1) * 2 ^ (maxBit - (n + 1))
  := by
  have hsucc : maxBit + 1 - n = maxBit + 1 - (n + 1) + 1 := by omega
  rw [firstSlot, hsucc, start_succ _ _ (by omega), count_weightOf h.le (by omega) hn]
  congr 3
  omega

theorem two_pow_dvd_firstSlot (hn : n ≤ maxBit) :
  2 ^ (maxBit - n) ∣ firstSlot bits maxBit n
  := by
  have hsucc : maxBit + 1 - n = maxBit - n + 1 := by omega
  rw [firstSlot, hsucc]
  exact h.two_pow_dvd_start (by omega)

theorem firstSlot_le (n : ℕ) :
  firstSlot bits maxBit n ≤ 2 ^ maxBit
  := by
  rw [← h.start_end]
  by_cases hn : n ≤ maxBit
  · exact start_le_start _ _ (by omega) (by omega)
  have hzero : firstSlot bits maxBit n = 0 := by
    rw [firstSlot, show maxBit + 1 - n = 0 by omega]
    rfl
  omega

/-- The first code of the next shorter length. -/
theorem firstCode_pred (hn : n + 1 ≤ maxBit) :
  firstCode bits maxBit (n + 1) + bits.count (n + 1) = 2 * firstCode bits maxBit n
  := by
  obtain ⟨q, hq⟩ := h.two_pow_dvd_firstSlot (show n ≤ maxBit by omega)
  obtain ⟨r, hr⟩ := h.two_pow_dvd_firstSlot hn
  have hpred := h.firstSlot_pred hn
  have hpow : 2 ^ (maxBit - n) = 2 ^ (maxBit - (n + 1)) * 2 := by
    rw [← pow_succ]
    congr 1
    omega
  rw [firstCode, firstCode, hq, hr, Nat.mul_div_cancel_left _ (by positivity),
    Nat.mul_div_cancel_left _ (by positivity)]
  have hpos : 0 < 2 ^ (maxBit - (n + 1)) := by positivity
  nlinarith

theorem firstCode_mul (hn : n ≤ maxBit) :
  firstCode bits maxBit n * 2 ^ (maxBit - n) = firstSlot bits maxBit n
  := Nat.div_mul_cancel (h.two_pow_dvd_firstSlot hn)

theorem firstCode_le (n : ℕ) :
  firstCode bits maxBit n ≤ 2 ^ maxBit
  := (Nat.div_le_self _ _).trans (h.firstSlot_le n)

/-- The codes of a length take no more than what the next shorter one leaves. -/
theorem code_lt_two_mul {l m : List ℕ} (hbits : bits = l ++ n :: m) (hn : n ≠ 0) :
  firstCode bits maxBit n + l.count n < 2 * firstCode bits maxBit (n - 1)
  := by
  have hle : n ≤ maxBit := h.le n (by simp [hbits])
  have hpred := h.firstCode_pred (show n - 1 + 1 ≤ maxBit by omega)
  rw [show n - 1 + 1 = n by omega, hbits, count_append, count_cons_self] at hpred
  rw [hbits]
  omega

theorem two_mul_firstCode_lt (n : ℕ) :
  2 * firstCode bits maxBit n < 2 ^ 16
  := by
  have h₁ := h.firstCode_le n
  have h₂ : 2 ^ maxBit ≤ 2 ^ 11 := Nat.pow_le_pow_right (by decide) h.maxBit_le
  omega

theorem firstCodes_ok {perLength : List ℕ}
    (hper : ∀ n, 1 ≤ n → n ≤ maxBit → perLength[n]? = some (bits.count n)) {next : List ℕ}
    (hk : k ≤ maxBit) (hlen : next.length = maxHuffBits + 2)
    (hnext : ∀ n, k < n → n ≤ maxBit → next[n]? = some (firstCode bits maxBit n)) :
  ∃ next', firstCodes perLength k (firstCode bits maxBit k) next = .ok next'
    ∧ next'.length = maxHuffBits + 2
    ∧ ∀ n, 1 ≤ n → n ≤ maxBit → next'[n]? = some (firstCode bits maxBit n)
  := by
  have hmax := h.maxBit_le
  induction k generalizing next with
  | zero => exact ⟨next, rfl, hlen, hnext⟩
  | succ k ih =>
    have hlt : k + 1 < next.length := by omega
    have hpred := h.firstCode_pred hk
    have hle := h.two_mul_firstCode_lt k
    have hmin : ((firstCode bits maxBit (k + 1) + bits.count (k + 1)) % 2 ^ 16) >>> 1
        = firstCode bits maxBit k := by
      omega
    rw [firstCodes, setAt_of_lt _ _ hlt, ok_bind, idx_eq_ok (hper (k + 1) (by omega) hk), ok_bind,
      hmin]
    refine ih (by omega) (by rw [length_set, hlen]) fun n hn hn' => ?_
    by_cases heq : n = k + 1
    · rw [heq, getElem?_set_self hlt]
    · rw [getElem?_set_ne (Ne.symm heq)]
      exact hnext n (by omega) hn'

/-- The codes of a length are numbered from the first one on. -/
theorem assignCodes_ok {l m next : List ℕ} (hbits : bits = l ++ m)
    (hlen : next.length = maxHuffBits + 2)
    (hnext : ∀ n, 1 ≤ n → n ≤ maxBit → next[n]? = some (firstCode bits maxBit n + l.count n)) :
  ∃ vals, assignCodes m next = .ok vals ∧ vals.length = m.length
    ∧ ∀ l' n m', m = l' ++ n :: m' → n ≠ 0 →
      vals[l'.length]? = some (firstCode bits maxBit n + (l ++ l').count n)
  := by
  induction m generalizing l next with
  | nil => exact ⟨[], rfl, rfl, by simp⟩
  | cons n m ih =>
    have hbits' : bits = (l ++ [n]) ++ m := by simp [hbits]
    by_cases hn : n = 0
    · obtain ⟨vals, hvals, hlength, hcode⟩ := ih hbits' hlen fun k hk hk' => by
        rw [hnext k hk hk', count_append]
        simp [show n ≠ k by omega]
      refine ⟨0 :: vals, ?_, by simp [hlength], ?_⟩
      · rw [assignCodes, if_pos hn, hvals]
        rfl
      intro l' k m' hsplit hk
      cases l' with
      | nil =>
        obtain ⟨rfl, -⟩ := cons.inj hsplit
        exact absurd hn hk
      | cons n' l' =>
        obtain ⟨rfl, hm⟩ := cons.inj hsplit
        rw [length_cons, getElem?_cons_succ, hcode l' k m' hm hk]
        simp
    have hle : n ≤ maxBit := h.le n (by simp [hbits])
    have hlt : n < next.length := by
      have := h.maxBit_le
      omega
    have hv := hnext n (by omega) hle
    -- the number is smaller than the count of the codes of this length
    have hnum : firstCode bits maxBit n + l.count n + 1 < 2 ^ 16 :=
      Nat.lt_of_le_of_lt (h.code_lt_two_mul hbits hn) (h.two_mul_firstCode_lt (n - 1))
    have hnext' : ∀ k, 1 ≤ k → k ≤ maxBit →
        (next.set n (firstCode bits maxBit n + l.count n + 1))[k]?
          = some (firstCode bits maxBit k + (l ++ [n]).count k) := by
      intro k hk hk'
      by_cases hkn : k = n
      · subst hkn
        rw [getElem?_set_self hlt]
        simp [Nat.add_assoc]
      · rw [getElem?_set_ne (Ne.symm hkn), hnext k hk hk']
        simp [Ne.symm hkn]
    obtain ⟨vals, hvals, hlength, hcode⟩ := ih hbits' (by rw [length_set, hlen]) hnext'
    refine ⟨(firstCode bits maxBit n + l.count n) :: vals, ?_, by simp [hlength], ?_⟩
    · rw [assignCodes, if_neg hn, idx_eq_ok hv, ok_bind, Nat.mod_eq_of_lt hnum,
        setAt_of_lt _ _ hlt, ok_bind, hvals]
      rfl
    intro l' k m' hsplit hk
    cases l' with
    | nil =>
      obtain ⟨rfl, -⟩ := cons.inj hsplit
      simp
    | cons n' l' =>
      obtain ⟨rfl, hm⟩ := cons.inj hsplit
      rw [length_cons, getElem?_cons_succ, hcode l' k m' hm hk]
      simp

/-- The slots of a code are those that begin with its bits. -/
theorem getElem?_huffLayout {x : ℕ} (hbits : bits = l ++ n :: m) (hn : n ≠ 0)
    (hx : x / 2 ^ (maxBit - n) = firstCode bits maxBit n + l.count n) :
  (huffLayout (bits.map (weightOf maxBit)) maxBit)[x]? = some ⟨UInt8.ofNat l.length, n⟩
  := by
  have hle : n ≤ maxBit := h.le n (by simp [hbits])
  have hweight : weightOf maxBit n = maxBit + 1 - n := by rw [weightOf, if_neg hn]
  have hsize : maxBit + 1 - n - 1 = maxBit - n := by omega
  have hweights : bits.map (weightOf maxBit)
      = l.map (weightOf maxBit) ++ (maxBit + 1 - n) :: m.map (weightOf maxBit) := by
    rw [hbits, map_append, map_cons, hweight]
  have hcount : (l.map (weightOf maxBit)).count (maxBit + 1 - n) = l.count n :=
    count_weightOf (fun k hk => h.le k (by simp [hbits, hk])) (by omega) hle
  have hslot := h.firstCode_mul hle
  have hpos : 0 < 2 ^ (maxBit - n) := by positivity
  obtain ⟨hlo, hhi⟩ := (Nat.div_eq_iff hpos).mp hx
  rw [Nat.add_mul, hslot, firstSlot, hweights] at hlo hhi
  have hentry : symbolEntry (bits.map (weightOf maxBit)) maxBit l.length
      = ⟨UInt8.ofNat l.length, n⟩ := by
    have hget : (bits.map (weightOf maxBit)).getD l.length 0 = maxBit + 1 - n := by
      rw [hweights]
      simp
    rw [symbolEntry, hget, show maxBit + 1 - (maxBit + 1 - n) = n by omega]
  have hcell := getElem?_layout (fun w => 2 ^ (w - 1))
    (symbolEntry (bits.map (weightOf maxBit)) maxBit)
    (K := maxBit) (i := x) (show 1 ≤ maxBit + 1 - n by omega)
    (by omega) (by rw [hcount, hsize]; exact hlo) (by rw [hcount, hsize]; omega)
  rw [length_map, hentry, ← hweights] at hcell
  exact hcell

theorem code_lt (hbits : bits = l ++ n :: m) (hn : n ≠ 0) :
  firstCode bits maxBit n + l.count n < 2 ^ n
  := by
  have hle : n ≤ maxBit := h.le n (by simp [hbits])
  have hcode := h.code_lt_two_mul hbits hn
  -- twice as many codes of the shorter length take no more than all slots
  have hmul := h.firstCode_mul (show n - 1 ≤ maxBit by omega)
  have hall := h.firstSlot_le (n - 1)
  have hpow : 2 ^ maxBit = 2 ^ (n - 1) * 2 ^ (maxBit - (n - 1)) := by
    rw [← pow_add]
    congr 1
    omega
  rw [← hmul, hpow] at hall
  have hfirst := Nat.le_of_mul_le_mul_right hall (by positivity)
  have htwo : 2 ^ n = 2 * 2 ^ (n - 1) := by
    rw [← pow_succ']
    congr 1
    omega
  omega

/-- The table has the codes of the numbering. -/
theorem canonicalTable_ok (hmaxBit : bits.foldr max 0 = maxBit) (maxSymbol : ℕ) :
  ∃ vals, canonicalTable bits maxSymbol
      = .ok ⟨bits ++ List.replicate (256 - bits.length) 0,
          vals ++ List.replicate (256 - bits.length) 0, maxSymbol, maxBit⟩
    ∧ ∀ l n m, bits = l ++ n :: m → n ≠ 0 →
      vals[l.length]? = some (firstCode bits maxBit n + l.count n)
  := by
  have hmax := h.maxBit_le
  have hper : ∀ n, 1 ≤ n → n ≤ maxBit →
      ((range (maxHuffBits + 2)).map (fun n => if n = 0 then 0 else bits.count n))[n]?
        = some (bits.count n) := by
    intro n hn hn'
    rw [getElem?_map, getElem?_range (by omega), Option.map_some, if_neg (by omega)]
  obtain ⟨next, hnext, hlen, hfirst⟩ := h.firstCodes_ok hper (le_refl maxBit)
    (length_replicate) (by omega)
  obtain ⟨vals, hvals, -, hcode⟩ := h.assignCodes_ok (l := []) rfl hlen hfirst
  refine ⟨vals, ?_, fun l n m hbits hn => by simpa using hcode l n m hbits hn⟩
  rw [firstCode, firstSlot, show maxBit + 1 - maxBit = 1 by omega, start_one, Nat.zero_div] at hnext
  rw [canonicalTable, hmaxBit, hnext, ok_bind, hvals]
  rfl

end Codes

/-! ### Tables -/

/-- The code of a symbol. -/
def HuffTable.code (t : HuffTable) (c : UInt8) : ℕ × ℕ :=
  (t.vals.getD c.toNat 0, t.bits.getD c.toNat 0)

def huffWeight (t : HuffTable) (symbol : ℕ) : ℕ :=
  if t.bits.getD symbol 0 = 0 then 0 else wrap 8 ((t.maxBit : ℤ) + 1 - t.bits.getD symbol 0)

/-- The lengths of the codes make a code, and the codes are numbered. -/
structure HuffTable.Canonical (t : HuffTable) : Prop where
  codes : Codes (t.bits.take (t.max + 1)) t.maxBit
  last : t.bits.getD t.max 0 ≠ 0
  max_pos : 1 ≤ t.max
  max_le : t.max ≤ maxHuffSymbol
  above : ∀ s, t.max < s → t.bits.getD s 0 = 0
  vals : ∀ l n m, t.bits.take (t.max + 1) = l ++ n :: m → n ≠ 0 →
    t.vals.getD l.length 0 = firstCode (t.bits.take (t.max + 1)) t.maxBit n + l.count n

/-- The decoder's table has the symbols of the codes in its slots. -/
structure HuffTable.ReadBy (t : HuffTable) (u : HuffDecTable) : Prop where
  wf : u.Wf
  maxBits_eq : u.maxBits = t.maxBit
  code_lt : ∀ c, (t.code c).2 ≠ 0 → (t.code c).1 < 2 ^ (t.code c).2
  length_le : ∀ c, (t.code c).2 ≤ t.maxBit
  slot : ∀ c, (t.code c).2 ≠ 0 → ∀ x, x / 2 ^ (t.maxBit - (t.code c).2) = (t.code c).1 →
    u.live[x]? = some ⟨c, (t.code c).2⟩

namespace HuffTable.Canonical

variable {t : HuffTable} (h : t.Canonical)

include h

theorem split {s : ℕ} (hs : t.bits.getD s 0 ≠ 0) :
  ∃ l m, t.bits.take (t.max + 1) = l ++ t.bits.getD s 0 :: m ∧ l.length = s
  := by
  have hle : s ≤ t.max := by
    by_contra hlt
    exact hs (h.above s (by omega))
  have hlt : s < t.bits.length := by
    by_contra hge
    exact hs (getD_eq_default _ _ (by omega))
  have hlt' : s < (t.bits.take (t.max + 1)).length := by
    rw [length_take]
    omega
  refine ⟨(t.bits.take (t.max + 1)).take s, (t.bits.take (t.max + 1)).drop (s + 1), ?_, ?_⟩
  · have hget : t.bits.getD s 0 = (t.bits.take (t.max + 1))[s] := by
      rw [getElem_take, getD_eq_getElem _ _ hlt]
    rw [hget, getElem_cons_drop, take_append_drop]
  · rw [length_take]
    omega

theorem huffWeight_eq (s : ℕ) :
  huffWeight t s = weightOf t.maxBit (t.bits.getD s 0)
  := by
  rw [huffWeight, weightOf]
  split
  · rfl
  rename_i hs
  obtain ⟨l, m, hbits, -⟩ := h.split hs
  have hle := h.codes.le (t.bits.getD s 0) (by simp [hbits])
  have hmax : t.maxBit ≤ 11 := h.codes.maxBit_le
  rw [← Nat.cast_succ, wrap_sub_of_le (by omega) (by omega)]

theorem length_bits :
  t.max < t.bits.length
  := by
  by_contra hge
  exact h.last (getD_eq_default _ _ (by omega))

theorem take_succ :
  t.bits.take (t.max + 1) = t.bits.take t.max ++ [t.bits.getD t.max 0]
  := by
  have hlen := h.length_bits
  rw [take_add_one, getElem?_eq_getElem hlen, getD_eq_getElem _ _ hlen]
  rfl

/-- The weights that are written down. -/
theorem map_huffWeight :
  (List.range t.max).map (huffWeight t) = (t.bits.take t.max).map (weightOf t.maxBit)
  := by
  have hlen := h.length_bits
  apply ext_getElem
  · simp
    omega
  intro i hi hi'
  rw [length_map, length_range] at hi
  rw [getElem_map, getElem_map, getElem_range, h.huffWeight_eq, getElem_take,
    getD_eq_getElem _ _ (by omega)]

/-- The decoder builds a table that reads the codes. -/
theorem readBy_build (u : HuffDecTable) :
  ∃ u', u.build ((List.range t.max).map (huffWeight t)) = .ok u' ∧ t.ReadBy u'
  := by
  have hcomplete := h.codes.complete h.take_succ h.last
  obtain ⟨u', hbuild, hmaxBits, hlive, hwf⟩ := HuffDecTable.build_complete hcomplete u
  have hall : (t.bits.take t.max).map (weightOf t.maxBit)
      ++ [weightOf t.maxBit (t.bits.getD t.max 0)]
      = (t.bits.take (t.max + 1)).map (weightOf t.maxBit) := by
    rw [h.take_succ, map_append]
    rfl
  rw [hall] at hlive
  rw [h.map_huffWeight]
  refine ⟨u', hbuild, ⟨hwf, hmaxBits, ?_, ?_, ?_⟩⟩
  · intro c hc
    obtain ⟨l, m, hbits, hl⟩ := h.split hc
    have hval := h.vals l _ m hbits hc
    rw [hl] at hval
    rw [HuffTable.code] at hc ⊢
    rw [hval]
    exact h.codes.code_lt hbits hc
  · intro c
    by_cases hc : (t.code c).2 = 0
    · omega
    · obtain ⟨l, m, hbits, -⟩ := h.split hc
      exact h.codes.le _ (by rw [hbits]; simp [HuffTable.code])
  · intro c hc x hx
    obtain ⟨l, m, hbits, hl⟩ := h.split hc
    have hval := h.vals l _ m hbits hc
    rw [hl] at hval
    rw [HuffTable.code] at hc hx ⊢
    rw [hval] at hx
    rw [hlive, h.codes.getElem?_huffLayout hbits hc hx, hl, UInt8.ofNat_toNat]

end HuffTable.Canonical

/-! ### Building a table -/

theorem codeMass_take {bits : List ℕ} (h : ∀ s, k ≤ s → bits.getD s 0 = 0) :
  codeMass (bits.take k) = codeMass bits
  := by
  have hzero : ∀ n ∈ bits.drop k, n = 0 := by
    intro n hn
    obtain ⟨i, hi, rfl⟩ := mem_iff_getElem.mp hn
    rw [length_drop] at hi
    have := h (k + i) (by omega)
    rw [getD_eq_getElem _ _ (by omega)] at this
    rw [getElem_drop, this]
  have hdrop : codeMass (bits.drop k) = 0 := by
    refine sum_eq_zero fun x hx => ?_
    obtain ⟨n, hn, rfl⟩ := mem_map.mp hx
    rw [if_pos (hzero n hn)]
  conv_rhs => rw [← take_append_drop k bits]
  rw [codeMass] at hdrop ⊢
  rw [codeMass, map_append, sum_append, hdrop, add_zero]

/-- Some attempt fits a code that is short enough, or none does. -/
theorem huffAttempts_ok (total : ℕ) (shifts : List ℕ) (hmax : maxSymbol ≤ maxHuffSymbol)
    (hused : 2 ≤ (usedSymbols counts maxSymbol).length) :
  ∃ r, huffAttempts counts maxSymbol total shifts = .ok r
    ∧ ∀ lengths, r = some lengths → Lengths counts maxSymbol lengths
      ∧ ∀ s, lengths.getD s 0 ≤ maxHuffBits
  := by
  induction shifts with
  | nil => exact ⟨none, rfl, by simp⟩
  | cons shift shifts ih =>
    obtain ⟨lengths, deepest, hlengths, hspec, hdeepest⟩ :=
      huffLengths_ok (max ((total % 2 ^ 32) >>> shift) 1) hmax hused
    rw [huffAttempts, hlengths, ok_bind]
    dsimp only
    split
    · rename_i hle
      refine ⟨some lengths, rfl, fun lengths' heq => ?_⟩
      cases heq
      exact ⟨hspec, fun s => (hdeepest s).trans hle⟩
    · exact ih

/-- The lengths up to the largest symbol make a code. -/
theorem Lengths.codes (h : Lengths counts maxSymbol lengths)
    (hle : ∀ s, lengths.getD s 0 ≤ maxHuffBits) (hmax : maxSymbol ≤ maxHuffSymbol)
    (hlast : counts.getD maxSymbol 0 ≠ 0) :
  Codes (lengths.take (maxSymbol + 1)) ((lengths.take (maxSymbol + 1)).foldr max 0)
  := by
  have hlen : (lengths.take (maxSymbol + 1)).length = maxSymbol + 1 := by
    rw [length_take, h.length_eq]
    omega
  have hne : lengths.take (maxSymbol + 1) ≠ [] := by
    rw [← length_pos_iff]
    omega
  have hmem : lengths.getD maxSymbol 0 ∈ lengths.take (maxSymbol + 1) := by
    have hlt : maxSymbol < lengths.length := by
      rw [h.length_eq]
      omega
    rw [getD_eq_getElem _ _ hlt, ← getElem_take (j := maxSymbol + 1) (h := by omega)]
    exact getElem_mem _
  have hlastne := (h.ne_zero_iff maxSymbol).mpr ⟨le_rfl, hlast⟩
  refine ⟨fun n => le_foldr_max, foldr_max_mem hne, ?_, ?_, ?_, ?_⟩
  · have := le_foldr_max hmem
    omega
  · obtain ⟨i, hi, heq⟩ := mem_iff_getElem.mp (foldr_max_mem hne)
    rw [← heq, getElem_take, ← getD_eq_getElem _ 0]
    exact hle i
  · rw [codeMass_take, h.mass]
    intro s hs
    by_contra hs'
    have := ((h.ne_zero_iff s).mp hs').1
    omega
  · simp only [maxHuffSymbol] at hmax
    omega

/-- The table of such lengths. -/
theorem Lengths.canonical (h : Lengths counts maxSymbol lengths)
    (hle : ∀ s, lengths.getD s 0 ≤ maxHuffBits) (hpos : 1 ≤ maxSymbol)
    (hmax : maxSymbol ≤ maxHuffSymbol) (hlast : counts.getD maxSymbol 0 ≠ 0) :
  ∃ t, canonicalTable (lengths.take (maxSymbol + 1)) maxSymbol = .ok t ∧ t.Canonical
    ∧ ∀ s, s ≤ maxSymbol → counts.getD s 0 ≠ 0 → t.bits.getD s 0 ≠ 0
  := by
  have hcodes := h.codes hle hmax hlast
  obtain ⟨vals, htable, hvals⟩ := hcodes.canonicalTable_ok rfl maxSymbol
  set bits := lengths.take (maxSymbol + 1) with hbits
  have hlen : bits.length = maxSymbol + 1 := by
    rw [length_take, h.length_eq]
    omega
  have hget : ∀ s, s ≤ maxSymbol →
      (bits ++ replicate (256 - bits.length) 0).getD s 0 = lengths.getD s 0 := by
    intro s hs
    rw [getD_append _ _ _ _ (by omega), getD_eq_getElem _ _ (by omega),
      getD_eq_getElem _ _ (by rw [h.length_eq]; omega)]
    exact getElem_take
  have htake : (bits ++ replicate (256 - bits.length) 0).take (maxSymbol + 1) = bits := by
    rw [← hlen, take_left]
  refine ⟨_, htable, ⟨?_, ?_, hpos, hmax, ?_, ?_⟩, ?_⟩
  · rw [htake]
    exact hcodes
  · rw [hget _ le_rfl]
    exact (h.ne_zero_iff _).mpr ⟨le_rfl, hlast⟩
  · intro s hs
    dsimp only at hs ⊢
    rw [getD_append_right _ _ _ _ (by omega)]
    by_cases hlt : s - bits.length < 256 - bits.length
    · rw [getD_replicate _ hlt]
    · exact getD_eq_default _ _ (by simpa using hlt)
  · intro l n m hsplit hn
    rw [htake] at hsplit ⊢
    have hval := hvals l n m hsplit hn
    rw [getD_eq_getElem?_getD, getElem?_append_left, hval]
    · rfl
    · exact (List.getElem?_eq_some_iff.mp hval).1
  · intro s hs hcount
    rw [hget s hs]
    exact (h.ne_zero_iff s).mpr ⟨hs, hcount⟩

theorem le_of_mem_usedSymbols {m s : ℕ} (hlast : (usedSymbols counts k).getLast? = some m)
    (hs : s ∈ usedSymbols counts k) :
  s ≤ m
  := by
  have hsorted : (usedSymbols counts k).Pairwise (· < ·) :=
    List.Pairwise.filter _ pairwise_lt_range
  obtain ⟨l, hl⟩ := getLast?_eq_some_iff.mp hlast
  rw [hl] at hs hsorted
  rcases mem_append.mp hs with hs | hs
  · exact le_of_lt ((pairwise_append.mp hsorted).2.2 s hs m (by simp))
  · exact le_of_eq (mem_singleton.mp hs)

theorem usedSymbols_eq {m : ℕ} (hlast : (usedSymbols counts k).getLast? = some m) :
  usedSymbols counts m = usedSymbols counts k
  := by
  have hm := (mem_usedSymbols.mp (mem_of_getLast? hlast)).1
  have hrange : range (k + 1) = range (m + 1) ++ range' (m + 1) (k - m) := by
    rw [range_eq_range', range_eq_range', show k + 1 = m + 1 + (k - m) by omega,
      ← range'_append_1, Nat.zero_add]
  have hnone : (range' (m + 1) (k - m)).filter (fun s => counts.getD s 0 ≠ 0) = [] := by
    rw [filter_eq_nil_iff]
    intro s hs hcount
    rw [mem_range'_1] at hs
    have := le_of_mem_usedSymbols hlast
      (mem_usedSymbols.mpr ⟨show s ≤ k by omega, by simpa using hcount⟩)
    omega
  rw [usedSymbols, usedSymbols, hrange, filter_append, hnone, append_nil]

/-- The table for the counts, if there is one. -/
theorem buildHuffTable_ok (counts : List ℕ) (total : ℕ) :
  ∃ r, buildHuffTable counts total = .ok r ∧ ∀ t, r = some t → t.Canonical
    ∧ ∀ c : UInt8, counts.getD c.toNat 0 ≠ 0 → (t.code c).2 ≠ 0
  := by
  rw [buildHuffTable]
  split
  · exact ⟨none, rfl, by simp⟩
  rename_i maxSymbol hlast
  split
  · exact ⟨none, rfl, by simp⟩
  obtain ⟨r, hr, hspec⟩ := huffAttempts_ok total [31, 11, 9, 7]
    (show maxSymbol ≤ maxHuffSymbol by omega)
    (by rw [usedSymbols_eq hlast]; omega)
  rw [hr, ok_bind]
  cases r with
  | none => exact ⟨none, rfl, by simp⟩
  | some lengths =>
    obtain ⟨hlengths, hle⟩ := hspec lengths rfl
    have hmem : maxSymbol ∈ usedSymbols counts 255 := mem_of_getLast? hlast
    obtain ⟨t, ht, hcanonical, hused⟩ := hlengths.canonical hle (by omega) (by omega)
      (mem_usedSymbols.mp hmem).2
    refine ⟨some t, by dsimp only; rw [ht]; rfl, fun t' heq => ?_⟩
    cases heq
    refine ⟨hcanonical, fun c hc => hused _ ?_ hc⟩
    have hlt := c.toNat_lt
    exact le_of_mem_usedSymbols hlast (mem_usedSymbols.mpr ⟨by omega, hc⟩)

end Zstd
