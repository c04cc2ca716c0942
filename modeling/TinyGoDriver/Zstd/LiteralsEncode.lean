import TinyGoDriver.Zstd.HuffWrite

/-!
# Writing the literals section

`appendLiterals` writes the literals of a block as they are, as one byte that is repeated, or with a
Huffman code, whichever is shortest.  The decoder reads the literals back and stops where the
section ends (`appendLiterals_read`).
-/

namespace Zstd

open GoRt List Nat

/-! ### Headers -/

def literalHeaderSize (size : ℕ) : ℕ :=
  if size ≤ 31 then 1 else if size ≤ 4095 then 2 else 3

/-- The header of literals that are stored, or of a byte that is repeated. -/
def literalHeader (size blockType : ℕ) : List UInt8 :=
  match literalHeaderSize size with
  | 1 => leBytes 1 (size <<< 3 ||| blockType)
  | 2 => leBytes 2 ((size <<< 4 ||| 1 <<< 2 ||| blockType) % 2 ^ 32)
  | _ => leBytes 3 ((size <<< 4 ||| 3 <<< 2 ||| blockType) % 2 ^ 32)

def appendLiteralHeader (dst : List UInt8) (size blockType : ℕ) : List UInt8 :=
  dst ++ literalHeader size blockType

def compressedLiteralHeader (regen comp : ℕ) (single : Bool) : Option (List UInt8) :=
  if regen < 1 <<< 10 ∧ comp < 1 <<< 10 then
    let format := if single then 0 else 1
    some (leBytes 3 (2 ||| format <<< 2 ||| regen <<< 4 ||| comp <<< 14))
  else if single then
    none
  else if regen < 1 <<< 14 ∧ comp < 1 <<< 14 then
    some (leBytes 4 (2 ||| 2 <<< 2 ||| regen <<< 4 ||| comp <<< 18))
  else if regen < 1 <<< 18 ∧ comp < 1 <<< 18 then
    some (leBytes 5 (2 ||| 3 <<< 2 ||| regen <<< 4 ||| comp <<< 22))
  else
    none

theorem or_fields {blockType format : ℕ} (htype : blockType < 4) (hformat : format < 4) (size : ℕ) :
  size <<< 4 ||| format <<< 2 ||| blockType = blockType + 4 * format + 16 * size
  := by
  have hlow : blockType ||| format <<< 2 = blockType + 4 * format := or_shiftLeft htype format
  rw [Nat.or_assoc, Nat.or_comm (format <<< 2), hlow, Nat.or_comm, or_shiftLeft (by omega)]
  rfl

variable {size blockType : ℕ} {lits : List UInt8} {counts : List ℕ} {t : HuffTable}

theorem literalHeader_eq (hsize : size < 2 ^ 20) (htype : blockType < 4) :
  (literalHeaderSize size = 1 ∧ size ≤ 31
      ∧ literalHeader size blockType = leBytes 1 (blockType + 8 * size))
    ∨ (literalHeaderSize size = 2 ∧ size ≤ 4095
      ∧ literalHeader size blockType = leBytes 2 (blockType + 4 + 16 * size))
    ∨ (literalHeaderSize size = 3
      ∧ literalHeader size blockType = leBytes 3 (blockType + 12 + 16 * size))
  := by
  by_cases h₁ : size ≤ 31
  · have hn : literalHeaderSize size = 1 := if_pos h₁
    rw [literalHeader, hn]
    refine .inl ⟨rfl, h₁, ?_⟩
    rw [Nat.or_comm, or_shiftLeft (by omega)]
    rfl
  by_cases h₂ : size ≤ 4095
  · have hn : literalHeaderSize size = 2 := by rw [literalHeaderSize, if_neg h₁, if_pos h₂]
    rw [literalHeader, hn]
    refine .inr (.inl ⟨rfl, h₂, ?_⟩)
    change leBytes 2 ((size <<< 4 ||| 1 <<< 2 ||| blockType) % 2 ^ 32) = _
    rw [or_fields htype (by omega), mod_eq_of_lt (by omega)]
  · have hn : literalHeaderSize size = 3 := by rw [literalHeaderSize, if_neg h₁, if_neg h₂]
    rw [literalHeader, hn]
    refine .inr (.inr ⟨rfl, ?_⟩)
    change leBytes 3 ((size <<< 4 ||| 3 <<< 2 ||| blockType) % 2 ^ 32) = _
    rw [or_fields htype (by omega), mod_eq_of_lt (by omega)]

theorem length_literalHeader (hsize : size < 2 ^ 20) (htype : blockType < 4) :
  (literalHeader size blockType).length = literalHeaderSize size
  := by
  rcases literalHeader_eq hsize htype with ⟨h, -, heq⟩ | ⟨h, -, heq⟩ | ⟨h, heq⟩
  · rw [heq, h, length_leBytes]
  · rw [heq, h, length_leBytes]
  · rw [heq, h, length_leBytes]

/-- The decoder reads the size and the type of stored literals. -/
theorem plainHeader_literalHeader (hsize : size < 2 ^ 20) (htype : blockType < 2)
    (rest : List UInt8) :
  ∃ b l, literalHeader size blockType = b :: l ∧ b.toNat &&& 3 = blockType
    ∧ Decoder.plainHeader (b :: l ++ rest) b.toNat = .ok (literalHeaderSize size, size)
  := by
  have hlow : ∀ b : ℕ, b &&& 3 = b % 4 := fun b => and_two_pow_sub_one_eq_mod b 2
  have hformat : ∀ b : ℕ, b >>> 2 &&& 3 = b / 4 % 4 := fun b => shiftRight_and_mask b 2 2
  rcases literalHeader_eq hsize (show blockType < 4 by omega) with ⟨h, hle, heq⟩ | ⟨h, hle, heq⟩
    | ⟨h, heq⟩
  · refine ⟨_, _, heq, ?_, ?_⟩
    · rw [hlow, UInt8.toNat_ofNat']
      omega
    · rw [Decoder.plainHeader, hformat, UInt8.toNat_ofNat', h]
      split
      · omega
      · omega
      · congr 2
        omega
  · refine ⟨_, _, heq, ?_, ?_⟩
    · rw [hlow, UInt8.toNat_ofNat']
      omega
    · rw [Decoder.plainHeader, hformat, UInt8.toNat_ofNat', h,
        show (blockType + 4 + 16 * size) % 2 ^ 8 / 4 % 4 = 1 by omega]
      rw [if_neg (by simp), leBytes]
      simp only [cons_append, idx, getElem?_cons_succ, getElem?_cons_zero, ok_bind,
        UInt8.toNat_ofNat', shiftRight_eq_div_pow]
      rw [or_shiftLeft (by omega)]
      congr 2
      omega
  · refine ⟨_, _, heq, ?_, ?_⟩
    · rw [hlow, UInt8.toNat_ofNat']
      omega
    · rw [Decoder.plainHeader, hformat, UInt8.toNat_ofNat', h,
        show (blockType + 12 + 16 * size) % 2 ^ 8 / 4 % 4 = 3 by omega, leBytes, leBytes]
      simp only [cons_append, idx, getElem?_cons_succ, getElem?_cons_zero, ok_bind,
        UInt8.toNat_ofNat', shiftRight_eq_div_pow]
      rw [if_neg (by simp), or_shiftLeft (k := 4) (by omega), or_shiftLeft (by omega)]
      congr 2
      omega

/-! ### Coded literals -/

/-- The header of coded literals holds the type, the format and the two sizes. -/
theorem compressedLiteralHeader_eq {regen comp : ℕ} {single : Bool} {header : List UInt8}
    (h : compressedLiteralHeader regen comp single = some header) :
  ∃ format k n, format < 4 ∧ (format = 0 ↔ single = true) ∧ [10, 10, 14, 18].getD format 0 = k
    ∧ [3, 3, 4, 5].getD format 0 = n + 1 ∧ 8 * (n + 1) = 4 + k + k
    ∧ regen < 2 ^ k ∧ comp < 2 ^ k
    ∧ header = leBytes (n + 1) (2 + 4 * format + 16 * regen + 2 ^ (4 + k) * comp)
  := by
  have hfields : ∀ {format k : ℕ}, format < 4 → regen < 2 ^ k →
      2 ||| format <<< 2 ||| regen <<< 4 ||| comp <<< (4 + k)
        = 2 + 4 * format + 16 * regen + 2 ^ (4 + k) * comp := by
    intro format k hformat hregen
    have hlt : 2 + 2 ^ 2 * format + 2 ^ 4 * regen < 2 ^ (4 + k) := by
      rw [pow_add]
      omega
    rw [or_shiftLeft (c := 2) (by omega), or_shiftLeft (k := 4) (by omega), or_shiftLeft hlt]
    rfl
  rw [compressedLiteralHeader] at h
  split at h
  · rename_i hsmall
    cases single with
    | true =>
      refine ⟨0, 10, 2, by omega, by simp, rfl, rfl, rfl, hsmall.1, hsmall.2, ?_⟩
      rw [← Option.some.inj h, ← hfields (by omega) hsmall.1]
      rfl
    | false =>
      refine ⟨1, 10, 2, by omega, by simp, rfl, rfl, rfl, hsmall.1, hsmall.2, ?_⟩
      rw [← Option.some.inj h, ← hfields (by omega) hsmall.1]
      rfl
  split at h
  · cases h
  rename_i hsingle
  split at h
  · rename_i hmid
    refine ⟨2, 14, 3, by omega, by simp [hsingle], rfl, rfl, rfl, hmid.1, hmid.2, ?_⟩
    rw [← Option.some.inj h, ← hfields (by omega) hmid.1]
  · split at h
    · rename_i hlarge
      refine ⟨3, 18, 4, by omega, by simp [hsingle], rfl, rfl, rfl, hlarge.1, hlarge.2, ?_⟩
      rw [← Option.some.inj h, ← hfields (by omega) hlarge.1]
    · cases h

/-- The streams are decoded to the literals by every table that reads the codes. -/
def HuffTable.Decodes (t : HuffTable) (reload single : Bool) (streams lits : List UInt8) : Prop :=
  ∀ u dst, t.ReadBy u → dst.length = lits.length →
    u.decodeStreams reload single dst streams = .ok lits

/-- Coded literals are read back. -/
theorem decodeLiterals_coded {reload single : Bool} (ht : t.Canonical)
    {lits streams header : List UInt8} (hstreams : t.Decodes reload single streams lits)
    (hheader : compressedLiteralHeader lits.length (huffWeightBytes t ++ streams).length single
      = some header)
    (hlen : single = false → 6 ≤ lits.length) {d : Decoder} (hmax : lits.length ≤ d.blockMax)
    (rest : List UInt8) :
  ∃ d', d.decodeLiterals reload (header ++ (huffWeightBytes t ++ streams) ++ rest)
      = .ok (lits, (header ++ (huffWeightBytes t ++ streams)).length, d')
    ∧ d.Steady d' ∧ d'.rep = d.rep
  := by
  obtain ⟨format, k, n, hformat, hsingle, hk, hn, hkn, hregen, hcomp, hbytes⟩ :=
    compressedLiteralHeader_eq hheader
  have hfour : format ≠ 0 → 6 ≤ lits.length := fun h =>
    hlen (Bool.eq_false_iff.mpr fun hs => h (hsingle.mpr hs))
  generalize hbody : huffWeightBytes t ++ streams = body at *
  set v := 2 + 4 * format + 16 * lits.length + 2 ^ (4 + k) * body.length with hv
  have hvk : 2 + 4 * format + 16 * lits.length < 2 ^ (4 + k) := by
    rw [pow_add]
    omega
  have hvlt : v < 2 ^ (8 * (n + 1)) := by
    rw [hkn, pow_add _ (4 + k)]
    have := mul_le_mul_left (2 ^ (4 + k)) (show body.length + 1 ≤ 2 ^ k from hcomp)
    rw [mul_add] at this
    omega
  have hlenh : header.length = n + 1 := by rw [hbytes, length_leBytes]
  -- the first byte has the type and the format
  have hfirst :
      header ++ body ++ rest = UInt8.ofNat v :: (leBytes n (v / 256) ++ body ++ rest) := by
    rw [hbytes]
    rfl
  have hbyte : v % 2 ^ 8 % 4 = 2 ∧ v % 2 ^ 8 / 4 % 4 = format := by
    have hdvd : 2 ^ (4 + k) * body.length % 16 = 0 := by
      rw [pow_add, mul_assoc]
      omega
    omega
  have hlow : (UInt8.ofNat v).toNat &&& 3 = 2 := by
    have hand := and_two_pow_sub_one_eq_mod (v % 2 ^ 8) 2
    exact hand.trans hbyte.1
  have hfmt : (UInt8.ofNat v).toNat >>> 2 &&& 3 = format := by
    exact (shiftRight_and_mask (v % 2 ^ 8) 2 2).trans hbyte.2
  have hsize : leNat ((header ++ body ++ rest).take (n + 1)) = v := by
    rw [← hlenh, append_assoc, take_left, hbytes, leNat_leBytes, mod_eq_of_lt hvlt]
  have hregen' : v >>> 4 &&& (2 ^ k - 1) = lits.length := by
    have hdiv : v / 2 ^ 4 = lits.length + 2 ^ k * body.length := by
      rw [hv, pow_add, mul_assoc]
      omega
    rw [shiftRight_and_mask, hdiv, add_mul_mod_self_left, mod_eq_of_lt hregen]
  have hcomp' : v >>> (4 + k) = body.length := by
    rw [shiftRight_eq_div_pow, add_mul_div_left _ _ (by positivity), div_eq_of_lt hvk, zero_add]
  obtain ⟨u, w, htable, hread⟩ := ht.readHuffTable_eq reload d streams
  rw [hbody] at htable
  set d₁ : Decoder := { d with weights := w, huff := u, huffValid := true } with hd₁
  obtain ⟨buffer, l, hbuffer, hbuflen⟩ := Decoder.literalBuffer_ok (d := d₁) hmax
  have hbodySlice := slice_append (ε := Err) header body rest
  rw [hlenh, ← append_assoc] at hbodySlice
  have hstreamSlice := slice_append_right (ε := Err) (huffWeightBytes t) streams
  rw [hbody] at hstreamSlice
  refine ⟨{ d₁ with lits := l }.putLiterals lits, ?_, ⟨rfl, rfl, rfl, rfl, rfl, rfl⟩, rfl⟩
  rw [hfirst, Decoder.decodeLiterals, if_neg (by rw [hlow]; omega), ← hfirst, Decoder.codedLiterals]
  simp only [hfmt, hk, hn, hlow, hsize, hregen', hcomp']
  rw [if_neg (by simp [hlenh]; omega), if_neg (by simp [hlenh]; omega), hbodySlice, ok_bind,
    Decoder.literalsTable, if_pos rfl, htable, ok_bind, ok_bind]
  rw [hstreamSlice, ok_bind, hbuffer, ok_bind]
  have hdecode := hstreams u buffer hread hbuflen
  have hdecide : decide (format = 0) = single := by
    rw [Bool.eq_iff_iff, decide_eq_true_iff]
    exact hsingle
  rw [hdecide, hdecode, ok_bind, length_append, hlenh]

/-! ### The literals section -/

def minHuffLiterals : ℕ := 32
def fourStreamLiterals : ℕ := 1024

/-- `litCounts[c]++` -/
def countByte (counts : List ℕ) (c : UInt8) : List ℕ :=
  counts.set c.toNat ((counts.getD c.toNat 0 + 1) % 2 ^ 32)

/-- The counts, with the bytes of `l` added. -/
def countBytes (counts : List ℕ) (l : List UInt8) : List ℕ := l.foldl countByte counts

/-- The counts of no bytes. -/
def noCounts : List ℕ := List.replicate 256 0

def appendRawLiterals (dst lits : List UInt8) : List UInt8 :=
  appendLiteralHeader dst lits.length 0 ++ lits

/-- The description of the code and the streams, unless the jump table cannot state a size. -/
def huffBody (t : HuffTable) (lits : List UInt8) : Go Err (Option (List UInt8)) :=
  let body := appendHuffWeights [] t
  if lits.length < fourStreamLiterals then
    .ok (some (appendHuffStream body lits t))
  else
    appendStreams t ((lits.length + 3) / 4) body.length 4 0 lits (body ++ List.replicate 6 0)

/-- The literals coded with `t`, where that is shorter than storing them. -/
def appendHuffLiterals (dst lits : List UInt8) (t : HuffTable) : Go Err (List UInt8) := do
  match ← huffBody t lits with
  | none => .ok (appendRawLiterals dst lits)
  | some body =>
    match compressedLiteralHeader lits.length body.length (lits.length < fourStreamLiterals) with
    | none => .ok (appendRawLiterals dst lits)
    | some header =>
      if literalHeaderSize lits.length + lits.length ≤ header.length + body.length then
        .ok (appendRawLiterals dst lits)
      else
        .ok (dst ++ (header ++ body))

/-- `appendLiterals`, given the counts if they have been taken. -/
def appendLiterals (dst lits : List UInt8) (counted : Option (List ℕ)) : Go Err (List UInt8) :=
  match lits with
  | [] => .ok (appendLiteralHeader dst 0 0)
  | c :: _ =>
    let counts := counted.getD (countBytes noCounts lits)
    if counts.getD c.toNat 0 = lits.length then
      .ok (appendLiteralHeader dst lits.length 1 ++ [c])
    else if lits.length < minHuffLiterals then
      .ok (appendRawLiterals dst lits)
    else do
      match ← buildHuffTable counts lits.length with
      | none => .ok (appendRawLiterals dst lits)
      | some t => appendHuffLiterals dst lits t

theorem getD_countByte (hlen : counts.length = 256) (c s : UInt8) :
  (countByte counts c).getD s.toNat 0
    = if s = c then (counts.getD s.toNat 0 + 1) % 2 ^ 32 else counts.getD s.toNat 0
  := by
  have hlt := c.toNat_lt
  rw [countByte, getD_eq_getElem?_getD, getElem?_set]
  by_cases hc : s = c
  · rw [if_pos hc, if_pos (by rw [hc]), if_pos (by omega), hc]
    rfl
  · have hne : c.toNat ≠ s.toNat := fun heq => hc (UInt8.toNat_inj.mp heq.symm)
    rw [if_neg hc, if_neg hne, getD_eq_getElem?_getD]

theorem getD_countBytes (hlen : counts.length = 256) (l : List UInt8) (s : UInt8)
    (hfits : counts.getD s.toNat 0 + l.length < 2 ^ 32) :
  (countBytes counts l).getD s.toNat 0 = counts.getD s.toNat 0 + l.count s
  := by
  induction l generalizing counts with
  | nil => simp [countBytes]
  | cons c l ih =>
    have hbyte := getD_countByte hlen c s
    rw [length_cons] at hfits
    have hlen' : (countByte counts c).length = 256 := by rw [countByte, length_set, hlen]
    rw [countBytes, foldl_cons, ← countBytes, ih hlen' (by rw [hbyte]; split <;> omega),
      hbyte, count_cons]
    by_cases hc : s = c
    · rw [if_pos hc, if_pos (by simp [hc])]
      omega
    · rw [if_neg hc, if_neg (by simpa using fun heq => hc heq.symm), add_zero]

theorem getD_countBytes_noCounts {l : List UInt8} (hlen : l.length < 2 ^ 32) (s : UInt8) :
  (countBytes noCounts l).getD s.toNat 0 = l.count s
  := by
  have hs := s.toNat_lt
  have hzero : noCounts.getD s.toNat 0 = 0 := by
    rw [noCounts, getD_eq_getElem?_getD, getElem?_replicate_of_lt (by omega)]
    rfl
  have hsize : noCounts.length = 256 := length_replicate ..
  rw [getD_countBytes hsize l s (by rw [hzero]; omega), hzero, zero_add]

/-- The bytes of a section, whatever follows them, are decoded to the literals. -/
def LiteralsRead (reload : Bool) (lits bytes : List UInt8) : Prop :=
  ∀ (d : Decoder) (rest : List UInt8), lits.length ≤ d.blockMax →
    ∃ d', d.decodeLiterals reload (bytes ++ rest) = .ok (lits, bytes.length, d')
      ∧ d.Steady d' ∧ d'.rep = d.rep

/-- Literals that are stored. -/
theorem appendRawLiterals_read (reload : Bool) (hlen : lits.length < 2 ^ 20) :
  LiteralsRead reload lits (literalHeader lits.length 0 ++ lits)
  := by
  intro d rest hmax
  obtain ⟨b, l, hheader, htype, hplain⟩ :=
    plainHeader_literalHeader hlen (show 0 < 2 by omega) (lits ++ rest)
  have hsize := length_literalHeader hlen (show 0 < 4 by omega)
  have hslice := slice_append (ε := Err) (literalHeader lits.length 0) lits rest
  refine ⟨d, ?_, Decoder.Steady.refl d, rfl⟩
  rw [hsize] at hslice
  rw [append_assoc]
  rw [hheader] at hslice ⊢
  rw [cons_append, Decoder.decodeLiterals, if_pos (by rw [htype]; omega), ← cons_append,
    Decoder.plainLiterals, hplain, ok_bind]
  dsimp only
  rw [if_neg (by omega), if_pos htype, if_neg (by rw [← hsize, hheader]; simp; omega), hslice,
    ok_bind, ← hsize, hheader, ← length_append]

/-- A byte that is repeated. -/
theorem repeatedByte_read (reload : Bool) (c : UInt8) {n : ℕ} (hn : n < 2 ^ 20) :
  LiteralsRead reload (List.replicate n c) (literalHeader n 1 ++ [c])
  := by
  intro d rest hmax
  rw [length_replicate] at hmax
  obtain ⟨b, l, hheader, htype, hplain⟩ :=
    plainHeader_literalHeader hn (show 1 < 2 by omega) ([c] ++ rest)
  have hsize := length_literalHeader hn (show 1 < 4 by omega)
  obtain ⟨buffer, lits, hbuffer, hbuflen⟩ := Decoder.literalBuffer_ok hmax
  refine ⟨{ d with lits := lits }.putLiterals (replicate n c), ?_,
    ⟨rfl, rfl, rfl, rfl, rfl, rfl⟩, rfl⟩
  have hidx : (literalHeader n 1 ++ ([c] ++ rest))[literalHeaderSize n]? = some c := by
    rw [← hsize, getElem?_append_right le_rfl, Nat.sub_self]
    rfl
  rw [append_assoc]
  rw [hheader] at hidx ⊢
  rw [cons_append, Decoder.decodeLiterals, if_pos (by rw [htype]; omega), ← cons_append,
    Decoder.plainLiterals, hplain, ok_bind]
  dsimp only
  rw [if_neg (by omega), if_neg (by rw [htype]; omega), hbuffer, ok_bind]
  rw [idx_eq_ok hidx, ok_bind, map_const', hbuflen, ← hsize, hheader]
  simp

/-- The streams after the description of the code. -/
theorem huffBody_ok (reload : Bool) (ht : t.Canonical) (hcovers : t.Covers lits) :
  huffBody t lits = .ok none
    ∨ ∃ streams, huffBody t lits = .ok (some (huffWeightBytes t ++ streams))
      ∧ t.Decodes reload (lits.length < fourStreamLiterals) streams lits
  := by
  obtain ⟨u, -, hu⟩ := ht.readBy_build (⟨Vector.replicate 2048 ⟨0, 0⟩, 0⟩ : HuffDecTable)
  rw [huffBody]
  by_cases hsingle : lits.length < fourStreamLiterals
  · obtain ⟨stream, hstream, hcodes⟩ := hu.appendHuffStream_eq hcovers (appendHuffWeights [] t)
    refine .inr ⟨stream, ?_, ?_⟩
    · rw [if_pos hsingle, hstream]
      rfl
    intro u' dst hu' hdst
    obtain ⟨br, hinit, hlits⟩ := hu'.streamLiterals_eq reload hcovers hcodes
    rw [decide_eq_true hsingle, HuffDecTable.decodeStreams, if_pos rfl,
      HuffDecTable.decodeStream_eq hu'.wf, hinit, ok_bind, hdst, hlits]
  have hlen : 1024 ≤ lits.length := Nat.le_of_not_lt hsingle
  rcases hu.appendStreams_eq ((lits.length + 3) / 4) (appendHuffWeights [] t)
    (show 0 + 4 = 4 from rfl) hcovers (a := []) (z := replicate 6 0) rfl rfl
    with hnone | ⟨ss, hss, hsizes, hsome⟩
  · refine .inl ?_
    rw [if_neg hsingle]
    simpa using hnone
  refine .inr ⟨jumpTable ss ++ ss.flatten, ?_, ?_⟩
  · rw [if_neg hsingle]
    simpa [appendHuffWeights] using hsome
  intro u' dst hu' hdst
  rw [decide_eq_false hsingle, HuffDecTable.decodeStreams, if_neg (by simp),
    HuffDecTable.decode4_eq reload hu'.wf, hdst, hu'.fourStreams_eq reload hcovers (by omega)
    hss hsizes]

/-- The literals section is read back. -/
theorem appendLiterals_read (reload : Bool) (hlen : lits.length < 2 ^ 20)
    {counted : Option (List ℕ)} (hcounted : ∀ counts ∈ counted, counts = countBytes noCounts lits)
    (dst : List UInt8) :
  ∃ bytes, appendLiterals dst lits counted = .ok (dst ++ bytes) ∧ LiteralsRead reload lits bytes
  := by
  have hraw : (.ok (appendRawLiterals dst lits) : Go Err (List UInt8))
      = .ok (dst ++ (literalHeader lits.length 0 ++ lits)) := by
    rw [appendRawLiterals, appendLiteralHeader, append_assoc]
  cases lits with
  | nil =>
    refine ⟨literalHeader 0 0, rfl, ?_⟩
    simpa using appendRawLiterals_read reload hlen
  | cons c l =>
    have hcounts : counted.getD (countBytes noCounts (c :: l)) = countBytes noCounts (c :: l) := by
      cases counted with
      | none => rfl
      | some counts => exact hcounted counts rfl
    rw [appendLiterals, hcounts]
    generalize hlits : c :: l = lits at *
    split
    · rename_i hsame
      rw [getD_countBytes_noCounts (by omega), count_eq_length] at hsame
      have heq : lits = replicate lits.length c :=
        eq_replicate_iff.mpr ⟨rfl, fun b hb => (hsame b hb).symm⟩
      refine ⟨literalHeader lits.length 1 ++ [c], ?_, ?_⟩
      · rw [appendLiteralHeader, append_assoc]
      · have := repeatedByte_read reload c hlen
        rwa [← heq] at this
    split
    · exact ⟨_, hraw, appendRawLiterals_read reload hlen⟩
    rename_i hmin
    rw [minHuffLiterals] at hmin
    obtain ⟨r, hr, htable⟩ := buildHuffTable_ok (countBytes noCounts lits) lits.length
    rw [hr, ok_bind]
    cases r with
    | none => exact ⟨_, hraw, appendRawLiterals_read reload hlen⟩
    | some t =>
      obtain ⟨ht, hcode⟩ := htable t rfl
      have hcovers : t.Covers lits := by
        intro b hb
        apply hcode b
        rw [getD_countBytes_noCounts (by omega)]
        exact ne_of_gt (count_pos_iff.mpr hb)
      dsimp only
      rw [appendHuffLiterals]
      rcases huffBody_ok reload ht hcovers with hnone | ⟨streams, hsome, hstreams⟩
      · rw [hnone]
        exact ⟨_, hraw, appendRawLiterals_read reload hlen⟩
      rw [hsome, ok_bind]
      dsimp only
      split
      · exact ⟨_, hraw, appendRawLiterals_read reload hlen⟩
      rename_i header hheader
      split
      · exact ⟨_, hraw, appendRawLiterals_read reload hlen⟩
      refine ⟨_, rfl, ?_⟩
      intro d rest hmax
      exact decodeLiterals_coded ht hstreams hheader (fun _ => by omega) hmax rest

/-- What a table that `buildHuffTable` fits to literals is good for: its lengths meet the Kraft
equality within the limit, its weights are read back as the same code, and the literals coded with
it, in one stream or four and under a header of any width, are decoded exactly, as is what
`appendLiterals` writes. -/
theorem huffman_literals (reload : Bool) {lits : List UInt8} {t : HuffTable}
    (hcounts : lits.length < 2 ^ 32)
    (hbuild : buildHuffTable (countBytes noCounts lits) lits.length = .ok (some t)) :
  (codeMass t.bits = 1 ∧ ∀ s, t.bits.getD s 0 ≤ maxHuffBits)
    ∧ (∀ (d : Decoder) rest, ∃ u w, d.readHuffTable reload (appendHuffWeights [] t ++ rest)
        = .ok ((appendHuffWeights [] t).length, { d with weights := w, huff := u }) ∧ t.ReadBy u)
    ∧ (∃ body, huffBody t lits = .ok body)
    ∧ (∀ body header, huffBody t lits = .ok (some body) →
        compressedLiteralHeader lits.length body.length (lits.length < fourStreamLiterals)
          = some header → LiteralsRead reload lits (header ++ body))
    ∧ (lits.length < 2 ^ 20 → ∀ dst, ∃ bytes, appendLiterals dst lits none = .ok (dst ++ bytes)
        ∧ LiteralsRead reload lits bytes)
  := by
  obtain ⟨r, hr, htable⟩ := buildHuffTable_ok (countBytes noCounts lits) lits.length
  obtain ⟨ht, hcode⟩ := htable t (Except.ok.inj (hr.symm.trans hbuild))
  have hcovers : t.Covers lits := by
    intro b hb
    apply hcode b
    rw [getD_countBytes_noCounts hcounts]
    exact ne_of_gt (count_pos_iff.mpr hb)
  have hbody := huffBody_ok reload ht hcovers
  refine ⟨⟨?_, fun s => ?_⟩, fun d rest => ht.readHuffTable_eq reload d rest, ?_, ?_, ?_⟩
  · rw [← codeMass_take fun s hs => ht.above s hs]
    exact ht.codes.mass
  · by_cases hs : t.bits.getD s 0 = 0
    · rw [hs]
      exact zero_le _
    · obtain ⟨l, m, hsplit, -⟩ := ht.split hs
      have hmem : t.bits.getD s 0 ∈ t.bits.take (t.max + 1) := by simp [hsplit]
      exact (ht.codes.le _ hmem).trans ht.codes.maxBit_le
  · rcases hbody with hnone | ⟨streams, hsome, -⟩
    · exact ⟨none, hnone⟩
    · exact ⟨_, hsome⟩
  · intro body header hsome hheader d rest hmax
    rcases hbody with hnone | ⟨streams, hstreams, hdecodes⟩
    · exact absurd (hnone.symm.trans hsome) (by simp)
    obtain rfl := Option.some.inj (Except.ok.inj (hstreams.symm.trans hsome))
    refine decodeLiterals_coded ht hdecodes hheader (fun hfour => ?_) hmax rest
    have hge : 1024 ≤ lits.length := Nat.le_of_not_lt (of_decide_eq_false hfour)
    omega
  · intro hlen dst
    exact appendLiterals_read reload hlen (by simp) dst

/-- The bytes 0 and 1, each in one bit.  A section with their table and code is read back, and so is
the one that is written, in which they are stored. -/
theorem huffman_literals_two :
  let t : HuffTable := ⟨[1, 1] ++ List.replicate 254 0, [0, 1] ++ List.replicate 254 0, 1, 1⟩
  buildHuffTable (countBytes noCounts [0, 1]) 2 = .ok (some t)
    ∧ (codeMass t.bits = 1 ∧ ∀ s, t.bits.getD s 0 ≤ maxHuffBits)
    ∧ (∃ u w, Decoder.new.readHuffTable true [128, 16]
        = .ok (2, { Decoder.new with weights := w, huff := u }) ∧ t.ReadBy u)
    ∧ huffBody t [0, 1] = .ok (some [128, 16, 5])
    ∧ LiteralsRead true [0, 1] [34, 192, 0, 128, 16, 5]
    ∧ appendLiterals [] [0, 1] none = .ok [16, 0, 1] ∧ LiteralsRead true [0, 1] [16, 0, 1]
  := by
  intro t
  have hbuild : buildHuffTable (countBytes noCounts [0, 1]) 2 = .ok (some t) := by
    decide +kernel
  have hbody : huffBody t [0, 1] = .ok (some [128, 16, 5]) := by decide +kernel
  have hwritten : appendLiterals [] [0, 1] none = .ok [16, 0, 1] := by decide +kernel
  obtain ⟨hcode, hread, -, hcoded, happend⟩ := huffman_literals true (by decide) hbuild
  have hweights : appendHuffWeights [] t = [128, 16] := by decide +kernel
  rw [hweights] at hread
  obtain ⟨bytes, hbytes, hliterals⟩ := happend (by decide) []
  cases hwritten.symm.trans hbytes
  exact ⟨hbuild, hcode, hread Decoder.new [], hbody, hcoded _ [34, 192, 0] hbody (by decide),
    hwritten, hliterals⟩

end Zstd
