import TinyGoDriver.Zstd.HuffCodes
import TinyGoDriver.Zstd.Literals

/-!
# Writing Huffman-coded literals

A stream is written from its last literal to its first, and read from its end.  The codes on the
stream therefore stand in the order of the literals (`appendHuffStream_eq`), and reading them one
after the other gives the literals (`streamLiterals_eq`).  Large literals are cut into four streams,
whose sizes stand in front of them (`fourStreams_eq`), and the weights of the symbols tell the
decoder which code it is (`readHuffTable_eq`).
-/

namespace Zstd

open GoRt BitStack BackReader List

/-! ### Streams -/

/-- The loop of `appendHuffStream`, on the literals from the last one on. -/
def addCodes (t : HuffTable) : List UInt8 → BitWriter → BitWriter
  | c₀ :: c₁ :: rest, bw =>
    addCodes t rest
      ((bw.addBits (t.code c₀).1 (t.code c₀).2).addBits (t.code c₁).1 (t.code c₁).2).flush32
  | [c], bw => bw.addBits (t.code c).1 (t.code c).2
  | [], bw => bw

def appendHuffStream (dst lits : List UInt8) (t : HuffTable) : List UInt8 :=
  (addCodes t lits.reverse (.new dst)).close

variable {S : List (ℕ × ℕ)}

theorem BitWriter.Wrote.addBits {b : BitWriter} {dst : List UInt8} {f : ℕ × ℕ}
    (h : b.Wrote dst (num S) (width S)) (hf : f.1 < 2 ^ f.2) (hroom : b.nBits + f.2 ≤ 64)
    (hbits : b.nBits < 64) :
  (b.addBits f.1 f.2).Wrote dst (num (f :: S)) (width (f :: S))
    ∧ (b.addBits f.1 f.2).nBits = b.nBits + f.2
  := by
  have := h.push f.1 hroom hbits
  rwa [Nat.mod_eq_of_lt hf] at this

/-- The literals have codes. -/
def HuffTable.Covers (t : HuffTable) (lits : List UInt8) : Prop := ∀ c ∈ lits, (t.code c).2 ≠ 0

/-- The bytes hold the codes of the literals and the end marker. -/
def HuffTable.Stream (t : HuffTable) (lits bytes : List UInt8) : Prop :=
  leNat bytes = num (lits.map t.code) + 2 ^ width (lits.map t.code)
    ∧ bytes.length = width (lits.map t.code) / 8 + 1

namespace HuffTable.ReadBy

variable {t : HuffTable} {u : HuffDecTable} (h : t.ReadBy u) {lits : List UInt8} {br : BackReader}

include h

theorem length_le_eleven (c : UInt8) : (t.code c).2 ≤ 11 := by
  have h₁ := h.length_le c
  have h₂ : u.maxBits ≤ 11 := h.wf.maxBits_le
  rw [h.maxBits_eq] at h₂
  omega

theorem addCodes_wrote {b : BitWriter} {dst : List UInt8} (hcovers : t.Covers lits)
    (hb : b.Wrote dst (num S) (width S)) (hbits : b.nBits < 32) :
  (addCodes t lits b).Wrote dst (num ((lits.map t.code).reverse ++ S))
      (width ((lits.map t.code).reverse ++ S))
    ∧ (addCodes t lits b).nBits < 64
  := by
  fun_induction addCodes t lits b generalizing S with
  | case1 c₀ c₁ rest b ih =>
    have hc₀ := hcovers c₀ (by simp)
    have hc₁ := hcovers c₁ (by simp)
    have hle₀ := h.length_le_eleven c₀
    have hle₁ := h.length_le_eleven c₁
    obtain ⟨hb₀, hn₀⟩ := hb.addBits (h.code_lt c₀ hc₀) (by omega) (by omega)
    obtain ⟨hb₁, hn₁⟩ := hb₀.addBits (h.code_lt c₁ hc₁) (by omega) (by omega)
    obtain ⟨hb₂, hn₂⟩ := hb₁.flush (by omega)
    obtain ⟨hrest, hnrest⟩ := ih (fun c hc => hcovers c (by simp [hc])) hb₂ (by omega)
    refine ⟨?_, hnrest⟩
    simpa using hrest
  | case2 c b =>
    have hc := hcovers c (by simp)
    have hle := h.length_le_eleven c
    obtain ⟨hb', hn⟩ := hb.addBits (h.code_lt c hc) (by omega) (by omega)
    exact ⟨hb', by omega⟩
  | case3 b => exact ⟨hb, by omega⟩

/-- What is written for a stream. -/
theorem appendHuffStream_eq (hcovers : t.Covers lits) (dst : List UInt8) :
  ∃ bytes, appendHuffStream dst lits t = dst ++ bytes ∧ t.Stream lits bytes
  := by
  have hcovers' : t.Covers lits.reverse := fun c hc => hcovers c (mem_reverse.mp hc)
  obtain ⟨hb, hn⟩ := h.addCodes_wrote (S := []) hcovers' (BitWriter.wrote_new dst)
    (Nat.zero_lt_succ _)
  rw [append_nil, map_reverse, reverse_reverse] at hb
  exact hb.close hn

theorem fits (hcovers : t.Covers lits) :
  BitStack.Fits (lits.map t.code)
  := by
  intro f hf
  obtain ⟨c, hc, rfl⟩ := mem_map.mp hf
  exact h.code_lt c (hcovers c hc)

/-- The entry for the code that a reader stands on. -/
theorem entryAt_eq {c : UInt8} (hc : (t.code c).2 ≠ 0) (hbr : br.Stands (t.code c :: S)) :
  u.entryAt (leNat br.inp) br.left = ⟨c, (t.code c).2⟩
  := by
  have htop : readAt (leNat br.inp) br.left t.maxBit / 2 ^ (t.maxBit - (t.code c).2)
      = (t.code c).1 := by
    rw [readAt_div _ (h.length_le c)]
    exact hbr.readAt_eq
  rw [HuffDecTable.entryAt, h.maxBits_eq, getD_eq_getElem?_getD, h.slot c hc _ htop]
  rfl

/-- The literals that a reader stands on. -/
theorem literalsAt_eq (hcovers : t.Covers lits) (hbr : br.Stands (lits.map t.code ++ S)) :
  u.literalsAt (leNat br.inp) lits.length br.left = lits
    ∧ u.posAfter (leNat br.inp) lits.length br.left = width S
  := by
  induction lits generalizing br with
  | nil => exact ⟨rfl, hbr.left_eq⟩
  | cons c lits ih =>
    have hentry := h.entryAt_eq (hcovers c (by simp)) hbr
    obtain ⟨hlits, hpos⟩ := ih (fun c' hc' => hcovers c' (by simp [hc'])) hbr.skip
    rw [left_skip] at hlits hpos
    rw [length_cons, HuffDecTable.literalsAt, HuffDecTable.posAfter, hentry]
    exact ⟨congrArg (c :: ·) hlits, hpos⟩

/-- A stream gives its literals. -/
theorem streamLiterals_eq (reload : Bool) {lits bytes : List UInt8} (hcovers : t.Covers lits)
    (hstream : t.Stream lits bytes) :
  ∃ br, BackReader.init reload bytes = .ok br ∧ u.streamLiterals lits.length br = .ok lits
  := by
  obtain ⟨br, hinit, hbr, -, -⟩ := init_stands reload (h.fits hcovers) hstream.1 hstream.2
  obtain ⟨hlits, hpos⟩ := h.literalsAt_eq hcovers (by rwa [append_nil])
  refine ⟨br, hinit, ?_⟩
  rw [HuffDecTable.streamLiterals, hpos, hlits]
  rfl

end HuffTable.ReadBy

/-! ### The description of the code -/

/-- The header byte and the weights, two to a byte. -/
def huffWeightBytes (t : HuffTable) : List UInt8 :=
  UInt8.ofNat (127 + t.max) :: (List.range ((t.max + 1) / 2)).map (fun j =>
    UInt8.ofNat (huffWeight t (2 * j) <<< 4
      ||| if 2 * j + 1 < t.max then huffWeight t (2 * j + 1) else 0))

def appendHuffWeights (dst : List UInt8) (t : HuffTable) : List UInt8 := dst ++ huffWeightBytes t

theorem length_huffWeightBytes (t : HuffTable) :
  (huffWeightBytes t).length = 1 + (t.max + 1) / 2
  := by
  rw [huffWeightBytes, length_cons, length_map, length_range, Nat.add_comm]

namespace HuffTable.Canonical

variable {t : HuffTable} (h : t.Canonical)

include h

theorem huffWeight_lt (s : ℕ) :
  huffWeight t s < 16
  := by
  have hmax : t.maxBit ≤ 11 := h.codes.maxBit_le
  rw [h.huffWeight_eq, weightOf]
  split <;> omega

/-- The decoder reads the weights. -/
theorem directWeights_eq (rest : List UInt8) :
  directWeights (huffWeightBytes t ++ rest) t.max = .ok ((List.range t.max).map (huffWeight t))
  := by
  rw [directWeights]
  apply mapM_eq_map
  intro i hi
  rw [mem_range] at hi
  have hw := h.huffWeight_lt (2 * (i / 2))
  have hw' := h.huffWeight_lt (2 * (i / 2) + 1)
  have hbyte : (huffWeightBytes t ++ rest)[1 + i / 2]?
      = some (UInt8.ofNat (huffWeight t (2 * (i / 2)) <<< 4
        ||| if 2 * (i / 2) + 1 < t.max then huffWeight t (2 * (i / 2) + 1) else 0)) := by
    rw [getElem?_append_left (by rw [length_huffWeightBytes]; omega), huffWeightBytes,
      Nat.add_comm 1, getElem?_cons_succ, getElem?_map, getElem?_range (by omega)]
    rfl
  rw [idx_eq_ok hbyte, ok_bind, UInt8.toNat_ofNat', Nat.or_comm, or_shiftLeft (by split <;> omega)]
  congr 1
  split
  · rw [show 2 * (i / 2) = i by omega] at hw hw' ⊢
    split <;> omega
  have hand := Nat.and_two_pow_sub_one_eq_mod
    ((huffWeight t (2 * (i / 2) + 1) + 2 ^ 4 * huffWeight t (2 * (i / 2))) % 2 ^ 8) 4
  rw [show 2 * (i / 2) + 1 = i by omega] at hw' hand ⊢
  rw [if_pos hi]
  change _ &&& (2 ^ 4 - 1) = _
  omega

/-- The decoder's table, from the description. -/
theorem readHuffTable_eq (reload : Bool) (d : Decoder) (rest : List UInt8) :
  ∃ u w, d.readHuffTable reload (huffWeightBytes t ++ rest)
      = .ok ((huffWeightBytes t).length, { d with weights := w, huff := u }) ∧ t.ReadBy u
  := by
  obtain ⟨u, hu, hread⟩ := h.readBy_build d.huff
  have hmax : t.max ≤ 128 := h.max_le
  have hpos := h.max_pos
  have hlen := length_huffWeightBytes t
  obtain ⟨w, hw, -⟩ := writeFrom_eq d.weights
    (show 0 + ((range t.max).map (huffWeight t)).length ≤ 255 by simp; omega)
  refine ⟨u, w, ?_, hread⟩
  have hhead : (huffWeightBytes t ++ rest)[0]? = some (UInt8.ofNat (127 + t.max)) := rfl
  have hcount : (UInt8.ofNat (127 + t.max)).toNat - 127 = t.max := by
    rw [UInt8.toNat_ofNat']
    omega
  rw [Decoder.readHuffTable, if_neg (by simp [huffWeightBytes]), Decoder.readWeights,
    idx_eq_ok hhead, ok_bind]
  dsimp only
  rw [if_pos (by rw [UInt8.toNat_ofNat']; omega), hcount, if_neg (by simp; omega),
    Decoder.readDirectWeights, h.directWeights_eq, ok_bind, hw, ok_bind, ok_bind, ok_bind]
  rw [hu, ok_bind, hlen]

end HuffTable.Canonical

/-! ### Four streams -/

/-- `litBody[jump+i*2]` and the byte after it. -/
def setJump (body : List UInt8) (jump i size : ℕ) : Go Err (List UInt8) := do
  let body ← setAt body (jump + i * 2) (UInt8.ofNat size)
  setAt body (jump + i * 2 + 1) (UInt8.ofNat (size >>> 8))

/-- The loop over the four streams, of which `k` are left.  It ends without a result when the jump
table cannot state a size. -/
def appendStreams (t : HuffTable) (segment jump : ℕ) :
    ℕ → ℕ → List UInt8 → List UInt8 → Go Err (Option (List UInt8))
  | 0, _, _, body => .ok (some body)
  | k + 1, i, rest, body => do
    let coded := appendHuffStream body (rest.take segment) t
    let size := coded.length - body.length
    if 0xFFFF < size then
      .ok none
    else do
      let body ← if i < 3 then setJump coded jump i size else .ok coded
      appendStreams t segment jump k (i + 1) (rest.drop segment) body

/-- The first `k` parts of the literals. -/
def parts (segment : ℕ) : ℕ → List UInt8 → List (List UInt8)
  | 0, _ => []
  | k + 1, rest => rest.take segment :: parts segment k (rest.drop segment)

/-- The sizes of all streams but the last. -/
def jumpTable : List (List UInt8) → List UInt8
  | [] => []
  | [_] => []
  | s :: ss => leBytes 2 s.length ++ jumpTable ss

theorem flatten_parts (segment k : ℕ) (lits : List UInt8) :
  (parts segment k lits).flatten = lits.take (k * segment)
  := by
  induction k generalizing lits with
  | zero => simp [parts]
  | succ k ih => rw [parts, flatten_cons, ih, ← take_add, Nat.succ_mul, Nat.add_comm]

theorem setJump_eq {pre a z s : List UInt8} {i : ℕ} (ha : a.length = 2 * i) (b c : UInt8)
    (size : ℕ) :
  setJump (pre ++ (a ++ b :: c :: z) ++ s) pre.length i size
    = .ok (pre ++ (a ++ leBytes 2 size ++ z) ++ s)
  := by
  have h₀ : pre.length + i * 2 = (pre ++ a).length := by
    rw [length_append]
    omega
  have h₁ : ∀ b', pre.length + i * 2 + 1 = (pre ++ a ++ [b']).length := by
    intro b'
    rw [length_append, ← h₀]
    rfl
  have hsplit : pre ++ (a ++ b :: c :: z) ++ s = pre ++ a ++ b :: (c :: z ++ s) := by simp
  rw [setJump, setAt_of_lt _ _ (by simp [ha]; omega), ok_bind, hsplit, h₀, set_append_right _ _
    le_rfl, Nat.sub_self, set_cons_zero, ← h₀, setAt_of_lt _ _ (by simp [ha]; omega)]
  have hsplit' : pre ++ a ++ UInt8.ofNat size :: (c :: z ++ s)
      = pre ++ a ++ [UInt8.ofNat size] ++ c :: (z ++ s) := by simp
  rw [hsplit', h₁, set_append_right _ _ le_rfl, Nat.sub_self]
  simp [leBytes, Nat.shiftRight_eq_div_pow]

namespace HuffTable.ReadBy

variable {t : HuffTable} {u : HuffDecTable} (h : t.ReadBy u)

include h

/-- The streams of the parts, and the sizes that are filled in before them. -/
theorem appendStreams_eq (segment : ℕ) (pre : List UInt8) {k i : ℕ} (hk : i + k = 4)
    {rest a z s : List UInt8} (hcovers : t.Covers rest) (ha : a.length = 2 * min i 3)
    (hz : z.length = 2 * (3 - i)) :
  appendStreams t segment pre.length k i rest (pre ++ (a ++ z) ++ s) = .ok none
    ∨ ∃ ss, List.Forall₂ t.Stream (parts segment k rest) ss ∧ (∀ s ∈ ss, s.length < 2 ^ 16)
      ∧ appendStreams t segment pre.length k i rest (pre ++ (a ++ z) ++ s)
        = .ok (some (pre ++ (a ++ jumpTable ss) ++ (s ++ ss.flatten)))
  := by
  induction k generalizing i rest a z s with
  | zero =>
    have hz₀ : z = [] := length_eq_zero_iff.mp (by omega)
    exact .inr ⟨[], .nil, by simp, by simp [appendStreams, hz₀, jumpTable]⟩
  | succ k ih =>
    have hpart : t.Covers (rest.take segment) := fun c hc => hcovers c (mem_of_mem_take hc)
    have hrest : t.Covers (rest.drop segment) := fun c hc => hcovers c (mem_of_mem_drop hc)
    obtain ⟨stream, hstream, hcodes⟩ :=
      h.appendHuffStream_eq hpart (pre ++ (a ++ z) ++ s)
    rw [appendStreams, hstream]
    simp only [length_append, Nat.add_sub_cancel_left]
    by_cases hsize : 0xFFFF < stream.length
    · rw [if_pos hsize]
      exact .inl rfl
    rw [if_neg hsize]
    by_cases hi : i < 3
    · obtain ⟨b, c, z', rfl⟩ : ∃ b c z', z = b :: c :: z' := by
        match z, hz with
        | [], hz => simp at hz; omega
        | [_], hz => simp at hz; omega
        | b :: c :: z', _ => exact ⟨b, c, z', rfl⟩
      rw [if_pos hi, append_assoc _ s, setJump_eq (by omega), ok_bind]
      have hz' : z'.length = 2 * (3 - (i + 1)) := by
        simp only [length_cons] at hz
        omega
      rcases ih (by omega) hrest
        (show (a ++ leBytes 2 stream.length).length = 2 * min (i + 1) 3 by simp; omega)
        hz' with hnone | ⟨ss, hss, hlt, hsome⟩
      · exact .inl hnone
      refine .inr ⟨stream :: ss, .cons hcodes hss, ?_, ?_⟩
      · intro s' hs'
        rcases mem_cons.mp hs' with rfl | hs'
        · omega
        · exact hlt s' hs'
      rw [hsome]
      cases ss with
      | nil =>
        have := hss.length_eq
        have hk' : k = 0 := by
          cases k with
          | zero => rfl
          | succ k => simp [parts] at this
        omega
      | cons s' ss => simp [jumpTable]
    · have hk₀ : k = 0 := by omega
      have hz₀ : z = [] := length_eq_zero_iff.mp (by omega)
      subst hk₀ hz₀
      rw [if_neg hi, ok_bind, appendStreams]
      refine .inr ⟨[stream], .cons hcodes .nil, ?_, by simp [jumpTable]⟩
      intro s' hs'
      rw [mem_singleton.mp hs']
      omega

/-- The streams give their literals. -/
theorem openStreams_eq (reload : Bool) {ps ss : List (List UInt8)}
    (hss : List.Forall₂ t.Stream ps ss) (hcovers : ∀ p ∈ ps, t.Covers p) :
  ∃ readers, HuffDecTable.openStreams reload (ss.map (fun s => (s.length : ℤ))) ss.flatten
      = .ok readers
    ∧ (readers.zip (ps.map List.length)).mapM (fun s => u.streamLiterals s.2 s.1) = .ok ps
  := by
  induction hss with
  | nil => exact ⟨[], rfl, rfl⟩
  | @cons p s ps ss hs hss ih =>
    obtain ⟨br, hinit, hlits⟩ := h.streamLiterals_eq reload (hcovers p (by simp)) hs
    obtain ⟨readers, hreaders, hmap⟩ := ih (fun p' hp' => hcovers p' (by simp [hp']))
    refine ⟨br :: readers, ?_, ?_⟩
    · rw [map_cons, flatten_cons, HuffDecTable.openStreams, slice_append_left, ok_bind,
        hinit, ok_bind, slice_append_right, ok_bind, hreaders]
      rfl
    · rw [map_cons, zip_cons_cons, mapM_cons, hlits, hmap]
      rfl

/-- Four streams with their jump table give the literals. -/
theorem fourStreams_eq (reload : Bool) {lits : List UInt8} (hcovers : t.Covers lits)
    (hlen : 6 ≤ lits.length) {ss : List (List UInt8)}
    (hss : List.Forall₂ t.Stream (parts ((lits.length + 3) / 4) 4 lits) ss)
    (hsizes : ∀ s ∈ ss, s.length < 2 ^ 16) :
  u.fourStreams reload lits.length (jumpTable ss ++ ss.flatten) = .ok lits
  := by
  obtain ⟨s₀, s₁, s₂, s₃, rfl⟩ : ∃ s₀ s₁ s₂ s₃, ss = [s₀, s₁, s₂, s₃] := by
    have := hss.length_eq
    match ss, this with
    | [s₀, s₁, s₂, s₃], _ => exact ⟨s₀, s₁, s₂, s₃, rfl⟩
  have hflat : (parts ((lits.length + 3) / 4) 4 lits).flatten = lits := by
    rw [flatten_parts, take_of_length_le (by omega)]
  have hcounts : [(lits.length + 3) / 4, (lits.length + 3) / 4, (lits.length + 3) / 4,
      lits.length - 3 * ((lits.length + 3) / 4)]
      = (parts ((lits.length + 3) / 4) 4 lits).map length := by
    simp only [parts, map_cons, map_nil, length_take, length_drop, cons.injEq, and_true]
    omega
  have hparts : ∀ p ∈ parts ((lits.length + 3) / 4) 4 lits, t.Covers p := by
    intro p hp c hc
    apply hcovers c
    rw [← hflat]
    exact mem_flatten.mpr ⟨p, hp, hc⟩
  obtain ⟨readers, hreaders, hmap⟩ := h.openStreams_eq reload hss hparts
  have hle : ∀ s : List UInt8, leNat (leBytes 2 s.length) = s.length % 2 ^ 16 :=
    fun s => leNat_leBytes 2 s.length
  have hjump : HuffDecTable.jumpSizes (jumpTable [s₀, s₁, s₂, s₃] ++ [s₀, s₁, s₂, s₃].flatten)
      = .ok ([s₀, s₁, s₂, s₃].map (fun s => (s.length : ℤ))) := by
    have hs₀ := hsizes s₀ (by simp)
    have hs₁ := hsizes s₁ (by simp)
    have hs₂ := hsizes s₂ (by simp)
    have h₀ := leAt_append (ε := Err) [] (leBytes 2 s₀.length)
      (leBytes 2 s₁.length ++ leBytes 2 s₂.length ++ (s₀ ++ s₁ ++ s₂ ++ s₃))
    have h₁ := leAt_append (ε := Err) (leBytes 2 s₀.length) (leBytes 2 s₁.length)
      (leBytes 2 s₂.length ++ (s₀ ++ s₁ ++ s₂ ++ s₃))
    have h₂ := leAt_append (ε := Err) (leBytes 2 s₀.length ++ leBytes 2 s₁.length)
      (leBytes 2 s₂.length) (s₀ ++ s₁ ++ s₂ ++ s₃)
    rw [hle, Nat.mod_eq_of_lt hs₀] at h₀
    rw [hle, Nat.mod_eq_of_lt hs₁] at h₁
    rw [hle, Nat.mod_eq_of_lt hs₂] at h₂
    norm_num at h₀ h₁ h₂
    simp only [jumpTable, flatten_cons, flatten_nil, append_nil, append_assoc,
      HuffDecTable.jumpSizes, h₀, h₁, h₂, ok_bind, length_append, length_leBytes]
    rw [if_neg (by push_cast; omega)]
    congr 5
    push_cast
    omega
  have hbody := slice_append_right (ε := Err) (jumpTable [s₀, s₁, s₂, s₃]) [s₀, s₁, s₂, s₃].flatten
  rw [show (jumpTable [s₀, s₁, s₂, s₃]).length = 6 by simp [jumpTable], Nat.cast_ofNat] at hbody
  rw [HuffDecTable.fourStreams, if_neg (by simp [jumpTable]; omega), hjump, ok_bind]
  rw [hbody, ok_bind, hreaders, ok_bind, hcounts, hmap, ok_bind, hflat]

end HuffTable.ReadBy

end Zstd
