import TinyGoDriver.Zstd.HuffStream
import TinyGoDriver.Zstd.Xxh64

/-!
# Frames

The frame header, and `Decoder`: what the blocks of one frame share, with the working
storage that is reused from frame to frame and from call to call.  A frame is decoded in
the steps `beginFrame`, then `parseBlockHeader` and `blockDone` for each block, then
`endFrame`.
-/

namespace Zstd

open GoRt

def frameMagic : ℕ := 0xfd2fb528
def skippableMagic : ℕ := 0x184d2a50
def skippableMagicMask : ℕ := 0xfffffff0

/-- The largest content of a block. -/
def maxBlockSize : ℕ := 131072

/-- What a frame header declares. -/
structure FrameParams where
  windowSize : ℕ
  contentSize : ℕ
  hasContentSize : Bool
  checksum : Bool
  dictID : ℕ
  deriving DecidableEq, Repr, Inhabited

/-- Single_Segment_Flag of the descriptor byte `fhd`. -/
def singleSegment (fhd : ℕ) : Bool := fhd &&& 0x20 ≠ 0

/-- The size of the dictionary ID field. -/
def dictSize (fhd : ℕ) : ℕ := [0, 1, 2, 4].getD (fhd &&& 3) 0

/-- `frameHeaderSize`: the size of the header whose descriptor byte is `fhd`, the
descriptor included. -/
def frameHeaderSize (fhd : ℕ) : ℕ :=
  let n := 1 + dictSize fhd + [0, 2, 4, 8].getD (fhd >>> 6) 0
  let n := if singleSegment fhd ∧ fhd >>> 6 = 0 then n + 1 else n
  if singleSegment fhd then n else n + 1

/-- The window the descriptor `wd` stands for: an exponent and an eighths mantissa. -/
def windowOf (wd : ℕ) : ℕ :=
  let windowBase := 2 ^ (10 + wd >>> 3)
  windowBase + windowBase / 8 * (wd &&& 7)

/-- `src[1]` and the position after it, where the header has a window descriptor. -/
def readWindow (fhd : ℕ) (src : List UInt8) : Go Err (ℕ × ℕ) :=
  if singleSegment fhd then
    .ok (0, 1)
  else do
    let wd ← idx src 1
    .ok (windowOf wd.toNat, 2)

/-- `parseFrameParams`: the header after the magic number, and the bytes it took. -/
def parseFrameParams (src : List UInt8) : Go Err (FrameParams × ℕ) :=
  match src with
  | [] => .error (.fail .unexpectedEOF)
  | b :: _ =>
    let fhd := b.toNat
    let n := frameHeaderSize fhd
    if src.length < n then
      .error (.fail .unexpectedEOF)
    else if fhd &&& 8 ≠ 0 then
      .error (.fail .corruptFrame)
    else do
      let single := singleSegment fhd
      let size := if single then n - 1 - dictSize fhd else n - 1 - dictSize fhd - 1
      let (windowSize, pos) ← readWindow fhd src
      -- a field of no bytes reads as zero
      let dictID ← leAt (dictSize fhd) src pos
      let field ← leAt size src (pos + dictSize fhd : ℕ)
      let contentSize := if size = 2 then field + 256 else field
      .ok (⟨if single then contentSize else windowSize, contentSize, size ≠ 0,
        fhd &&& 4 ≠ 0, dictID⟩, n)

/-- The three repeat offset slots. -/
structure Rep where
  slot₀ : ℕ
  slot₁ : ℕ
  slot₂ : ℕ
  deriving DecidableEq, Repr

/-- What the blocks of a frame share, and storage reused from frame to frame. -/
structure Decoder where
  maxWindow : ℕ
  /-- 0 means no limit. -/
  maxOutput : ℤ
  frame : FrameParams
  window : ℕ
  blockMax : ℕ
  produced : ℕ
  rep : Rep
  huffValid : Bool
  seqValid : Bool
  huff : HuffDecTable
  weightTable : FseDecTable
  llTable : FseDecTable
  ofTable : FseDecTable
  mlTable : FseDecTable
  norm : Vector ℤ 53
  weights : Vector ℕ 255
  lits : List UInt8
  hash : Xxh64
  deriving Repr

/-- `&decoder{}`. -/
def Decoder.new : Decoder :=
  let table : FseDecTable := ⟨Vector.replicate 512 ⟨0, 0, 0⟩, 0⟩
  { maxWindow := 0, maxOutput := 0, frame := ⟨0, 0, false, false, 0⟩, window := 0, blockMax := 0,
    produced := 0, rep := ⟨0, 0, 0⟩, huffValid := false, seqValid := false,
    huff := ⟨Vector.replicate 2048 ⟨0, 0⟩, 0⟩, weightTable := table, llTable := table,
    ofTable := table, mlTable := table, norm := Vector.replicate 53 0,
    weights := Vector.replicate 255 0, lits := [],
    hash := ⟨(0, 0, 0, 0), 0, Vector.replicate 32 0, 0⟩ }

namespace Decoder

/-- `beginFrame`: checks a header against what this decoder accepts and starts the state of
the frame. -/
def beginFrame (d : Decoder) (h : FrameParams) : Go Err Decoder :=
  if h.dictID ≠ 0 then
    .error (.fail .dictionaryRequired)
  else if d.maxWindow < h.windowSize then
    .error (.fail .windowTooLarge)
  else
    .ok { d with
      frame := h
      window := h.windowSize
      blockMax := min h.windowSize maxBlockSize
      produced := 0
      rep := ⟨1, 4, 8⟩
      huffValid := false
      seqValid := false
      hash := if h.checksum then d.hash.reset else d.hash }

/-- `parseBlockHeader`: the type, the size and whether the block is the last. -/
def parseBlockHeader (d : Decoder) (b : List UInt8) : Go Err (ℕ × ℕ × Bool) := do
  let b₀ ← idx b 0
  let b₁ ← idx b 1
  let b₂ ← idx b 2
  let bh := b₀.toNat ||| b₁.toNat <<< 8 ||| b₂.toNat <<< 16
  let typ := bh >>> 1 &&& 3
  let size := bh >>> 3
  if typ = 3 ∨ d.blockMax < size then
    .error (.fail .corruptBlock)
  else
    .ok (typ, size, bh &&& 1 ≠ 0)

/-- `d.hash.write(content)` where the frame carries a checksum. -/
def hashContent (d : Decoder) (content : List UInt8) : Go Err Decoder :=
  if d.frame.checksum then do
    let hash ← d.hash.write content
    .ok { d with hash := hash }
  else
    .ok d

/-- `blockDone`: accounts for the content of one block. -/
def blockDone (d : Decoder) (content : List UInt8) : Go Err Decoder :=
  let d := { d with produced := d.produced + content.length }
  if d.frame.hasContentSize ∧ d.frame.contentSize < d.produced then
    .error (.fail .contentSize)
  else
    d.hashContent content

/-- `endFrame`: checks the totals of a finished frame.  `sum` holds its checksum, when it
carries one. -/
def endFrame (d : Decoder) (sum : List UInt8) : Go Err Unit :=
  if d.frame.hasContentSize ∧ d.produced ≠ d.frame.contentSize then
    .error (.fail .contentSize)
  else if d.frame.checksum then do
    let digest ← d.hash.sum64
    let want ← leAt 4 sum 0
    if digest.toNat % 2 ^ 32 ≠ want then .error (.fail .checksum) else .ok ()
  else
    .ok ()

end Decoder

/-- `blockPayloadSize`: one byte for an RLE block, its size otherwise. -/
def blockPayloadSize (typ size : ℕ) : ℕ := if typ = 1 then 1 else size

/-! ### Headers -/

theorem and_three_lt (b : ℕ) :
  b &&& 3 < 4
  := by
  have := Nat.and_two_pow_sub_one_eq_mod b 2
  norm_num at this
  omega

/-- The fields before the content size fit in the header. -/
theorem fields_le_frameHeaderSize (fhd : ℕ) :
  (if singleSegment fhd then 1 else 2) + dictSize fhd ≤ frameHeaderSize fhd
  := by
  rw [frameHeaderSize]
  split_ifs <;> omega

theorem frameHeaderSize_pos (fhd : ℕ) :
  0 < frameHeaderSize fhd
  := by
  rw [frameHeaderSize]
  split_ifs <;> omega

/-- The longest header has all its fields. -/
theorem frameHeaderSize_le (b : UInt8) :
  frameHeaderSize b.toNat ≤ 14
  := by
  have h₁ : dictSize b.toNat ≤ 4 := by
    have := and_three_lt b.toNat
    rw [dictSize]
    interval_cases b.toNat &&& 3 <;> decide
  have h₂ : [0, 2, 4, 8].getD (b.toNat >>> 6) 0 ≤ 8 := by
    have : b.toNat >>> 6 < 4 := by
      have := b.toNat_lt
      omega
    interval_cases b.toNat >>> 6 <;> decide
  rw [frameHeaderSize]
  by_cases hsingle : singleSegment b.toNat = true
  · simp only [hsingle, true_and, if_true]
    split <;> omega
  · rw [if_neg hsingle, if_neg (fun h => hsingle h.1)]
    omega

/-- A header of the size its descriptor tells is parsed or refused, and never read past. -/
theorem parseFrameParams_safe (src : List UInt8) :
  Safe (parseFrameParams src)
    (fun p => p.2 ≤ src.length ∧ p.2 = frameHeaderSize (src.headD 0).toNat)
  := by
  cases src with
  | nil => exact Safe.fail
  | cons b src =>
    rw [parseFrameParams]
    by_cases hlen : (b :: src).length < frameHeaderSize b.toNat
    · rw [if_pos hlen]
      exact Safe.fail
    rw [if_neg hlen]
    by_cases hreserved : b.toNat &&& 8 ≠ 0
    · rw [if_pos hreserved]
      exact Safe.fail
    rw [if_neg hreserved]
    have hfields := fields_le_frameHeaderSize b.toNat
    by_cases hsingle : singleSegment b.toNat = true
    · simp only [hsingle, if_true] at hfields ⊢
      rw [readWindow, if_pos hsingle, ok_bind, leAt_of_le (by omega), ok_bind,
        leAt_of_le (by omega), ok_bind]
      exact ⟨by dsimp only; omega, rfl⟩
    · simp only [hsingle] at hfields ⊢
      rw [if_neg (by simp)] at hfields
      rw [readWindow, if_neg hsingle, idx_of_lt (by omega), ok_bind, ok_bind,
        leAt_of_le (by omega), ok_bind, if_neg (by simp), leAt_of_le (by omega), ok_bind]
      exact ⟨by dsimp only; omega, rfl⟩

/-- A header can be parsed by itself. -/
theorem parseFrameParams_take (b : UInt8) {src : List UInt8}
    (hlen : frameHeaderSize b.toNat ≤ (b :: src).length) :
  parseFrameParams ((b :: src).take (frameHeaderSize b.toNat)) = parseFrameParams (b :: src)
  := by
  have hpos := frameHeaderSize_pos b.toNat
  have hfields := fields_le_frameHeaderSize b.toNat
  have htake : (b :: src).take (frameHeaderSize b.toNat)
      = b :: src.take (frameHeaderSize b.toNat - 1) := by
    rw [← List.take_succ_cons, Nat.sub_add_cancel hpos]
  have hlen' : ¬ ((b :: src).take (frameHeaderSize b.toNat)).length < frameHeaderSize b.toNat := by
    rw [List.length_take]
    omega
  rw [htake, parseFrameParams, parseFrameParams, ← htake]
  rw [if_neg hlen', if_neg (Nat.not_lt.mpr hlen)]
  split
  · rfl
  by_cases hsingle : singleSegment b.toNat = true
  · simp only [hsingle, if_true] at hfields ⊢
    rw [readWindow, readWindow, if_pos hsingle, if_pos hsingle, ok_bind, ok_bind,
      leAt_take (by omega) hlen, leAt_take (by omega) hlen]
  simp only [hsingle] at hfields ⊢
  rw [if_neg (by simp)] at hfields
  rw [readWindow, readWindow, if_neg hsingle, if_neg hsingle, idx_take (by omega)]
  have hone : 1 < (b :: src).length := by omega
  rw [idx_of_lt hone, ok_bind, ok_bind, ok_bind, leAt_take (by omega) hlen,
    if_neg (by simp), leAt_take (by omega) hlen]

theorem parseBlockHeader_safe (d : Decoder) {b : List UInt8} (h : 3 ≤ b.length) :
  Safe (d.parseBlockHeader b) (fun (typ, size, _) => typ < 3 ∧ size ≤ d.blockMax)
  := by
  rw [Decoder.parseBlockHeader, idx_of_lt (by omega), ok_bind, idx_of_lt (by omega), ok_bind,
    idx_of_lt (by omega), ok_bind]
  dsimp only
  split
  · exact Safe.fail
  rw [Safe.ok_iff]
  have := and_three_lt ((b[0].toNat ||| b[1].toNat <<< 8 ||| b[2].toNat <<< 16) >>> 1)
  dsimp only
  omega

/-! ### What the rest of a frame depends on -/

namespace Decoder

/-- Inside a frame, the decoders differ at most in their output limits and in storage that will
be written before it is read: they are set up alike, and tables that a later block may reuse
agree. -/
structure Agree (d e : Decoder) : Prop where
  maxWindow_eq : d.maxWindow = e.maxWindow
  frame_eq : d.frame = e.frame
  window_eq : d.window = e.window
  blockMax_eq : d.blockMax = e.blockMax
  produced_eq : d.produced = e.produced
  rep_eq : d.rep = e.rep
  huffValid_eq : d.huffValid = e.huffValid
  seqValid_eq : d.seqValid = e.seqValid
  blockMax_le : d.blockMax ≤ maxBlockSize
  rep_pos : 0 < d.rep.slot₀ ∧ 0 < d.rep.slot₁ ∧ 0 < d.rep.slot₂
  huff : d.huffValid = true → d.huff.Agree e.huff ∧ d.huff.Wf
  llTable : d.seqValid = true → d.llTable.Agree e.llTable ∧ d.llTable.Wf 35
  ofTable : d.seqValid = true → d.ofTable.Agree e.ofTable ∧ d.ofTable.Wf 31
  mlTable : d.seqValid = true → d.mlTable.Agree e.mlTable ∧ d.mlTable.Wf 52
  hash : d.frame.checksum = true → d.hash.Agree e.hash

variable {d e : Decoder}

theorem Agree.right (h : d.Agree e) :
  e.Agree e
  where
  maxWindow_eq := rfl
  frame_eq := rfl
  window_eq := rfl
  blockMax_eq := rfl
  produced_eq := rfl
  rep_eq := rfl
  huffValid_eq := rfl
  seqValid_eq := rfl
  blockMax_le := h.blockMax_eq ▸ h.blockMax_le
  rep_pos := h.rep_eq ▸ h.rep_pos
  huff hvalid :=
    have ⟨hagree, hwf⟩ := h.huff (h.huffValid_eq.trans hvalid)
    ⟨⟨rfl, rfl⟩, hagree.wf hwf⟩
  llTable hvalid :=
    have ⟨hagree, hwf⟩ := h.llTable (h.seqValid_eq.trans hvalid)
    ⟨⟨rfl, rfl⟩, hagree.wf hwf⟩
  ofTable hvalid :=
    have ⟨hagree, hwf⟩ := h.ofTable (h.seqValid_eq.trans hvalid)
    ⟨⟨rfl, rfl⟩, hagree.wf hwf⟩
  mlTable hvalid :=
    have ⟨hagree, hwf⟩ := h.mlTable (h.seqValid_eq.trans hvalid)
    ⟨⟨rfl, rfl⟩, hagree.wf hwf⟩
  hash hsum :=
    have hagree := h.hash (h.frame_eq ▸ hsum)
    ⟨rfl, rfl, rfl, hagree.n_eq ▸ hagree.n_lt, rfl⟩

/-- A step inside a block leaves the limits and the totals of the frame as they are. -/
structure Steady (d d' : Decoder) : Prop where
  maxWindow_eq : d'.maxWindow = d.maxWindow
  maxOutput_eq : d'.maxOutput = d.maxOutput
  frame_eq : d'.frame = d.frame
  window_eq : d'.window = d.window
  blockMax_eq : d'.blockMax = d.blockMax
  produced_eq : d'.produced = d.produced

theorem Steady.refl (d : Decoder) : d.Steady d := ⟨rfl, rfl, rfl, rfl, rfl, rfl⟩

theorem Steady.trans {d' d'' : Decoder} (h : d.Steady d') (h' : d'.Steady d'') :
  d.Steady d''
  := ⟨h'.1.trans h.1, h'.2.trans h.2, h'.3.trans h.3, h'.4.trans h.4, h'.5.trans h.5,
    h'.6.trans h.6⟩

/-- Decoders with the same window limit agree once a frame begins, whatever came before. -/
theorem beginFrame_same (hw : d.maxWindow = e.maxWindow) (h : FrameParams) :
  Same (fun d' e' => d'.Agree e' ∧ d'.produced = 0 ∧ d'.maxOutput = d.maxOutput
      ∧ e'.maxOutput = e.maxOutput)
    (d.beginFrame h) (e.beginFrame h)
  := by
  rw [beginFrame, beginFrame, ← hw]
  split
  · exact Same.fail
  split
  · exact Same.fail
  refine ⟨⟨rfl, rfl, rfl, rfl, rfl, rfl, rfl, rfl, Nat.min_le_right _ _, by simp, ?_, ?_, ?_, ?_,
    ?_⟩, rfl, rfl, rfl⟩
  · simp
  · simp
  · simp
  · simp
  · intro hsum
    simp only at hsum
    simp only [hsum, if_true]
    exact Xxh64.reset_agree _ _

theorem hashContent_same (h : d.Agree e) (content : List UInt8) :
  Same (fun d' e' => d'.Agree e' ∧ d.Steady d') (d.hashContent content) (e.hashContent content)
  := by
  rw [hashContent, hashContent, ← h.frame_eq]
  split
  · rename_i hsum
    apply (Xxh64.write_same (h.hash hsum) content).bind
    intro x y hxy
    exact ⟨{ h with frame_eq := rfl, hash := fun _ => hxy }, ⟨rfl, rfl, rfl, rfl, rfl, rfl⟩⟩
  · exact ⟨h, Steady.refl d⟩

/-- A block is accounted for alike in decoders that agree. -/
theorem blockDone_same (h : d.Agree e) (content : List UInt8) :
  Same (fun d' e' => d'.Agree e'
      ∧ ({ d with produced := d.produced + content.length } : Decoder).Steady d')
    (d.blockDone content) (e.blockDone content)
  := by
  have h' : Agree { d with produced := d.produced + content.length }
      { e with produced := e.produced + content.length } :=
    { h with produced_eq := by rw [h.produced_eq] }
  have hiff : (d.frame.hasContentSize = true ∧ d.frame.contentSize < d.produced + content.length)
      ↔ (e.frame.hasContentSize = true ∧ e.frame.contentSize < e.produced + content.length) := by
    rw [h.frame_eq, h.produced_eq]
  rw [blockDone, blockDone]
  by_cases hc : d.frame.hasContentSize = true ∧ d.frame.contentSize < d.produced + content.length
  · rw [if_pos hc, if_pos (hiff.mp hc)]
    exact Same.fail
  · rw [if_neg hc, if_neg (fun h => hc (hiff.mpr h))]
    exact hashContent_same h' content

theorem endFrame_same (h : d.Agree e) {sum : List UInt8}
    (hsum : d.frame.checksum = true → 4 ≤ sum.length) :
  Same (fun _ _ => True) (d.endFrame sum) (e.endFrame sum)
  := by
  rw [endFrame, endFrame, ← h.frame_eq, ← h.produced_eq]
  split
  · exact Same.fail
  split
  · rename_i hcheck
    obtain ⟨digest, hd, he⟩ := Xxh64.exists_sum64 (h.hash hcheck)
    rw [hd, he, ok_bind, leAt_of_nonneg le_rfl (by have := hsum hcheck; omega), ok_bind]
    split
    · exact Same.fail
    · trivial
  · trivial

end Decoder

end Zstd
