import TinyGoDriver.Lib.LzCopy
import TinyGoDriver.Zstd.Literals

/-!
# The sequences section, decoded and executed

Each sequence copies literals to the output and then a match from the output already
produced.  `DecodeState` is what the calls update: the decoder, and the output so far.

The copies are checked against what the code leaves implicit.  A match whose source is not
in the output of its own frame, and a repeat slot that becomes zero, are a `stray`; the
results below show that neither happens.
-/

namespace Zstd

open GoRt LzCopy
open List hiding Vector

def predefLiteralLengthNorm : List ℤ :=
  [4, 3, 2, 2, 2, 2, 2, 2, 2, 2, 2, 2, 2, 1, 1, 1, 2, 2, 2, 2, 2, 2, 2, 2, 2, 3, 2, 1, 1, 1, 1, 1,
   -1, -1, -1, -1]

def predefOffsetNorm : List ℤ :=
  [1, 1, 1, 1, 1, 1, 2, 2, 2, 1, 1, 1, 1, 1, 1, 1, 1, 1, 1, 1, 1, 1, 1, 1, -1, -1, -1, -1, -1]

def predefMatchLengthNorm : List ℤ :=
  [1, 4, 3, 2, 2, 2, 2, 2, 2, 1, 1, 1, 1, 1, 1, 1, 1, 1, 1, 1, 1, 1, 1, 1, 1, 1, 1, 1, 1, 1, 1, 1,
   1, 1, 1, 1, 1, 1, 1, 1, 1, 1, 1, 1, 1, 1, -1, -1,
   -1, -1, -1, -1, -1]

def literalLengthBases : List ℕ :=
  [0, 1, 2, 3, 4, 5, 6, 7, 8, 9, 10, 11, 12, 13, 14, 15,
   16, 18, 20, 22, 24, 28, 32, 40, 48, 64, 128, 256, 512,
   1024, 2048, 4096, 8192, 16384, 32768, 65536]

def literalLengthBits : List ℕ :=
  [0, 0, 0, 0, 0, 0, 0, 0, 0, 0, 0, 0, 0, 0, 0, 0,
   1, 1, 1, 1, 2, 2, 3, 3, 4, 6, 7, 8, 9, 10, 11, 12,
   13, 14, 15, 16]

def matchLengthBases : List ℕ :=
  [3, 4, 5, 6, 7, 8, 9, 10, 11, 12, 13, 14, 15, 16,
   17, 18, 19, 20, 21, 22, 23, 24, 25, 26, 27, 28, 29, 30,
   31, 32, 33, 34, 35, 37, 39, 41, 43, 47, 51, 59, 67, 83,
   99, 131, 259, 515, 1027, 2051, 4099, 8195, 16387, 32771, 65539]

def matchLengthBits : List ℕ :=
  [0, 0, 0, 0, 0, 0, 0, 0, 0, 0, 0, 0, 0, 0, 0, 0, 0, 0, 0, 0, 0, 0, 0, 0, 0, 0, 0, 0, 0, 0, 0, 0,
   1, 1, 1, 1, 2, 2, 3, 3, 4, 4, 5, 7, 8, 9, 10, 11,
   12, 13, 14, 15, 16]

/-- What `readSeqTable` is told about one of the three symbol streams. -/
structure SeqTableKind where
  maxSymbol : ℕ
  maxLog : ℕ
  predef : List ℤ
  predefLog : ℕ

def literalLengthKind : SeqTableKind := ⟨35, 9, predefLiteralLengthNorm, 6⟩
def offsetKind : SeqTableKind := ⟨31, 8, predefOffsetNorm, 5⟩
def matchLengthKind : SeqTableKind := ⟨52, 9, predefMatchLengthNorm, 6⟩

/-- The decoder, the output so far, and, for the record, how long the output was after the
last block that was completed. -/
structure DecodeState where
  d : Decoder
  out : List UInt8
  done : ℕ

abbrev DecodeM : Type → Type := GoM Err DecodeState

/-! ### Tables -/

/-- `readSeqTable`: sets up `t` for the mode of this block.  It returns the bytes a
description took, the table, and the storage for distributions. -/
def Decoder.readSeqTable (d : Decoder) (t : FseDecTable) (k : SeqTableKind) (mode : ℕ)
    (src : List UInt8) : Go Err (ℕ × FseDecTable × Vector ℤ 53) :=
  match mode with
  | 0 => do
    let t ← t.build k.predef k.predefLog
    .ok (0, t, d.norm)
  | 1 =>
    match src with
    | [] => .error (.fail .corruptSequences)
    | b :: _ =>
      if k.maxSymbol < b.toNat then .error (.fail .corruptSequences)
      else .ok (1, t.rle b.toNat, d.norm)
  | 2 => readTable d.norm t (k.maxSymbol + 1) k.maxLog src
  | _ => if d.seqValid then .ok (0, t, d.norm) else .error (.fail .corruptSequences)

/-- The three tables of a block, whose descriptions start at `src[pos]`, in the order of
literal lengths, offsets and match lengths.  It returns the position after them. -/
def Decoder.readSeqTables (d : Decoder) (modes : ℕ) (src : List UInt8) (pos : ℕ) :
    Go Err (ℕ × Decoder) := do
  let rest ← slice src pos src.length
  let (n, t, norm) ← d.readSeqTable d.llTable literalLengthKind (modes >>> 6) rest
  let d := { d with llTable := t, norm := norm }
  let pos := pos + n
  let rest ← slice src pos src.length
  let (n, t, norm) ← d.readSeqTable d.ofTable offsetKind (modes >>> 4 &&& 3) rest
  let d := { d with ofTable := t, norm := norm }
  let pos := pos + n
  let rest ← slice src pos src.length
  let (n, t, norm) ← d.readSeqTable d.mlTable matchLengthKind (modes >>> 2 &&& 3) rest
  .ok (pos + n, { d with mlTable := t, norm := norm, seqValid := true })

/-! ### Reading sequences -/

/-- The reader of the sequences, with the states of the three coders. -/
structure SeqReader where
  br : BackReader
  llState : ℕ
  ofState : ℕ
  mlState : ℕ

/-- The states advance for every sequence but the last. -/
def advanceStates (reload : Bool) (more : Bool) (llE ofE mlE : FseDecEntry) (s : SeqReader) :
    Go Err SeqReader :=
  if more then do
    let br ← s.br.fill reload
    let (x, br) := br.bits llE.nbBits
    let (y, br) := br.bits mlE.nbBits
    let (z, br) := br.bits ofE.nbBits
    .ok ⟨br, llE.newState + x, ofE.newState + z, mlE.newState + y⟩
  else
    .ok s

/-- Reads one sequence: its offset value, literal length and match length.  `more` tells
that another one follows. -/
def readSequence (reload : Bool) (ll of ml : FseDecTable) (more : Bool) (s : SeqReader) :
    Go Err (ℕ × ℕ × ℕ × SeqReader) := do
  let llE ← ll.entry s.llState
  let ofE ← of.entry s.ofState
  let mlE ← ml.entry s.mlState
  let br ← s.br.fill reload
  let (x, br) := br.bits ofE.symbol
  let br ← br.fill reload
  let mlBase ← idx matchLengthBases mlE.symbol
  let mlBits ← idx matchLengthBits mlE.symbol
  let (y, br) := br.bits mlBits
  let llBase ← idx literalLengthBases llE.symbol
  let llBits ← idx literalLengthBits llE.symbol
  let (z, br) := br.bits llBits
  let s ← advanceStates reload more llE ofE mlE { s with br := br }
  .ok (2 ^ ofE.symbol + x, llBase + z, mlBase + y, s)

/-- `resolveOffset`: turns an offset value into a distance, and updates the slots. -/
def resolveOffset (rep : Rep) (value litLen : ℕ) : Go Err (ℕ × Rep) :=
  if 3 < value then
    .ok (value - 3, ⟨value - 3, rep.slot₀, rep.slot₁⟩)
  else
    match wrap 32 ((value : ℤ) - 1 + if litLen = 0 then 1 else 0) with
    | 0 => .ok (rep.slot₀, rep)
    | 1 => .ok (rep.slot₁, ⟨rep.slot₁, rep.slot₀, rep.slot₂⟩)
    | 2 => .ok (rep.slot₂, ⟨rep.slot₂, rep.slot₀, rep.slot₁⟩)
    | _ =>
      let dist := wrap 32 ((rep.slot₀ : ℤ) - 1)
      if dist = 0 then
        .error (.fail .corruptOffset)
      else
        .ok (dist, ⟨dist, rep.slot₀, rep.slot₁⟩)

/-! ### Executing sequences -/

/-- The loop of `appendMatch` for a match that overlaps its own output: each round copies
what there is from `start` on, so that the span doubles. -/
def matchLoop (start : ℤ) : ℕ → ℕ → List UInt8 → Go Err (List UInt8)
  | _, 0, out => .ok out
  | 0, _ + 1, _ => .error .diverge
  | fuel + 1, length + 1, out => do
    let n := min ((length + 1 : ℕ) : ℤ) (out.length - start)
    let span ← slice out start (start + n)
    matchLoop start fuel (length + 1 - n.toNat) (out ++ span)

/-- `appendMatch`: copies `length` bytes from `offset` bytes back. -/
def appendMatch (out : List UInt8) (offset length : ℕ) : Go Err (List UInt8) :=
  let start : ℤ := out.length - offset
  if length ≤ offset then do
    let span ← slice out start (start + length)
    .ok (out ++ span)
  else
    matchLoop start length length out

/-- `appendRun`: appends `n` copies of `b`. -/
def appendRun (out : List UInt8) (b : UInt8) (n : ℕ) : Go Err (List UInt8) :=
  if n = 0 then .ok out else appendMatch (out ++ [b]) 1 (n - 1)

/-- Appends `l` to the output. -/
def append (l : List UInt8) : DecodeM Unit := modify (fun s => { s with out := s.out ++ l })

/-- Resolves an offset against the slots of the decoder. -/
def resolve (value litLen : ℕ) : DecodeM ℕ := do
  let s ← get
  let (dist, rep) ← GoM.call (resolveOffset s.d.rep value litLen)
  if rep.slot₀ = 0 ∨ rep.slot₁ = 0 ∨ rep.slot₂ = 0 then
    GoM.call (.error .stray)
  else do
    modify (fun s => { s with d := { s.d with rep := rep } })
    pure dist

/-- Copies a match.  `base` is the length of the output at the start of the block, and
`reach` how far back from there a match may go. -/
def copyMatch (reach base offset length : ℕ) : DecodeM Unit := do
  let s ← get
  if reach + s.out.length - base < offset ∨ s.d.window < offset then
    GoM.fail .corruptOffset
  else if s.d.produced + s.out.length - base < offset then
    GoM.call (.error .stray)
  else do
    let out ← GoM.call (appendMatch s.out offset length)
    modify (fun s => { s with out := out })

/-- Executes one sequence, whose literals start at `lits[litPos]`. -/
def execute (lits : List UInt8) (reach base litPos lit length offset : ℕ) : DecodeM Unit := do
  let s ← get
  if (lits.length : ℤ) - litPos < lit
      ∨ (s.d.blockMax : ℤ) - (s.out.length - base) < lit + length then
    GoM.fail .corruptSequences
  else do
    let l ← GoM.call (slice lits litPos (litPos + lit : ℕ))
    append l
    copyMatch reach base offset length

/-- The loop over the sequences. -/
def seqLoop (reload : Bool) (lits : List UInt8) (reach base : ℕ) :
    ℕ → SeqReader → ℕ → DecodeM (SeqReader × ℕ)
  | 0, r, litPos => pure (r, litPos)
  | i + 1, r, litPos => do
    let s ← get
    let (value, lit, length, r) ←
      GoM.call (readSequence reload s.d.llTable s.d.ofTable s.d.mlTable (0 < i) r)
    let offset ← resolve value lit
    execute lits reach base litPos lit length offset
    seqLoop reload lits reach base i r (litPos + lit)

/-- Appends the literals after the last sequence. -/
def appendRest (lits : List UInt8) (base litPos : ℕ) : DecodeM Unit := do
  let s ← get
  let rest ← GoM.call (slice lits litPos lits.length)
  if (s.d.blockMax : ℤ) - (s.out.length - base) < rest.length then
    GoM.fail .corruptSequences
  else
    append rest

/-- The reader at the end of the stream of `src[pos:]`, with the initial states. -/
def startSequences (reload : Bool) (ll of ml : FseDecTable) (src : List UInt8) (pos : ℕ) :
    Go Err SeqReader := do
  let stream ← slice src pos src.length
  let br ← BackReader.init reload stream
  let (x, br) := br.bits ll.tableLog
  let (y, br) := br.bits of.tableLog
  let (z, br) := br.bits ml.tableLog
  .ok ⟨br, x, y, z⟩

/-- The stream must end exactly where the last sequence did. -/
def finishSequences (reload : Bool) (r : SeqReader) : Go Err Unit := do
  let br ← r.br.fill reload
  if br.finished then .ok () else .error (.fail .corruptBitstream)

/-- The number of sequences, and the position after it. -/
def sequenceCount (src : List UInt8) (b₀ : ℕ) : Go Err (ℕ × ℕ) :=
  if b₀ = 255 then
    if src.length < 3 then
      .error (.fail .corruptSequences)
    else do
      let b₁ ← idx src 1
      let b₂ ← idx src 2
      .ok (b₁.toNat + b₂.toNat <<< 8 + 0x7f00, 3)
  else if 128 ≤ b₀ then
    if src.length < 2 then
      .error (.fail .corruptSequences)
    else do
      let b₁ ← idx src 1
      .ok ((b₀ - 128) <<< 8 ||| b₁.toNat, 2)
  else
    .ok (b₀, 1)

/-- The modes byte at `src[pos]`. -/
def readModes (src : List UInt8) (pos : ℕ) : Go Err ℕ :=
  if src.length ≤ pos then
    .error (.fail .corruptSequences)
  else do
    let modes ← idx src pos
    if modes.toNat &&& 3 ≠ 0 then .error (.fail .corruptSequences) else .ok modes.toNat

/-- The sequences of a block that has some: tables, then the sequences, then the rest of the
literals. -/
def runSequences (reload : Bool) (src lits : List UInt8) (b₀ reach : ℕ) : DecodeM Unit := do
  let (nbSeq, pos) ← GoM.call (sequenceCount src b₀)
  let modes ← GoM.call (readModes src pos)
  let s ← get
  let (pos, d) ← GoM.call (s.d.readSeqTables modes src (pos + 1))
  modify (fun s => { s with d := d })
  let r ← GoM.call (startSequences reload d.llTable d.ofTable d.mlTable src pos)
  let base := s.out.length
  let (r, litPos) ← seqLoop reload lits reach base nbSeq r 0
  GoM.call (finishSequences reload r)
  appendRest lits base litPos

/-- `decodeSequences`: decodes the sequences section in `src` and executes it against
`lits`. -/
def decodeSequences (reload : Bool) (src lits : List UInt8) (reach : ℕ) : DecodeM Unit :=
  match src with
  | [] => GoM.fail .corruptSequences
  | b :: _ =>
    if b.toNat = 0 then do
      let s ← get
      if src.length ≠ 1 ∨ s.d.blockMax < lits.length then
        GoM.fail .corruptSequences
      else
        append lits
    else
      runSequences reload src lits b.toNat reach

/-- `decodeCompressed`: appends the content of a compressed block. -/
def decodeCompressed (reload : Bool) (block : List UInt8) (reach : ℕ) : DecodeM Unit := do
  let s ← get
  let (lits, n, d) ← GoM.call (s.d.decodeLiterals reload block)
  modify (fun s => { s with d := d })
  let rest ← GoM.call (slice block n block.length)
  decodeSequences reload rest lits reach

/-- `appendBlock`: appends the content of one block. -/
def appendBlock (reload : Bool) (typ size : ℕ) (payload : List UInt8) : DecodeM Unit := do
  let s ← get
  match typ with
  | 0 => append payload
  | 1 => do
    let b ← GoM.call (idx payload 0)
    let out ← GoM.call (appendRun s.out b size)
    modify (fun s => { s with out := out })
  | _ => decodeCompressed reload payload (min s.d.produced s.d.window)

/-! ### Matches -/

/-- The rounds of `matchLoop` copy as many bytes one at a time would. -/
theorem matchLoop_eq {l : List UInt8} {offset : ℕ} (h₀ : 0 < offset) (h : offset ≤ l.length)
    {fuel m length : ℕ} (hdvd : offset ∣ m) (hfuel : length ≤ fuel) :
  matchLoop ((l.length : ℤ) - offset) fuel length (lzCopy l offset m)
    = .ok (lzCopy l offset (m + length))
  := by
  induction fuel generalizing m length with
  | zero =>
    obtain rfl : length = 0 := by omega
    rfl
  | succ fuel ih =>
    cases length with
    | zero => rfl
    | succ length =>
      have hlen := length_lzCopy h₀ h m
      obtain ⟨n, hn⟩ : ∃ n : ℕ, min ((length + 1 : ℕ) : ℤ)
          ((lzCopy l offset m).length - ((l.length : ℤ) - offset)) = n := by
        refine ⟨min (length + 1) (offset + m), ?_⟩
        omega
      rw [matchLoop]
      simp only [hn]
      have hspan : (slice (lzCopy l offset m) ((l.length : ℤ) - offset)
          ((l.length : ℤ) - offset + n) : Go Err _)
          = .ok (((lzCopy l offset m).drop (l.length - offset)).take n) := by
        rw [slice_of_le (by omega) (by omega) (by rw [hlen]; push_cast; omega), take_drop]
        congr 3
        · omega
        · omega
      rw [hspan, ok_bind, lzCopy_append_span h₀ h hdvd (by omega), Int.toNat_natCast]
      by_cases hlast : length + 1 ≤ offset + m
      · have hz : length + 1 - n = 0 := by omega
        rw [hz]
        have hend : m + n = m + (length + 1) := by omega
        rw [hend]
        cases fuel with
        | zero => rfl
        | succ fuel => rfl
      · rw [ih _ (by omega)]
        · congr 2
          omega
        · have hdbl : m + n = offset + 2 * m := by omega
          rw [hdbl]
          exact dvd_add (dvd_refl _) (Dvd.dvd.mul_left hdvd 2)

/-- `appendMatch` copies byte by byte from `offset` back. -/
theorem appendMatch_eq {out : List UInt8} {offset : ℕ} (h₀ : 0 < offset)
    (h : offset ≤ out.length) (length : ℕ) :
  appendMatch out offset length = .ok (lzCopy out offset length)
  := by
  rw [appendMatch]
  split
  · rw [slice_of_le (by omega) (by omega) (by omega), ok_bind]
    have hspan := lzCopy_append_span h₀ h (dvd_zero offset) (by omega)
    rw [Nat.zero_add, take_drop] at hspan
    rw [← hspan]
    congr 4
    · omega
    · omega
  · have := matchLoop_eq h₀ h (dvd_zero offset) (le_refl length)
    rwa [Nat.zero_add] at this

/-- `length` bytes one at a time, each from `offset` bytes back. -/
def copyBytes (offset : ℕ) : ℕ → List UInt8 → Go Err (List UInt8)
  | 0, out => .ok out
  | length + 1, out => do
    let b ← idx out (out.length - offset)
    copyBytes offset length (out ++ [b])

theorem copyBytes_lzCopy {out : List UInt8} {offset : ℕ} (h₀ : 0 < offset)
    (h : offset ≤ out.length) (m length : ℕ) :
  copyBytes offset length (lzCopy out offset m) = .ok (lzCopy out offset (m + length))
  := by
  induction length generalizing m with
  | zero => rfl
  | succ length ih =>
    have hlen := length_lzCopy h₀ h m
    have hnext : lzCopy out offset (m + 1)
        = lzCopy out offset m ++ [(lzCopy out offset m)[out.length + m - offset]] := by
      rw [lzCopy, getElem?_eq_getElem (by omega), Option.toList_some]
    simp only [copyBytes, hlen]
    rw [idx_of_lt (by omega), ok_bind, ← hnext, ih, Nat.add_right_comm, Nat.add_assoc]

/-- The doubling copy of `appendMatch` is the copy of a byte at a time. -/
theorem appendMatch_eq_copyBytes {out : List UInt8} {offset : ℕ} (h₀ : 1 ≤ offset)
    (h : offset ≤ out.length) (length : ℕ) :
  appendMatch out offset length = copyBytes offset length out
  := by
  have hcopy := copyBytes_lzCopy h₀ h 0 length
  rw [Nat.zero_add] at hcopy
  exact (appendMatch_eq h₀ h length).trans hcopy.symm

/-- Seven bytes from two bytes back. -/
theorem appendMatch_eq_copyBytes_overlap :
  appendMatch [1, 2, 3] 2 7 = copyBytes 2 7 [1, 2, 3]
  := appendMatch_eq_copyBytes (by decide) (by decide) 7

theorem appendRun_eq (out : List UInt8) (b : UInt8) (n : ℕ) :
  appendRun out b n = .ok (out ++ List.replicate n b)
  := by
  cases n with
  | zero => simp [appendRun]
  | succ n =>
    rw [appendRun, if_neg (by omega), appendMatch_eq (by omega) (by simp),
      Nat.add_sub_cancel, append_lzCopy out (by simp), lzCopy_singleton]

/-! ### Tables and sequences read -/

/-- The limits of a stream of symbols are within those of the format. -/
structure SeqTableKind.Ok (k : SeqTableKind) : Prop where
  maxSymbol_le : k.maxSymbol + 1 ≤ maxFSESymbols
  maxLog_le : k.maxLog ≤ 9
  length_le : k.predef.length ≤ k.maxSymbol + 1
  predefLog_ge : 4 ≤ k.predefLog
  predefLog_le : k.predefLog ≤ 9

theorem literalLengthKind_ok : literalLengthKind.Ok := by constructor <;> decide

theorem offsetKind_ok : offsetKind.Ok := by constructor <;> decide

theorem matchLengthKind_ok : matchLengthKind.Ok := by constructor <;> decide

variable {src : List UInt8} {r : SeqReader}

namespace Decoder

variable {d e : Decoder}

/-- A table is set up alike in decoders that agree, given that they agree on the table a
repeat mode reuses. -/
theorem readSeqTable_same (h : d.Agree e) {k : SeqTableKind} (hk : k.Ok) {t u : FseDecTable}
    (hreuse : d.seqValid = true → t.Agree u ∧ t.Wf k.maxSymbol) (mode : ℕ) (src : List UInt8) :
  Same (fun r s => r.1 = s.1 ∧ r.1 ≤ src.length ∧ r.2.1.Agree s.2.1 ∧ r.2.1.Wf k.maxSymbol)
    (d.readSeqTable t k mode src) (e.readSeqTable u k mode src)
  := by
  have hsym := hk.maxSymbol_le
  have hlen := hk.length_le
  unfold readSeqTable
  split
  · rcases FseDecTable.build_cases k.predef hk.predefLog_ge hk.predefLog_le (by omega)
      with hfail | ⟨es, hbuild⟩
    · rw [hfail, hfail]
      exact Same.fail
    · obtain ⟨t', ht', hlog₁, hlive₁, hwf₁⟩ := hbuild t
      obtain ⟨u', hu', hlog₂, hlive₂, -⟩ := hbuild u
      rw [ht', hu', ok_bind, ok_bind]
      exact ⟨rfl, Nat.zero_le _, ⟨by rw [hlog₁, hlog₂], by rw [hlive₁, hlive₂]⟩,
        hwf₁.mono (by omega)⟩
  · split
    · exact Same.fail
    · split
      · exact Same.fail
      · refine ⟨rfl, ?_, ⟨rfl, by simp only [FseDecTable.live_rle]⟩,
          FseDecTable.rle_wf t (by omega)⟩
        simp
  · apply (readTable_same d.norm e.norm t u hsym hk.maxLog_le src).mono
    rintro ⟨n, t', v⟩ ⟨n', u', v'⟩ ⟨h₁, h₂, h₃, h₄, -⟩
    exact ⟨h₁, h₂, h₃, h₄⟩
  · rw [← h.seqValid_eq]
    split
    · rename_i hvalid
      obtain ⟨h₁, h₂⟩ := hreuse hvalid
      exact ⟨rfl, Nat.zero_le _, h₁, h₂⟩
    · exact Same.fail

/-- The three tables are set up alike in decoders that agree. -/
theorem readSeqTables_same (h : d.Agree e) (modes : ℕ) {pos : ℕ} (hpos : pos ≤ src.length) :
  Same (fun r s => r.1 = s.1 ∧ r.1 ≤ src.length ∧ r.2.Agree s.2 ∧ r.2.seqValid = true
      ∧ d.Steady r.2)
    (d.readSeqTables modes src pos) (e.readSeqTables modes src pos)
  := by
  rw [readSeqTables, readSeqTables, slice_eq_ok hpos le_rfl]
  apply (readSeqTable_same h literalLengthKind_ok h.llTable _ _).bind
  rintro ⟨n₁, t₁, v₁⟩ ⟨m₁, u₁, w₁⟩ ⟨hn₁, hle₁, htu₁, hwf₁⟩
  dsimp only at hn₁ hle₁ htu₁ hwf₁ ⊢
  subst hn₁
  simp only [length_drop, length_take] at hle₁
  have h₁ : Agree { d with llTable := t₁, norm := v₁ } { e with llTable := u₁, norm := w₁ } :=
    { h with llTable := fun _ => ⟨htu₁, hwf₁⟩ }
  rw [slice_eq_ok (by omega) le_rfl]
  apply (readSeqTable_same h₁ offsetKind_ok h.ofTable _ _).bind
  rintro ⟨n₂, t₂, v₂⟩ ⟨m₂, u₂, w₂⟩ ⟨hn₂, hle₂, htu₂, hwf₂⟩
  subst hn₂
  simp only [length_drop, length_take] at hle₂
  have h₂ : Agree { d with llTable := t₁, ofTable := t₂, norm := v₂ }
      { e with llTable := u₁, ofTable := u₂, norm := w₂ } :=
    { h₁ with ofTable := fun _ => ⟨htu₂, hwf₂⟩ }
  rw [slice_eq_ok (by omega) le_rfl]
  apply (readSeqTable_same h₂ matchLengthKind_ok h.mlTable _ _).bind
  rintro ⟨n₃, t₃, v₃⟩ ⟨m₃, u₃, w₃⟩ ⟨hn₃, hle₃, htu₃, hwf₃⟩
  subst hn₃
  simp only [length_drop, length_take] at hle₃
  refine ⟨rfl, by dsimp only; omega, ?_, rfl, ⟨rfl, rfl, rfl, rfl, rfl, rfl⟩⟩
  exact { h₂ with
    seqValid_eq := rfl
    llTable := fun _ => ⟨htu₁, hwf₁⟩
    ofTable := fun _ => ⟨htu₂, hwf₂⟩
    mlTable := fun _ => ⟨htu₃, hwf₃⟩ }

end Decoder

section Reading

variable (reload : Bool) {ll of ml : FseDecTable}

/-- The reader is at a place in its stream, and the states are in use. -/
structure SeqReader.Ok (ll of ml : FseDecTable) (r : SeqReader) : Prop where
  br_ok : r.br.Ok
  within : r.br.Within 71
  llState_lt : r.llState < 2 ^ ll.tableLog
  ofState_lt : r.ofState < 2 ^ of.tableLog
  mlState_lt : r.mlState < 2 ^ ml.tableLog

theorem advanceStates_safe (more : Bool) {llE ofE mlE : FseDecEntry} (hr : r.Ok ll of ml)
    (hllE : llE.nbBits ≤ 9 ∧ llE.newState + 2 ^ llE.nbBits ≤ 2 ^ ll.tableLog)
    (hofE : ofE.nbBits ≤ 9 ∧ ofE.newState + 2 ^ ofE.nbBits ≤ 2 ^ of.tableLog)
    (hmlE : mlE.nbBits ≤ 9 ∧ mlE.newState + 2 ^ mlE.nbBits ≤ 2 ^ ml.tableLog) :
  Safe (advanceStates reload more llE ofE mlE r) (SeqReader.Ok ll of ml)
  := by
  rw [advanceStates]
  split
  · apply (BackReader.fill_safe reload hr.br_ok hr.within).bind
    rintro br ⟨hok, hw⟩
    have hx : br.peek llE.nbBits < 2 ^ llE.nbBits := BackReader.peek_lt _ (by omega)
    have hy : (br.skip llE.nbBits).peek mlE.nbBits < 2 ^ mlE.nbBits :=
      BackReader.peek_lt _ (by omega)
    have hz : ((br.skip llE.nbBits).skip mlE.nbBits).peek ofE.nbBits < 2 ^ ofE.nbBits :=
      BackReader.peek_lt _ (by omega)
    exact ⟨((hok.skip _).skip _).skip _, (((hw.skip _).skip _).skip _).mono (by omega),
      by dsimp only [BackReader.bits]; omega, by dsimp only [BackReader.bits]; omega,
      by dsimp only [BackReader.bits]; omega⟩
  · exact hr

theorem matchLengthBits_le : ∀ b ∈ matchLengthBits, b ≤ 16 := by decide

theorem literalLengthBits_le : ∀ b ∈ literalLengthBits, b ≤ 16 := by decide

theorem readSequence_congr {ll' of' ml' : FseDecTable} (h₁ : ll.entry = ll'.entry)
    (h₂ : of.entry = of'.entry) (h₃ : ml.entry = ml'.entry) (more : Bool) (r : SeqReader) :
  readSequence reload ll of ml more r = readSequence reload ll' of' ml' more r
  := by
  simp only [readSequence, h₁, h₂, h₃]

variable (hll : ll.Wf 35) (hof : of.Wf 31) (hml : ml.Wf 52)

include hll hof hml

theorem startSequences_safe {pos : ℕ} (hpos : pos ≤ src.length) :
  Safe (startSequences reload ll of ml src pos) (SeqReader.Ok ll of ml)
  := by
  have hlog₁ := hll.log_le
  have hlog₂ := hof.log_le
  have hlog₃ := hml.log_le
  rw [startSequences, slice_eq_ok hpos le_rfl]
  apply (BackReader.init_safe reload _).bind
  rintro br ⟨hok, hw, -⟩
  refine ⟨((hok.skip _).skip _).skip _, (((hw.skip _).skip _).skip _).mono (by omega), ?_, ?_, ?_⟩
  · exact BackReader.peek_lt _ (by omega)
  · exact BackReader.peek_lt _ (by omega)
  · exact BackReader.peek_lt _ (by omega)

theorem readSequence_safe (more : Bool) (hr : r.Ok ll of ml) :
  Safe (readSequence reload ll of ml more r) (fun p => p.2.2.2.Ok ll of ml)
  := by
  rw [readSequence]
  apply (FseDecTable.entry_safe hll hr.llState_lt).bind
  rintro llE ⟨hllS, hllE⟩
  apply (FseDecTable.entry_safe hof hr.ofState_lt).bind
  rintro ofE ⟨hofS, hofE⟩
  apply (FseDecTable.entry_safe hml hr.mlState_lt).bind
  rintro mlE ⟨hmlS, hmlE⟩
  apply (BackReader.fill_safe reload hr.br_ok hr.within).bind
  rintro br ⟨hok, hw⟩
  apply (BackReader.fill_safe reload (hok.skip ofE.symbol)
    ((hw.skip ofE.symbol).mono (by omega))).bind
  rintro br' ⟨hok', hw'⟩
  have hml₁ : mlE.symbol < matchLengthBases.length := Nat.lt_succ_of_le hmlS
  have hml₂ : mlE.symbol < matchLengthBits.length := Nat.lt_succ_of_le hmlS
  have hll₁ : llE.symbol < literalLengthBases.length := Nat.lt_succ_of_le hllS
  have hll₂ : llE.symbol < literalLengthBits.length := Nat.lt_succ_of_le hllS
  have hmlB := matchLengthBits_le _ (getElem_mem hml₂)
  have hllB := literalLengthBits_le _ (getElem_mem hll₂)
  simp only [idx_of_lt hml₁, idx_of_lt hml₂, idx_of_lt hll₁, idx_of_lt hll₂, ok_bind,
    BackReader.bits]
  have hr' : SeqReader.Ok ll of ml
      ⟨(br'.skip matchLengthBits[mlE.symbol]).skip literalLengthBits[llE.symbol], r.llState,
        r.ofState, r.mlState⟩ :=
    ⟨(hok'.skip _).skip _, ((hw'.skip _).skip _).mono (by omega), hr.llState_lt, hr.ofState_lt,
      hr.mlState_lt⟩
  apply (advanceStates_safe reload more hr' hllE hofE hmlE).bind
  intro r'' hr''
  exact hr''

end Reading

/-- Distances and slots are never zero. -/
theorem resolveOffset_safe {rep : Rep} (hrep : 0 < rep.slot₀ ∧ 0 < rep.slot₁ ∧ 0 < rep.slot₂)
    (value litLen : ℕ) :
  Safe (resolveOffset rep value litLen) (fun r => 0 < r.1 ∧ 0 < r.2.slot₀ ∧ 0 < r.2.slot₁
    ∧ 0 < r.2.slot₂)
  := by
  obtain ⟨h₀, h₁, h₂⟩ := hrep
  unfold resolveOffset
  split
  · rw [Safe.ok_iff]
    dsimp only
    omega
  split
  · exact ⟨h₀, h₀, h₁, h₂⟩
  · exact ⟨h₁, h₁, h₀, h₂⟩
  · exact ⟨h₂, h₂, h₀, h₁⟩
  dsimp only
  split
  · exact Safe.fail
  rw [Safe.ok_iff]
  dsimp only
  omega

theorem sequenceCount_safe (hsrc : src ≠ []) (b₀ : ℕ) :
  Safe (sequenceCount src b₀) (fun r => r.2 ≤ src.length)
  := by
  have hpos : 0 < src.length := length_pos_iff.mpr hsrc
  rw [sequenceCount]
  split
  · split
    · exact Safe.fail
    · rw [idx_of_lt (by omega), ok_bind, idx_of_lt (by omega), ok_bind, Safe.ok_iff]
      omega
  split
  · split
    · exact Safe.fail
    · rw [idx_of_lt (by omega), ok_bind, Safe.ok_iff]
      omega
  · exact hpos

theorem readModes_safe (src : List UInt8) (pos : ℕ) :
  Safe (readModes src pos) (fun _ => pos < src.length)
  := by
  rw [readModes]
  split
  · exact Safe.fail
  rw [idx_of_lt (by omega), ok_bind]
  split
  · exact Safe.fail
  · rw [Safe.ok_iff]
    omega

theorem finishSequences_safe (reload : Bool) (hok : r.br.Ok) (hw : r.br.Within 71) :
  Safe (finishSequences reload r) (fun _ => True)
  := by
  rw [finishSequences]
  apply (BackReader.fill_safe reload hok hw).bind
  intro br _
  split
  · trivial
  · exact Safe.fail

end Zstd
