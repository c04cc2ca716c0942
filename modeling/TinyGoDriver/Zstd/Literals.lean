import TinyGoDriver.Zstd.Frame

/-!
# The literals section

`decodeLiterals` decodes the literals at the front of a compressed block: its header, the
Huffman tree description in either representation of the weights, and one or four coded
streams.  Literals are decoded into `lits`, storage that is reused from block to block;
`decodeLiterals_same` says that neither what it held, nor what the storage for weights and
distributions held, shows in the result.
-/

namespace Zstd

open GoRt
open List hiding Vector

/-- The accuracy limit for FSE-compressed weights. -/
def maxHuffWeightLog : ℕ := 6

/-- The loop of `readFSEWeights`, with room for `room` more weights but the last: the state
whose turn it is contributes a weight and is updated; when that reads past the start of the
stream, the other state contributes the last weight. -/
def weightLoop (reload : Bool) (t : FseDecTable) : ℕ → ℕ → ℕ → BackReader → Go Err (List ℕ)
  | 0, _, _, _ => .error (.fail .corruptLiterals)
  | room + 1, state, other, br => do
    let e ← t.entry state
    let (x, br) := br.bits e.nbBits
    let br ← br.fill reload
    if br.overread then do
      let e' ← t.entry other
      .ok [e.symbol, e'.symbol]
    else do
      let weights ← weightLoop reload t room other (e.newState + x) br
      .ok (e.symbol :: weights)

/-- The weights of the direct representation: `count` nibbles after the header byte, the
high one of each byte first. -/
def directWeights (src : List UInt8) (count : ℕ) : Go Err (List ℕ) :=
  (List.range count).mapM (fun i => do
    let b ← idx src (1 + i / 2)
    .ok (if i % 2 = 0 then b.toNat >>> 4 else b.toNat &&& 15))

/-- One coded stream, or four. -/
def HuffDecTable.decodeStreams (reload : Bool) (t : HuffDecTable) (single : Bool)
    (dst src : List UInt8) : Go Err (List UInt8) :=
  if single then t.decodeStream reload dst src else t.decode4 reload dst src

namespace Decoder

/-- `readFSEWeights`: decodes FSE-compressed weights. -/
def readFSEWeights (reload : Bool) (d : Decoder) (src : List UInt8) :
    Go Err (List ℕ × Decoder) := do
  let (n, t, norm) ← readTable d.norm d.weightTable (maxHuffBits + 1) maxHuffWeightLog src
  let stream ← slice src n src.length
  let br ← BackReader.init reload stream
  let (state₀, br) := br.bits t.tableLog
  let (state₁, br) := br.bits t.tableLog
  let br ← br.fill reload
  if br.overread then
    .error (.fail .corruptLiterals)
  else do
    -- at most 255 weights, of which the last is not decoded in its own turn
    let w ← weightLoop reload t 254 state₀ state₁ br
    let weights ← writeFrom d.weights 0 w
    .ok (w, { d with norm := norm, weightTable := t, weights := weights })

/-- The direct representation of the weights, in the storage for them. -/
def readDirectWeights (d : Decoder) (src : List UInt8) (count : ℕ) :
    Go Err (List ℕ × Decoder) := do
  let w ← directWeights src count
  let weights ← writeFrom d.weights 0 w
  .ok (w, { d with weights := weights })

/-- The weights described at the front of `src`, and the bytes they took. -/
def readWeights (reload : Bool) (d : Decoder) (src : List UInt8) :
    Go Err (ℕ × List ℕ × Decoder) := do
  let b ← idx src 0
  let header := b.toNat
  if 128 ≤ header then
    let count := header - 127
    let n := 1 + (count + 1) / 2
    if src.length < n then
      .error (.fail .corruptLiterals)
    else do
      let (w, d) ← d.readDirectWeights src count
      .ok (n, w, d)
  else
    let n := 1 + header
    if src.length < n then
      .error (.fail .corruptLiterals)
    else do
      let stream ← slice src 1 n
      let (w, d) ← d.readFSEWeights reload stream
      .ok (n, w, d)

/-- `readHuffTable`: reads a Huffman tree description from the front of `src` into the
table, and returns the bytes it took. -/
def readHuffTable (reload : Bool) (d : Decoder) (src : List UInt8) : Go Err (ℕ × Decoder) :=
  if src = [] then
    .error (.fail .corruptLiterals)
  else do
    let (n, w, d) ← d.readWeights reload src
    let t ← d.huff.build w
    .ok (n, { d with huff := t })

/-- `literalBuffer`: `n` bytes of the storage for literals, which is allocated for the
largest block of this frame if it is too small. -/
def literalBuffer (d : Decoder) (n : ℕ) : Go Err (List UInt8 × Decoder) := do
  let lits := if d.lits.length < n then List.replicate d.blockMax 0 else d.lits
  let buffer ← slice lits 0 n
  .ok (buffer, { d with lits := lits })

/-- The decoder after `l` has been written over the front of its literals. -/
def putLiterals (d : Decoder) (l : List UInt8) : Decoder :=
  { d with lits := l ++ d.lits.drop l.length }

/-- The size of the header of raw or RLE literals, and the size of the literals. -/
def plainHeader (block : List UInt8) (b₀ : ℕ) : Go Err (ℕ × ℕ) :=
  match b₀ >>> 2 &&& 3 with
  | 1 =>
    if block.length < 2 then
      .error (.fail .corruptLiterals)
    else do
      let b₁ ← idx block 1
      .ok (2, b₀ >>> 4 ||| b₁.toNat <<< 4)
  | 3 =>
    if block.length < 3 then
      .error (.fail .corruptLiterals)
    else do
      let b₁ ← idx block 1
      let b₂ ← idx block 2
      .ok (3, b₀ >>> 4 ||| b₁.toNat <<< 4 ||| b₂.toNat <<< 12)
  | _ => .ok (1, b₀ >>> 3)

/-- Raw and RLE literals: the literals and the bytes the section took. -/
def plainLiterals (d : Decoder) (block : List UInt8) (b₀ : ℕ) :
    Go Err (List UInt8 × ℕ × Decoder) := do
  let (h, regen) ← plainHeader block b₀
  if d.blockMax < regen then
    .error (.fail .corruptLiterals)
  else if b₀ &&& 3 = 0 then
    if block.length < h + regen then
      .error (.fail .corruptLiterals)
    else do
      let lits ← slice block h (h + regen : ℕ)
      .ok (lits, h + regen, d)
  else
    if block.length < h + 1 then
      .error (.fail .corruptLiterals)
    else do
      let (buffer, d) ← d.literalBuffer regen
      let b ← idx block h
      let lits := buffer.map (fun _ => b)
      .ok (lits, h + 1, d.putLiterals lits)

/-- The Huffman table for this block, and the bytes its description took: a new table, or
for treeless literals the previous block's. -/
def literalsTable (reload : Bool) (d : Decoder) (typ : ℕ) (body : List UInt8) :
    Go Err (ℕ × Decoder) :=
  if typ = 2 then do
    let (n, d) ← d.readHuffTable reload body
    .ok (n, { d with huffValid := true })
  else if d.huffValid then
    .ok (0, d)
  else
    .error (.fail .corruptLiterals)

/-- Compressed and treeless literals. -/
def codedLiterals (reload : Bool) (d : Decoder) (block : List UInt8) (b₀ : ℕ) :
    Go Err (List UInt8 × ℕ × Decoder) :=
  let sizeFormat := b₀ >>> 2 &&& 3
  let h := [3, 3, 4, 5].getD sizeFormat 0
  if block.length < h then
    .error (.fail .corruptLiterals)
  else
    let v := leNat (block.take h)
    let sizeBits := [10, 10, 14, 18].getD sizeFormat 0
    let regen := v >>> 4 &&& (2 ^ sizeBits - 1)
    let comp := v >>> (4 + sizeBits)
    let single : Bool := sizeFormat = 0
    if d.blockMax < regen ∨ (!single ∧ regen < 6) ∨ block.length < h + comp then
      .error (.fail .corruptLiterals)
    else do
      let body ← slice block h (h + comp : ℕ)
      let (n, d) ← d.literalsTable reload (b₀ &&& 3) body
      let body ← slice body n body.length
      let (buffer, d) ← d.literalBuffer regen
      let lits ← d.huff.decodeStreams reload single buffer body
      .ok (lits, h + comp, d.putLiterals lits)

/-- `decodeLiterals`: the literals at the front of `block`, and how many bytes the section
took. -/
def decodeLiterals (reload : Bool) (d : Decoder) (block : List UInt8) :
    Go Err (List UInt8 × ℕ × Decoder) :=
  match block with
  | [] => .error (.fail .corruptLiterals)
  | b :: _ =>
    if b.toNat &&& 3 < 2 then
      d.plainLiterals block b.toNat
    else
      d.codedLiterals reload block b.toNat

end Decoder

/-! ### Weights -/

theorem weightLoop_safe (reload : Bool) {t : FseDecTable} {m : ℕ} (ht : t.Wf m)
    {room state other : ℕ} {br : BackReader} (hstate : state < 2 ^ t.tableLog)
    (hother : other < 2 ^ t.tableLog) (hok : br.Ok) (hw : br.Within 7) :
  Safe (weightLoop reload t room state other br) (fun w => w.length ≤ room + 1)
  := by
  induction room generalizing state other br with
  | zero => exact Safe.fail
  | succ room ih =>
    apply (FseDecTable.entry_safe ht hstate).bind
    rintro e ⟨-, hbits, hnext⟩
    have hx : br.peek e.nbBits < 2 ^ e.nbBits := br.peek_lt (by omega)
    apply (BackReader.fill_safe reload (hok.skip e.nbBits)
      ((hw.skip e.nbBits).mono (by omega))).bind
    rintro br' ⟨hok', hw'⟩
    split
    · apply (FseDecTable.entry_safe ht hother).bind
      intro e' _
      simp
    · apply (ih hother (by omega) hok' hw').bind
      intro w hlen
      rw [Safe.ok_iff, length_cons]
      omega

theorem weightLoop_congr (reload : Bool) {t u : FseDecTable} (h : t.entry = u.entry)
    (room state other : ℕ) (br : BackReader) :
  weightLoop reload t room state other br = weightLoop reload u room state other br
  := by
  induction room generalizing state other br with
  | zero => rfl
  | succ room ih => simp only [weightLoop, h, ih]

theorem directWeights_safe {src : List UInt8} {count : ℕ} (h : 1 + (count + 1) / 2 ≤ src.length) :
  Safe (directWeights src count) (fun w => w.length = count)
  := by
  rw [directWeights]
  have hnibble : ∀ i ∈ range count, Safe (do
      let b ← idx src (1 + i / 2)
      .ok (if i % 2 = 0 then b.toNat >>> 4 else b.toNat &&& 15) : Go Err ℕ) (fun _ => True) := by
    intro i hi
    rw [mem_range] at hi
    rw [idx_of_lt (by omega)]
    trivial
  apply (Safe.mapM hnibble).mono
  intro w hw
  have := hw.length_eq
  simpa using this.symm

namespace Decoder

variable (reload : Bool) {d e : Decoder} {block src : List UInt8}

/-- Storage for distributions and weights is not part of what decoders have to agree on. -/
theorem Agree.scratch (h : d.Agree e) {n₁ n₂ : Vector ℤ 53} {t₁ t₂ : FseDecTable}
    {w₁ w₂ : Vector ℕ 255} :
  Agree { d with norm := n₁, weightTable := t₁, weights := w₁ }
    { e with norm := n₂, weightTable := t₂, weights := w₂ }
  := { h with }

theorem Agree.lits (h : d.Agree e) {l₁ l₂ : List UInt8} :
  Agree { d with lits := l₁ } { e with lits := l₂ }
  := { h with }

theorem readFSEWeights_same (h : d.Agree e) (src : List UInt8) :
  Same (fun r s => r.1 = s.1 ∧ r.2.Agree s.2 ∧ d.Steady r.2) (d.readFSEWeights reload src)
    (e.readFSEWeights reload src)
  := by
  rw [readFSEWeights]
  apply (readTable_same d.norm e.norm d.weightTable e.weightTable
    (by decide) (by decide) src).bind
  rintro ⟨n, t, norm⟩ ⟨n', t', norm'⟩ ⟨hn, hle, hagree, hwf, hmin, hmax⟩
  dsimp only at hn hle hagree hwf hmin hmax ⊢
  subst hn
  rw [maxHuffWeightLog] at hmax
  rw [slice_eq_ok hle le_rfl, ← hagree.1]
  apply (Same.of_safe (BackReader.init_safe reload _)).bind
  rintro br br' ⟨rfl, hok, hw, -⟩
  -- the two initial states take at most six bits each
  have hok' := (hok.skip t.tableLog).skip t.tableLog
  have hw' := (hw.skip t.tableLog).skip t.tableLog
  have hstate₀ : br.peek t.tableLog < 2 ^ t.tableLog := br.peek_lt (by omega)
  have hstate₁ : (br.skip t.tableLog).peek t.tableLog < 2 ^ t.tableLog :=
    BackReader.peek_lt _ (by omega)
  apply (Same.of_safe (BackReader.fill_safe reload hok' (hw'.mono (by omega)))).bind
  rintro br'' b ⟨rfl, hok'', hw''⟩
  split
  · exact Same.fail
  rw [weightLoop_congr reload hagree.entry_eq]
  have hwf' := hagree.wf hwf
  rw [hagree.1] at hstate₀ hstate₁ ⊢
  apply (Same.of_safe (weightLoop_safe reload hwf' hstate₀ hstate₁ hok'' hw'')).bind
  rintro w w' ⟨rfl, hlen⟩
  obtain ⟨s₁, hs₁, -⟩ := writeFrom_eq d.weights (show 0 + w.length ≤ 255 by omega)
  obtain ⟨s₂, hs₂, -⟩ := writeFrom_eq e.weights (show 0 + w.length ≤ 255 by omega)
  rw [hs₁, hs₂, ok_bind, ok_bind]
  exact ⟨rfl, h.scratch, ⟨rfl, rfl, rfl, rfl, rfl, rfl⟩⟩

theorem readDirectWeights_same (h : d.Agree e) {count : ℕ}
    (hsrc : 1 + (count + 1) / 2 ≤ src.length) (hcount : count ≤ 255) :
  Same (fun r s => r.1 = s.1 ∧ r.2.Agree s.2 ∧ d.Steady r.2) (d.readDirectWeights src count)
    (e.readDirectWeights src count)
  := by
  rw [readDirectWeights]
  apply (Same.of_safe (directWeights_safe hsrc)).bind
  rintro w w' ⟨rfl, hlen⟩
  obtain ⟨s₁, hs₁, -⟩ := writeFrom_eq d.weights (show 0 + w.length ≤ 255 by omega)
  obtain ⟨s₂, hs₂, -⟩ := writeFrom_eq e.weights (show 0 + w.length ≤ 255 by omega)
  rw [hs₁, hs₂, ok_bind, ok_bind]
  exact ⟨rfl, h.scratch, ⟨rfl, rfl, rfl, rfl, rfl, rfl⟩⟩

theorem readWeights_same (h : d.Agree e) (hsrc : src ≠ []) :
  Same (fun r s => r.1 = s.1 ∧ r.1 ≤ src.length ∧ r.2.1 = s.2.1 ∧ r.2.2.Agree s.2.2
      ∧ d.Steady r.2.2)
    (d.readWeights reload src) (e.readWeights reload src)
  := by
  have hpos : 0 < src.length := length_pos_iff.mpr hsrc
  rw [readWeights, readWeights, idx_of_lt hpos, ok_bind, ok_bind]
  have hbyte := src[0].toNat_lt
  generalize src[0].toNat = header at hbyte
  dsimp only
  split
  · obtain ⟨count, hcount⟩ : ∃ c, header - 127 = c := ⟨_, rfl⟩
    rw [hcount]
    split
    · exact Same.fail
    apply (readDirectWeights_same h (by omega)
      (by omega)).bind
    rintro ⟨w, d'⟩ ⟨w', e'⟩ ⟨hw, hd, hs⟩
    exact ⟨rfl, by dsimp only; omega, hw, hd, hs⟩
  · split
    · exact Same.fail
    · rw [slice_of_le (by omega) (by omega) (by omega)]
      apply (readFSEWeights_same reload h _).bind
      rintro ⟨w, d'⟩ ⟨w', e'⟩ ⟨hw, hd, hs⟩
      exact ⟨rfl, by dsimp only; omega, hw, hd, hs⟩

/-- A Huffman table read off the wire depends on the wire alone. -/
theorem readHuffTable_same (h : d.Agree e) (src : List UInt8) :
  Same (fun r s => r.1 = s.1 ∧ r.1 ≤ src.length
      ∧ Agree { r.2 with huffValid := true } { s.2 with huffValid := true } ∧ d.Steady r.2)
    (d.readHuffTable reload src) (e.readHuffTable reload src)
  := by
  rw [readHuffTable, readHuffTable]
  split
  · exact Same.fail
  rename_i hsrc
  apply (readWeights_same reload h hsrc).bind
  rintro ⟨n, w, d'⟩ ⟨n', w', e'⟩ ⟨hn, hle, hw, hd, hs⟩
  dsimp only at hn hle hw hd hs ⊢
  subst hn hw
  rcases HuffDecTable.build_cases w with hfail | ⟨last, maxBits, hcomplete⟩
  · rw [hfail, hfail]
    exact Same.fail
  obtain ⟨t, ht, hbits, hlive, hwf⟩ := HuffDecTable.build_complete hcomplete d'.huff
  obtain ⟨u, hu, hbits', hlive', -⟩ := HuffDecTable.build_complete hcomplete e'.huff
  rw [ht, hu, ok_bind, ok_bind]
  refine ⟨rfl, hle, { hd with huffValid_eq := rfl, huff := ?_ }, { hs with }⟩
  intro _
  exact ⟨⟨by rw [hbits, hbits'], by rw [hlive, hlive']⟩, hwf⟩

/-! ### Literals -/

/-- The buffer holds as many bytes as asked for. -/
theorem literalBuffer_ok {n : ℕ} (h : n ≤ d.blockMax) :
  ∃ buffer lits, d.literalBuffer n = .ok (buffer, { d with lits := lits }) ∧ buffer.length = n
  := by
  rw [literalBuffer]
  have hlen : n ≤ (if d.lits.length < n then replicate d.blockMax (0 : UInt8)
      else d.lits).length := by
    split
    · simpa using h
    · omega
  rw [slice_of_le le_rfl (by omega) (by omega)]
  refine ⟨_, _, rfl, ?_⟩
  simpa using hlen

theorem plainHeader_safe (hblock : block ≠ []) (b₀ : ℕ) :
  Safe (plainHeader block b₀) (fun r => r.1 ≤ block.length)
  := by
  have hpos : 0 < block.length := length_pos_iff.mpr hblock
  rw [plainHeader]
  split
  · split
    · exact Safe.fail
    · rw [idx_of_lt (by omega), ok_bind, Safe.ok_iff]
      omega
  · split
    · exact Safe.fail
    · rw [idx_of_lt (by omega), ok_bind, idx_of_lt (by omega), ok_bind, Safe.ok_iff]
      omega
  · exact hpos

/-- What the literals section of a block is decoded to, from decoders that agree: the same
literals, no more than a block of them, and decoders that agree. -/
def LiteralsSame (d : Decoder) (block : List UInt8) (r s : List UInt8 × ℕ × Decoder) : Prop :=
  r.1 = s.1 ∧ r.2.1 = s.2.1 ∧ r.2.2.Agree s.2.2 ∧ d.Steady r.2.2
    ∧ r.1.length ≤ d.blockMax ∧ r.2.1 ≤ block.length

theorem plainLiterals_same (h : d.Agree e) (hblock : block ≠ []) (b₀ : ℕ) :
  Same (LiteralsSame d block) (d.plainLiterals block b₀) (e.plainLiterals block b₀)
  := by
  rw [plainLiterals, plainLiterals, ← h.blockMax_eq]
  apply (Same.of_safe (plainHeader_safe hblock b₀)).bind
  rintro ⟨hdr, regen⟩ _ ⟨rfl, hhdr⟩
  dsimp only at hhdr ⊢
  split
  · exact Same.fail
  split
  · split
    · exact Same.fail
    · rw [slice_eq_ok (by omega) (by omega), ok_bind, ok_bind]
      refine ⟨rfl, rfl, h, Steady.refl d, ?_, by dsimp only; omega⟩
      simp only [length_drop, length_take]
      omega
  split
  · exact Same.fail
  obtain ⟨buf, lits, hbuf, hlen⟩ := literalBuffer_ok (show regen ≤ d.blockMax by omega)
  obtain ⟨buf', lits', hbuf', hlen'⟩ := literalBuffer_ok
    (show regen ≤ e.blockMax by rw [← h.blockMax_eq]; omega)
  rw [hbuf, hbuf', ok_bind, ok_bind]
  rw [idx_of_lt (by omega), ok_bind, ok_bind]
  refine ⟨?_, rfl, h.lits, ⟨rfl, rfl, rfl, rfl, rfl, rfl⟩, ?_, by dsimp only; omega⟩
  · simp only [map_const', hlen, hlen']
  · simp only [length_map, hlen]
    omega

theorem literalsTable_same (h : d.Agree e) (typ : ℕ) (body : List UInt8) :
  Same (fun r s => r.1 = s.1 ∧ r.1 ≤ body.length ∧ r.2.Agree s.2 ∧ r.2.huffValid = true
      ∧ d.Steady r.2)
    (d.literalsTable reload typ body) (e.literalsTable reload typ body)
  := by
  rw [literalsTable, literalsTable, ← h.huffValid_eq]
  split
  · apply (readHuffTable_same reload h body).bind
    rintro ⟨n, d'⟩ ⟨n', e'⟩ ⟨hn, hle, hd, hs⟩
    exact ⟨hn, hle, hd, rfl, { hs with }⟩
  · split
    · rename_i hvalid
      exact ⟨rfl, Nat.zero_le _, h, hvalid, Steady.refl d⟩
    · exact Same.fail

/-- The streams decode alike with tables that agree, over whatever the buffers held. -/
theorem decodeStreams_same {t u : HuffDecTable} (h : t.Agree u) (ht : t.Wf) (single : Bool)
    {dst dst' : List UInt8} (hlen : dst.length = dst'.length) (src : List UInt8) :
  Same (fun r s => r = s ∧ r.length = dst.length) (t.decodeStreams reload single dst src)
    (u.decodeStreams reload single dst' src)
  := by
  rw [HuffDecTable.decodeStreams, HuffDecTable.decodeStreams]
  split
  · rw [HuffDecTable.decodeStream_eq ht, HuffDecTable.decodeStream_eq (h.wf ht),
      ← h.streamLiterals, ← hlen]
    apply Same.of_safe
    apply (BackReader.init_safe reload src).bind
    intro br _
    exact t.streamLiterals_safe _ br
  · rw [HuffDecTable.decode4_eq reload ht, HuffDecTable.decode4_eq reload (h.wf ht),
      ← h.fourStreams, ← hlen]
    exact Same.of_safe (t.fourStreams_safe reload _ src)

theorem codedLiterals_same (h : d.Agree e) (block : List UInt8) (b₀ : ℕ) :
  Same (LiteralsSame d block) (d.codedLiterals reload block b₀) (e.codedLiterals reload block b₀)
  := by
  rw [codedLiterals, codedLiterals, ← h.blockMax_eq]
  dsimp only
  split
  · exact Same.fail
  generalize [3, 3, 4, 5].getD (b₀ >>> 2 &&& 3) 0 = hdr
  generalize [10, 10, 14, 18].getD (b₀ >>> 2 &&& 3) 0 = sizeBits
  generalize leNat (block.take hdr) = v
  generalize v >>> 4 &&& (2 ^ sizeBits - 1) = regen
  generalize v >>> (4 + sizeBits) = comp
  split
  · exact Same.fail
  rw [slice_eq_ok (by omega) (by omega)]
  apply (literalsTable_same reload h _ _).bind
  rintro ⟨n, d'⟩ ⟨n', e'⟩ ⟨hn, hle, hd, hvalid, hs⟩
  subst hn
  have hmax : regen ≤ d'.blockMax := by
    rw [hs.blockMax_eq]
    omega
  obtain ⟨buf, lits, hbuf, hlen⟩ := literalBuffer_ok hmax
  obtain ⟨buf', lits', hbuf', hlen'⟩ := literalBuffer_ok (hd.blockMax_eq ▸ hmax)
  rw [slice_eq_ok hle le_rfl, ok_bind, ok_bind, hbuf, hbuf', ok_bind, ok_bind]
  dsimp only
  obtain ⟨hagree, hwf⟩ := hd.huff hvalid
  apply (decodeStreams_same reload hagree hwf _ (by omega) _).bind
  rintro l l' ⟨rfl, hl⟩
  refine ⟨rfl, rfl, hd.lits, { hs with }, ?_, by dsimp only; omega⟩
  dsimp only
  omega

/-- The literals section decodes alike from decoders that agree. -/
theorem decodeLiterals_same (h : d.Agree e) (block : List UInt8) :
  Same (LiteralsSame d block) (d.decodeLiterals reload block) (e.decodeLiterals reload block)
  := by
  cases block with
  | nil => exact Same.fail
  | cons b block =>
    rw [decodeLiterals, decodeLiterals]
    split
    · exact plainLiterals_same h (by simp) _
    · exact codedLiterals_same reload h _ _

end Decoder

end Zstd
