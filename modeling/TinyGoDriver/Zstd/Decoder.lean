import TinyGoDriver.Zstd.DecodeBlock

/-!
# Frames and whole inputs

`decodeFrame` decodes one frame and `Decoder.decodeAll` every frame of its input; skippable
frames are skipped.  `decodeAll` is the call `DecodeAll`, which takes a decoder from the pool
and sets it up for its options.
-/

namespace Zstd

open GoRt List

/-! ### Options -/

def minWindow : ℤ := 2 ^ 10
def maxWindowCeiling : ℤ := 2 ^ 30
def defaultMaxWindow : ℤ := 8 * 2 ^ 20

/-- A `DecoderOption`. -/
inductive DecoderOption where
  | withMaxWindow (n : ℤ)
  | withMaxOutput (n : ℤ)
  deriving DecidableEq, Repr

structure DecoderOptions where
  maxWindow : ℤ
  maxOutput : ℤ
  err : Option Err
  deriving DecidableEq, Repr

def DecoderOption.applyDecoder (options : DecoderOptions) : DecoderOption → DecoderOptions
  | .withMaxWindow n =>
    if n < minWindow ∨ maxWindowCeiling < n then { options with err := some .invalidMaxWindow }
    else { options with maxWindow := n }
  | .withMaxOutput n =>
    if n < 0 then { options with err := some .invalidMaxOutput }
    else { options with maxOutput := n }

/-- `resolveDecoderOptions`; an option may be nil. -/
def resolveDecoderOptions (options : List (Option DecoderOption)) : DecoderOptions :=
  options.foldl (fun resolved option => option.elim resolved (·.applyDecoder resolved))
    ⟨defaultMaxWindow, 0, none⟩

def Decoder.configure (d : Decoder) (options : DecoderOptions) : Decoder :=
  { d with maxWindow := options.maxWindow.toNat, maxOutput := options.maxOutput }

/-! ### Frames -/

/-- Decodes one block and accounts for it. -/
def decodeBlock (reload : Bool) (typ size : ℕ) (payload : List UInt8) : DecodeM Unit := do
  let s ← get
  let start := s.out.length
  appendBlock reload typ size payload
  let s ← get
  let content ← GoM.call (slice s.out start s.out.length)
  let d ← GoM.call (s.d.blockDone content)
  set (⟨d, s.out, s.out.length⟩ : DecodeState)

/-- Holds the content so far to the output limit, which `before` bytes count against. -/
def checkOutput (before : ℤ) : DecodeM Unit := do
  let s ← get
  if 0 < s.d.maxOutput ∧ s.d.maxOutput < before + s.d.produced then
    GoM.fail .outputTooLarge
  else
    pure ()

/-- The loop of `decodeFrame` over the blocks.  It returns what follows the last. -/
def blockLoop (reload : Bool) (before : ℤ) : ℕ → List UInt8 → DecodeM (List UInt8)
  | 0, _ => GoM.call (.error .diverge)
  | fuel + 1, src =>
    if src.length < 3 then
      GoM.fail .unexpectedEOF
    else do
      let s ← get
      let (typ, size, last) ← GoM.call (s.d.parseBlockHeader src)
      let src := src.drop 3
      let payload := blockPayloadSize typ size
      if src.length < payload then
        GoM.fail .unexpectedEOF
      else do
        decodeBlock reload typ size (src.take payload)
        checkOutput before
        if last then pure (src.drop payload)
        else blockLoop reload before fuel (src.drop payload)

/-- The end of a frame: its checksum, if it carries one.  It returns what follows. -/
def frameEnd (src : List UInt8) : DecodeM (List UInt8) := do
  let s ← get
  if s.d.frame.checksum then
    if src.length < 4 then
      GoM.fail .unexpectedEOF
    else do
      GoM.call (s.d.endFrame (src.take 4))
      pure (src.drop 4)
  else do
    GoM.call (s.d.endFrame [])
    pure src

/-- Refuses a frame that says it will exceed the output limit. -/
def checkDeclared (before : ℤ) : DecodeM Unit := do
  let s ← get
  if s.d.frame.hasContentSize ∧ 0 < s.d.maxOutput
      ∧ wrap 64 (s.d.maxOutput - before) < s.d.frame.contentSize then
    GoM.fail .outputTooLarge
  else
    pure ()

/-- `decodeFrame`: decodes the frame at the front of `src`, which starts after the magic
number, and returns what follows it.  `before` is how much content earlier frames produced. -/
def decodeFrame (reload : Bool) (before : ℤ) (src : List UInt8) : DecodeM (List UInt8) := do
  let (h, n) ← GoM.call (parseFrameParams src)
  let src ← GoM.call (slice src n src.length)
  let s ← get
  let d ← GoM.call (s.d.beginFrame h)
  set { s with d := d }
  checkDeclared before
  let src ← blockLoop reload before (src.length + 1) src
  frameEnd src

/-! ### Whole inputs -/

/-- What follows the skippable frame at the front of `src`. -/
def skipFrame (src : List UInt8) : Go Err (List UInt8) :=
  if src.length < 8 then
    .error (.fail .unexpectedEOF)
  else do
    let size ← leAt 4 src 4
    if src.length - 8 < size then
      .error (.fail .unexpectedEOF)
    else
      slice src (8 + size : ℕ) src.length

/-- The loop of `decodeAll`; `origin` is the length of the output it started with. -/
def frameLoop (reload : Bool) (origin : ℕ) : ℕ → List UInt8 → DecodeM Unit
  | 0, _ => GoM.call (.error .diverge)
  | fuel + 1, src =>
    if src = [] then
      pure ()
    else if src.length < 4 then
      GoM.fail .unexpectedEOF
    else do
      let magic ← GoM.call (leAt 4 src 0)
      if magic &&& skippableMagicMask = skippableMagic then do
        let src ← GoM.call (skipFrame src)
        frameLoop reload origin fuel src
      else if magic ≠ frameMagic then
        GoM.fail .badMagic
      else do
        let s ← get
        let src ← decodeFrame reload (s.out.length - origin) (src.drop 4)
        frameLoop reload origin fuel src

/-- How a call of `decodeAll` ended, with what it appended to and its record. -/
abbrev DecodeResult : Type := EStateM.Result (Fault Err) DecodeState Unit

/-- `decodeAll`: appends the content of every frame in `src` to `dst`. -/
def Decoder.decodeAll (reload : Bool) (d : Decoder) (dst src : List UInt8) : DecodeResult :=
  frameLoop reload dst.length (src.length + 1) src ⟨d, dst, dst.length⟩

/-- `DecodeAll`, with the decoder `d` from the pool. -/
def decodeAll (reload : Bool) (d : Decoder) (dst src : List UInt8)
    (options : List (Option DecoderOption)) : DecodeResult :=
  let resolved := resolveDecoderOptions options
  match resolved.err with
  | some e => .error (.fail e) ⟨d, dst, dst.length⟩
  | none => (d.configure resolved).decodeAll reload dst src

/-- The slice a call returns. -/
def DecodeResult.out : DecodeResult → List UInt8
  | .ok _ s => s.out
  | .error _ s => s.out

/-- The fault a call ends with, if any. -/
def DecodeResult.fault : DecodeResult → Option (Fault Err)
  | .ok _ _ => none
  | .error e _ => some e

theorem DecodeResult.exists_ok {r : DecodeResult} {l : List UInt8}
    (h : r.fault = none ∧ r.out = l) :
  ∃ s, r = .ok () s ∧ s.out = l
  := by
  cases r with
  | ok _ s => exact ⟨s, rfl, h.2⟩
  | error e s => cases h.1

/-! ### Two runs -/

/-- Two runs between the blocks of a frame: what they have added since the frame began is the
same, and it is all the frame has produced. -/
structure InFrame (a b : List UInt8) (s t : DecodeState) : Prop where
  agree : s.d.Agree t.d
  content : ∃ h, s.out = a ++ h ∧ t.out = b ++ h ∧ h.length = s.d.produced
  done₁ : s.done = s.out.length
  done₂ : t.done = t.out.length

/-- Two runs have added the same, and completed the same part of it. -/
def Added (a b : List UInt8) (s t : DecodeState) : Prop :=
  ∃ y k, s.out = a ++ y ∧ t.out = b ++ y ∧ k ≤ y.length ∧ s.done = a.length + k
    ∧ t.done = b.length + k

section Frames

variable {a b x : List UInt8} {s t : DecodeState}

theorem InFrame.added (hs : InFrame a b s t) :
  Added a b s t
  := by
  obtain ⟨h, h₁, h₂, -⟩ := hs.content
  refine ⟨h, h.length, h₁, h₂, le_rfl, ?_, ?_⟩
  · rw [hs.done₁, h₁, length_append]
  · rw [hs.done₂, h₂, length_append]

/-- What has been added to `a ++ x` has been added to `a`. -/
theorem Added.of_append (h : Added (a ++ x) (b ++ x) s t) :
  Added a b s t
  := by
  obtain ⟨y, k, h₁, h₂, hk, h₃, h₄⟩ := h
  rw [length_append] at h₃ h₄
  refine ⟨x ++ y, x.length + k, ?_, ?_, ?_, ?_, ?_⟩
  · rw [h₁, append_assoc]
  · rw [h₂, append_assoc]
  · simp [hk]
  · omega
  · omega

variable {h payload src : List UInt8} {typ : ℕ}

theorem Alike.added {i j m : ℕ} (hs : Alike a b h i j m s t) (hi : i = a.length + h.length)
    (hj : j = b.length + h.length) :
  Added a b s t
  := by
  obtain ⟨⟨y, h₁, h₂, -⟩, h₃, h₄⟩ := hs
  refine ⟨h ++ y, h.length, h₁, h₂, by simp, by omega, by omega⟩

/-- Two runs after a block, which began with the decoder `d₀` in the first and with the history
`h` in both. -/
structure AfterBlock (a b h : List UInt8) (d₀ : Decoder) (s t : DecodeState) : Prop where
  agree : s.d.Agree t.d
  content : ∃ y, s.out = a ++ (h ++ y) ∧ t.out = b ++ (h ++ y) ∧ y.length ≤ d₀.blockMax
    ∧ Decoder.Steady { d₀ with produced := d₀.produced + y.length } s.d
  done₁ : s.done = s.out.length
  done₂ : t.done = t.out.length

variable (reload : Bool) {size fuel : ℕ}

/-- A block is decoded and accounted for alike, if the outputs end in the same history and that
is at least a window of the frame. -/
theorem decodeBlock_after (hagree : s.d.Agree t.d) (h₁ : s.out = a ++ h) (h₂ : t.out = b ++ h)
    (hreach : min s.d.produced s.d.window ≤ h.length) (hsize : size ≤ s.d.blockMax)
    (hpayload : payload.length = blockPayloadSize typ size) :
  SameRun (fun _ _ s' t' => AfterBlock a b h s.d s' t') (Alike a b h s.done t.done s.d.blockMax)
    (decodeBlock reload typ size payload) (decodeBlock reload typ size payload) s t
  := by
  rw [decodeBlock]
  apply SameRun.get_bind
  apply SameRun.bind (appendBlock_same reload hagree h₁ h₂ hreach hsize hpayload)
  rintro _ _ s₁ t₁ hs₁
  apply SameRun.get_bind
  obtain ⟨y, hy₁, hy₂, hy⟩ := hs₁.content
  have hcut : ∀ {c out out' : List UInt8}, out = c ++ h → out' = c ++ (h ++ y) →
      (slice out' out.length out'.length : Go Err _) = .ok y := by
    rintro c _ _ rfl rfl
    rw [slice_eq_ok (by simp) le_rfl, take_length, ← append_assoc, drop_left]
  rw [hcut h₁ hy₁, hcut h₂ hy₂]
  apply SameRun.ok_bind
  apply SameRun.call_bind (Decoder.blockDone_same hs₁.agree y) hs₁.alike
  rintro d e ⟨hde, hd⟩
  refine ⟨hde, ⟨y, hy₁, hy₂, hy, ?_⟩, rfl, rfl⟩
  have hsteady := hs₁.steady
  exact ⟨hd.1.trans hsteady.1, hd.2.trans hsteady.2, hd.3.trans hsteady.3,
    hd.4.trans hsteady.4, hd.5.trans hsteady.5, by rw [hd.6, ← hsteady.6]⟩

/-- A block leaves the output limit as it is. -/
theorem decodeBlock_maxOutput (hagree : t.d.Agree t.d) (h₂ : t.out = b ++ h)
    (hreach : min t.d.produced t.d.window ≤ h.length) (hsize : size ≤ t.d.blockMax)
    (hpayload : payload.length = blockPayloadSize typ size) :
  SameRun (fun _ _ t' _ => t'.d.maxOutput = t.d.maxOutput) (fun _ _ => True)
    (decodeBlock reload typ size payload) (decodeBlock reload typ size payload) t t
  := by
  apply (decodeBlock_after reload hagree h₂ h₂ hreach hsize hpayload).mono
  · rintro _ _ t' _ h'
    obtain ⟨y, -, -, -, hd⟩ := h'.content
    exact hd.maxOutput_eq
  · exact fun _ _ _ => trivial

theorem decodeBlock_same (hs : InFrame a b s t) (hsize : size ≤ s.d.blockMax)
    (hpayload : payload.length = blockPayloadSize typ size) :
  SameRun (fun _ _ s' t' => (InFrame a b s' t'
      ∧ ∃ k, Decoder.Steady { s.d with produced := s.d.produced + k } s'.d)
        ∧ t'.d.maxOutput = t.d.maxOutput) (Added a b)
    (decodeBlock reload typ size payload) (decodeBlock reload typ size payload) s t
  := by
  obtain ⟨h, h₁, h₂, hlen⟩ := hs.content
  have hlen' : t.d.produced = h.length := by rw [hlen, hs.agree.produced_eq]
  refine SameRun.and_right ?_
    (decodeBlock_maxOutput reload hs.agree.right h₂ (by omega) (hs.agree.blockMax_eq ▸ hsize)
      hpayload)
  apply (decodeBlock_after reload hs.agree h₁ h₂ (by omega) hsize hpayload).mono
  · rintro _ _ s' t' h'
    obtain ⟨y, hy₁, hy₂, -, hd⟩ := h'.content
    refine ⟨⟨h'.agree, ⟨h ++ y, hy₁, hy₂, ?_⟩, h'.done₁, h'.done₂⟩, y.length, hd⟩
    rw [hd.produced_eq, length_append, hlen]
  · intro s' t' hst
    apply hst.added
    · rw [hs.done₁, h₁, length_append]
    · rw [hs.done₂, h₂, length_append]

theorem checkOutput_same (before : ℤ) (hs : InFrame a b s t)
    (hlimit : s.d.maxOutput = t.d.maxOutput) :
  SameRun (fun _ _ s' t' => s' = s ∧ t' = t) (Added a b) (checkOutput before)
    (checkOutput before) s t
  := by
  rw [checkOutput]
  apply SameRun.get_bind
  rw [← hlimit, ← hs.agree.produced_eq]
  split
  · exact SameRun.fail hs.added
  · exact ⟨rfl, rfl⟩

theorem checkDeclared_same (before : ℤ) (hs : InFrame a b s t)
    (hlimit : s.d.maxOutput = t.d.maxOutput) :
  SameRun (fun _ _ s' t' => s' = s ∧ t' = t) (Added a b) (checkDeclared before)
    (checkDeclared before) s t
  := by
  rw [checkDeclared]
  apply SameRun.get_bind
  rw [← hlimit, ← hs.agree.frame_eq]
  split
  · exact SameRun.fail hs.added
  · exact ⟨rfl, rfl⟩

/-- The blocks of a frame decode alike. -/
theorem blockLoop_same (before : ℤ) (hfuel : src.length < fuel) (hs : InFrame a b s t)
    (hlimit : s.d.maxOutput = t.d.maxOutput) :
  SameRun (fun r r' s' t' => r = r' ∧ r.length ≤ src.length ∧ InFrame a b s' t'
      ∧ s'.d.maxOutput = s.d.maxOutput ∧ t'.d.maxOutput = t.d.maxOutput) (Added a b)
    (blockLoop reload before fuel src) (blockLoop reload before fuel src) s t
  := by
  induction fuel generalizing src s t with
  | zero => omega
  | succ fuel ih =>
    rw [blockLoop]
    split
    · exact SameRun.fail hs.added
    apply SameRun.get_bind
    have hheader : t.d.parseBlockHeader src = s.d.parseBlockHeader src := by
      rw [Decoder.parseBlockHeader, Decoder.parseBlockHeader, hs.agree.blockMax_eq]
    rw [hheader]
    apply SameRun.call_bind (Same.of_safe (parseBlockHeader_safe s.d (by omega))) hs.added
    rintro ⟨typ, size, last⟩ _ ⟨rfl, -, hsize⟩
    dsimp only at hsize ⊢
    split
    · exact SameRun.fail hs.added
    apply SameRun.bind (decodeBlock_same reload hs hsize (by
      rw [length_take]
      omega))
    rintro _ _ s₁ t₁ ⟨⟨hs₁, _, hsteady⟩, hmax₂⟩
    have hmax₁ : s₁.d.maxOutput = s.d.maxOutput := hsteady.maxOutput_eq
    have hlimit' : s₁.d.maxOutput = t₁.d.maxOutput := by rw [hmax₁, hmax₂, hlimit]
    apply SameRun.bind (checkOutput_same before hs₁ hlimit')
    rintro _ _ _ _ ⟨rfl, rfl⟩
    split
    · exact ⟨rfl, by simp, hs₁, hmax₁, hmax₂⟩
    apply (ih (by simp; omega) hs₁ hlimit').mono
    · rintro r r' s' t' ⟨h₁, h₂, h₃, hmax₃, hmax₄⟩
      refine ⟨h₁, ?_, h₃, hmax₃.trans hmax₁, hmax₄.trans hmax₂⟩
      simp at h₂
      omega
    · exact fun _ _ h' => h'

theorem frameEnd_same (src : List UInt8) (hs : InFrame a b s t) :
  SameRun (fun r r' s' t' => r = r' ∧ r.length ≤ src.length ∧ s' = s ∧ t' = t) (Added a b)
    (frameEnd src) (frameEnd src) s t
  := by
  rw [frameEnd]
  apply SameRun.get_bind
  rw [← hs.agree.frame_eq]
  split
  · split
    · exact SameRun.fail hs.added
    · apply SameRun.call_bind (Decoder.endFrame_same hs.agree (fun _ => by simp; omega)) hs.added
      rintro _ _ _
      exact ⟨rfl, by simp, rfl, rfl⟩
  · rename_i hsum
    apply SameRun.call_bind (Decoder.endFrame_same hs.agree (fun h => absurd h hsum)) hs.added
    rintro _ _ _
    exact ⟨rfl, le_rfl, rfl, rfl⟩

/-- Decoders with the same limits decode a frame alike, whatever their outputs and the rest
of their state hold. -/
theorem decodeFrame_same (before : ℤ) (src : List UInt8)
    (hw : s.d.maxWindow = t.d.maxWindow) (ho : s.d.maxOutput = t.d.maxOutput)
    (hdone₁ : s.done = s.out.length) (hdone₂ : t.done = t.out.length) :
  SameRun (fun r r' s' t' => r = r' ∧ r.length ≤ src.length ∧ InFrame s.out t.out s' t'
      ∧ s'.d.maxOutput = s.d.maxOutput ∧ t'.d.maxOutput = t.d.maxOutput) (Added s.out t.out)
    (decodeFrame reload before src) (decodeFrame reload before src) s t
  := by
  have hadd : Added s.out t.out s t :=
    ⟨[], 0, by simp, by simp, le_rfl, by omega, by omega⟩
  apply SameRun.call_bind (Same.of_safe (parseFrameParams_safe src)) hadd
  rintro ⟨h, n⟩ _ ⟨rfl, hn, -⟩
  dsimp only at hn ⊢
  rw [slice_eq_ok hn le_rfl]
  apply SameRun.ok_bind
  obtain ⟨rest, hrest⟩ : ∃ rest, (src.take src.length).drop n = rest := ⟨_, rfl⟩
  have hlen : rest.length ≤ src.length := by simp [← hrest]
  rw [hrest]
  apply SameRun.get_bind
  apply SameRun.call_bind (Decoder.beginFrame_same hw h) hadd
  rintro d e ⟨hde, hprod, hd, he⟩
  have hlimit : d.maxOutput = e.maxOutput := by rw [hd, he, ho]
  apply SameRun.set_bind
  have hs : InFrame s.out t.out { s with d := d } { t with d := e } :=
    ⟨hde, ⟨[], by simp, by simp, by simp [hprod]⟩, hdone₁, hdone₂⟩
  apply SameRun.bind (checkDeclared_same before hs hlimit)
  rintro _ _ _ _ ⟨rfl, rfl⟩
  apply SameRun.bind (blockLoop_same reload before (Nat.lt_succ_self _) hs hlimit)
  rintro src' _ s₁ t₁ ⟨rfl, hlen', hs₁, hmax₁, hmax₂⟩
  apply (frameEnd_same src' hs₁).mono
  · rintro r _ _ _ ⟨rfl, hr, rfl, rfl⟩
    exact ⟨rfl, by omega, hs₁, hmax₁.trans hd, hmax₂.trans he⟩
  · exact fun _ _ h' => h'

theorem skipFrame_safe :
  Safe (skipFrame src) (fun rest => rest.length < src.length)
  := by
  rw [skipFrame]
  split
  · exact Safe.fail
  rw [leAt_of_nonneg (by omega) (by omega), ok_bind]
  split
  · exact Safe.fail
  rw [slice_eq_ok (by omega) le_rfl]
  simp
  omega

/-- Whole inputs decode alike, whatever stands before the content in the outputs. -/
theorem frameLoop_same (hfuel : src.length < fuel) (hw : s.d.maxWindow = t.d.maxWindow)
    (ho : s.d.maxOutput = t.d.maxOutput) (hs : s.out = a ++ x) (ht : t.out = b ++ x)
    (hdone₁ : s.done = s.out.length) (hdone₂ : t.done = t.out.length) :
  SameRun (fun _ _ s' t' => Added a b s' t' ∧ s'.done = s'.out.length) (Added a b)
    (frameLoop reload a.length fuel src) (frameLoop reload b.length fuel src) s t
  := by
  have hadd : Added a b s t := by
    refine ⟨x, x.length, hs, ht, le_rfl, ?_, ?_⟩
    · rw [hdone₁, hs, length_append]
    · rw [hdone₂, ht, length_append]
  induction fuel generalizing src x s t with
  | zero => omega
  | succ fuel ih =>
    rw [frameLoop, frameLoop]
    split
    · exact ⟨hadd, hdone₁⟩
    split
    · exact SameRun.fail hadd
    rw [leAt_of_nonneg le_rfl (by omega)]
    apply SameRun.ok_bind
    split
    · apply SameRun.call_bind (Same.of_safe skipFrame_safe) hadd
      rintro rest _ ⟨rfl, hrest⟩
      exact ih (by omega) hw ho hs ht hdone₁ hdone₂ hadd
    split
    · exact SameRun.fail hadd
    apply SameRun.get_bind
    -- the same count of earlier content, though the outputs differ in length
    have hbefore : ∀ {c out : List UInt8}, out = c ++ x →
        (out.length : ℤ) - c.length = x.length := by
      rintro c _ rfl
      simp
    rw [hbefore hs, hbefore ht]
    apply SameRun.bind
    · apply (decodeFrame_same reload x.length (src.drop 4) hw ho hdone₁ hdone₂).mono
        (fun _ _ _ _ h' => h')
      intro s' t' hst
      rw [hs, ht] at hst
      exact hst.of_append
    rintro rest _ s₁ t₁ ⟨rfl, hrest, hs₁, hmax₁, hmax₂⟩
    obtain ⟨h, h₁, h₂, -⟩ := hs₁.content
    rw [hs, append_assoc] at h₁
    rw [ht, append_assoc] at h₂
    rw [length_drop] at hrest
    have hadd₁ : Added a b s₁ t₁ := by
      have := hs₁.added
      rw [hs, ht] at this
      exact this.of_append
    exact ih (by omega) hs₁.agree.maxWindow_eq (by rw [hmax₁, hmax₂, ho]) h₁ h₂ hs₁.done₁
      hs₁.done₂ hadd₁

end Frames

/-! ### Safety and isolation -/

/-- How a call ended, and the output it left. -/
def outcome {α : Type} : EStateM.Result (Fault Err) DecodeState α →
    Except (Fault Err) α × List UInt8
  | .ok r s => (.ok r, s.out)
  | .error e s => (.error e, s.out)

/-- Compared runs end alike and add the same. -/
theorem outcome_same {α : Type} {R : α → α → DecodeState → DecodeState → Prop}
    {x y : DecodeM α} {s t : DecodeState} {a b : List UInt8}
    (h : SameRun R (Added a b) x y s t)
    (hR : ∀ r r' s' t', R r r' s' t' → r = r' ∧ Added a b s' t') :
  ∃ r z, outcome (x s) = (r, a ++ z) ∧ outcome (y t) = (r, b ++ z)
    ∧ (∀ f, r = .error f → ∃ e, f = .fail e)
  := by
  rcases SameRun.cases h with ⟨r, r', s', t', hx, hy, hrel⟩ | ⟨e, s', t', hx, hy, hadd⟩
  · obtain ⟨rfl, z, -, h₁, h₂, -⟩ := hR _ _ _ _ hrel
    refine ⟨.ok r, z, ?_, ?_, ?_⟩
    · rw [hx, outcome, h₁]
    · rw [hy, outcome, h₂]
    · intro f hf
      cases hf
  obtain ⟨z, -, h₁, h₂, -⟩ := hadd
  refine ⟨.error (.fail e), z, ?_, ?_, ?_⟩
  · rw [hx, outcome, h₁]
  · rw [hy, outcome, h₂]
  · intro f hf
    cases hf
    exact ⟨e, rfl⟩

/-- A call with any decoder and any output ends as it would with a new decoder and an empty
output, and in an orderly way. -/
theorem decodeAll_outcome (reload : Bool) (d : Decoder) (dst src : List UInt8)
    (options : List (Option DecoderOption)) :
  ∃ r z, outcome (decodeAll reload d dst src options) = (r, dst ++ z)
    ∧ outcome (decodeAll reload Decoder.new [] src options) = (r, z)
    ∧ (∀ f, r = .error f → ∃ e, f = .fail e)
  := by
  rw [decodeAll, decodeAll]
  cases herr : (resolveDecoderOptions options).err with
  | some e =>
    refine ⟨.error (.fail e), [], by simp [outcome], rfl, ?_⟩
    intro f hf
    cases hf
    exact ⟨e, rfl⟩
  | none =>
    have hsame := frameLoop_same (a := dst) (b := [])
      (s := ⟨d.configure (resolveDecoderOptions options), dst, dst.length⟩)
      (t := ⟨Decoder.new.configure (resolveDecoderOptions options), [], 0⟩)
      reload (Nat.lt_succ_self src.length) rfl rfl (by simp) rfl rfl rfl
    exact outcome_same hsame (fun _ _ _ _ h => ⟨rfl, h.1⟩)

/-- For every decoder, every output to append to, every input and all options, `DecodeAll`
returns, with its content or with an error.  No index or slice bound is out of range and no
loop runs on (`panic`, `diverge`); no state points outside the part of its table that is in
use, no match outside the output of its frame, and no repeat slot is zero (`stray`). -/
theorem decodeAll_safe (reload : Bool) (d : Decoder) (dst src : List UInt8)
    (options : List (Option DecoderOption)) :
  (∃ s, decodeAll reload d dst src options = .ok () s)
    ∨ ∃ e s, decodeAll reload d dst src options = .error (.fail e) s
  := by
  obtain ⟨r, z, h, -, hfail⟩ := decodeAll_outcome reload d dst src options
  cases hresult : decodeAll reload d dst src options with
  | ok _ s => exact .inl ⟨s, rfl⟩
  | error f s =>
    rw [hresult, Prod.mk.injEq] at h
    obtain ⟨e, rfl⟩ := hfail f h.1.symm
    exact .inr ⟨e, s, rfl⟩

/-- What a decoder went through before does not show: `DecodeAll` appends to any output what
a new decoder gives for the input, with the same error or none.  The same holds of each
frame, so that a frame does not depend on those before it either. -/
theorem decodeAll_isolated (reload : Bool) (d : Decoder) (dst src : List UInt8)
    (options : List (Option DecoderOption)) :
  (∃ r z, outcome (decodeAll reload d dst src options) = (r, dst ++ z)
    ∧ outcome (decodeAll reload Decoder.new [] src options) = (r, z))
  ∧ ∀ (before : ℤ) (frame : List UInt8),
      ∃ r z, outcome (decodeFrame reload before frame ⟨d, dst, dst.length⟩) = (r, dst ++ z)
        ∧ outcome (decodeFrame reload before frame
            ⟨{ Decoder.new with maxWindow := d.maxWindow, maxOutput := d.maxOutput }, [], 0⟩)
          = (r, z)
  := by
  constructor
  · obtain ⟨r, z, h₁, h₂, -⟩ := decodeAll_outcome reload d dst src options
    exact ⟨r, z, h₁, h₂⟩
  intro before frame
  have hsame := decodeFrame_same (s := ⟨d, dst, dst.length⟩)
    (t := ⟨{ Decoder.new with maxWindow := d.maxWindow, maxOutput := d.maxOutput }, [], 0⟩)
    reload before frame rfl rfl rfl rfl
  obtain ⟨r, z, h₁, h₂, -⟩ := outcome_same hsame (fun _ _ _ _ h => ⟨h.1, h.2.2.1.added⟩)
  exact ⟨r, z, h₁, h₂⟩

end Zstd
