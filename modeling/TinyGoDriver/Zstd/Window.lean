import TinyGoDriver.Go.Reads
import TinyGoDriver.Zstd.Streaming

/-!
# The window of a `Reader`

A `Reader` keeps what it has decoded in one buffer, and later blocks copy from it.  `Run` follows a
stream through any number of frames and blocks, along with the content that the frame it is in has
had so far.  Before each block the buffer ends in what the block may copy from, has room for the
block, and has not grown beyond two windows and a block.
-/

namespace Zstd

namespace Stream

open GoRt GoM

/-! ### Steps that only read -/

/-- Where the call returns, it has taken something from the input and done nothing else. -/
def Feeds {α : Type} (x : StreamM α) : Prop :=
  ∀ ⦃z src a z'⦄, z.Ready src → x z = .ok a z' → ∃ b src', z' = z.setInput b ∧ z'.Ready src'

variable {z z' : Stream} {reload : Bool} {content : List UInt8}

namespace Feeds

variable {α β : Type} {x : StreamM α}

theorem same {src : List UInt8} (hz : z.Ready src) (h : z' = z) :
  ∃ b src', z' = z.setInput b ∧ z'.Ready src'
  := by
  obtain ⟨b, hb, -⟩ := hz.input
  exact ⟨b, src, by rw [h, setInput, ← hb], h ▸ hz⟩

theorem pure (a : α) :
  Feeds (Pure.pure a)
  := by
  intro z src a' z' hz h
  cases h
  exact same hz rfl

theorem decode (x : Go Err α) :
  Feeds (decode x)
  := by
  intro z src a z' hz h
  cases x with
  | ok _ =>
    cases h
    exact same hz rfl
  | error _ => cases h

theorem bind {f : α → StreamM β} (hx : Feeds x) (hf : ∀ a, Feeds (f a)) :
  Feeds (x >>= f)
  := by
  intro z src a z' hz h
  obtain ⟨a₁, z₁, h₁, h₂⟩ := bind_eq_ok.mp h
  obtain ⟨b, src₁, rfl, hz₁⟩ := hx hz h₁
  obtain ⟨b', src', rfl, hz'⟩ := hf a₁ hz₁ h₂
  exact ⟨b', src', rfl, hz'⟩

theorem unexpected (hx : Feeds x) :
  Feeds (unexpected x)
  := by
  intro z src a z' hz h
  rw [Stream.unexpected] at h
  split at h
  · cases h
  · exact hx hz h

theorem readFull (n : ℕ) :
  Feeds (onInput (Bufio.readFull n))
  := by
  intro z src a z' hz h
  by_cases hn : n ≤ src.length
  · obtain ⟨b, hb, hz'⟩ := hz.readFull hn
    rw [hb] at h
    cases h
    exact ⟨b, _, rfl, hz'⟩
  · obtain ⟨b, hb⟩ := hz.readFull_short (Nat.lt_of_not_le hn)
    rw [hb] at h
    cases h

theorem readHdr (lo hi : ℕ) :
  Feeds (readHdr lo hi)
  := by
  rw [Stream.readHdr]
  split
  · exact readFull _
  · intro z src a z' hz h
    cases h

theorem skip (n : ℕ) :
  Feeds (skip n)
  := by
  intro z src a z' hz h
  rw [Stream.skip] at h
  obtain ⟨b, hb⟩ := hz.skipLoop (Nat.lt_succ_self n)
  split at hb
  · rw [hb.1] at h
    cases h
    exact ⟨b, _, rfl, hb.2⟩
  · rw [hb] at h
    cases h

theorem readSum :
  Feeds readSum
  := by
  intro z src a z' hz h
  rw [Stream.readSum, get_bind] at h
  split at h
  · exact (readHdr 0 4).unexpected hz h
  · exact pure [] hz h

end Feeds

/-! ### Whole runs -/

/-- The content of the frame the stream is in, after a step that was taken in `state` and decoded
`c`. -/
def frameContent (state : ReadState) (content c : List UInt8) : List UInt8 :=
  match state with
  | .readFrame => []
  | .readBlock => content ++ c
  | .readFrameEnd => content

/-- The stream has got to `z` by steps since a `Reset`, where the frame it is in has had `content`
so far.  A step is taken once everything has been read. -/
inductive Run (reload : Bool) : Stream → List UInt8 → Prop
  | reset (z : Reader) (src : Source) : Run reload (z.reset (some src)).stream []
  | step {z z' : Stream} {content : List UInt8} (hz : Run reload z content)
      (hnext : next reload z = .ok () z') :
      Run reload z'.readAll (frameContent z.state content z'.unread)

/-- What holds between two steps. -/
inductive Inv : Stream → List UInt8 → Prop
  | atFrame {z : Stream} {src content : List UInt8} (hz : z.Ready src)
      (hstate : z.state = .readFrame) : Inv z content
  | inBlocks {z : Stream} {src : List UInt8} {s : DecodeState} (hz : z.InBlocks src s)
      (hproduced : s.out.length = z.d.produced) : Inv z s.out
  | atEnd {z : Stream} {src content : List UInt8} {s : DecodeState} (hz : z.AtEnd src s) :
      Inv z content

/-- A header is read: it is skipped, or a frame begins. -/
theorem Ready.next_readFrame {src : List UInt8} (hz : z.Ready src) (hstate : z.state = .readFrame)
    (hnext : next reload z = .ok () z') :
  Inv z'.readAll [] ∧ z'.histCap = z.histCap
  := by
  rw [Stream.next_readFrame reload hstate] at hnext
  obtain ⟨word, z₁, h₁, hnext⟩ := bind_eq_ok.mp hnext
  obtain ⟨b, src₁, rfl, hz₁⟩ := Feeds.readHdr 0 4 hz h₁
  obtain ⟨magic, z₂, h₂, hnext⟩ := bind_eq_ok.mp hnext
  obtain ⟨b, src₂, rfl, hz₂⟩ := Feeds.decode _ hz₁ h₂
  split at hnext
  · have hfeeds :
        Feeds (unexpected (readHdr 0 4) >>= fun word => decode (leAt 4 word 0) >>= skip) :=
      (Feeds.readHdr 0 4).unexpected.bind fun word => (Feeds.decode _).bind Feeds.skip
    obtain ⟨b, src', rfl, hz'⟩ := hfeeds hz₂ hnext
    rw [hz'.readAll_eq]
    exact ⟨.atFrame hz' hstate, rfl⟩
  split at hnext
  · cases hnext
  obtain ⟨fhd, z₃, h₃, hnext⟩ := bind_eq_ok.mp hnext
  obtain ⟨b, src₃, rfl, hz₃⟩ := (Feeds.readHdr 0 1).unexpected hz₂ h₃
  obtain ⟨first, z₄, h₄, hnext⟩ := bind_eq_ok.mp hnext
  obtain ⟨b, src₄, rfl, hz₄⟩ := Feeds.decode _ hz₃ h₄
  obtain ⟨rest, z₅, h₅, hnext⟩ := bind_eq_ok.mp hnext
  obtain ⟨b, src₅, rfl, hz₅⟩ := (Feeds.readHdr _ _).unexpected hz₄ h₅
  obtain ⟨⟨h, n⟩, z₆, h₆, hnext⟩ := bind_eq_ok.mp hnext
  obtain ⟨b, src₆, rfl, hz₆⟩ := Feeds.decode _ hz₅ h₆
  rcases (Decoder.beginFrame_same (e := { z.d with maxOutput := 0 }) (rfl : z.d.maxWindow = _)
    h).cases with ⟨d, e, hx, hy, hagree, hprod, -, hmax⟩ | ⟨e, hx, -⟩
  · change (decode (z.d.beginFrame h) >>= _) _ = _ at hnext
    rw [hx] at hnext
    cases hnext
    have hin : ({ z.setInput b with d := d, hist := [], pos := 0, state := .readBlock } :
        Stream).InBlocks src₆ ⟨e, [], 0⟩ :=
      ⟨⟨hz₆.input, rfl, Nat.zero_le _⟩, rfl, hagree, ⟨[], [], [], rfl, rfl, by simp [hprod]⟩, rfl,
        hmax⟩
    exact ⟨.inBlocks hin hprod.symm, rfl⟩
  · change (decode (z.d.beginFrame h) >>= _) _ = _ at hnext
    rw [hx] at hnext
    cases hnext

/-- What a run keeps, one step at a time; the room grows to two windows and a block at most. -/
theorem Inv.step (hz : Inv z content) (hnext : next reload z = .ok () z') :
  Inv z'.readAll (frameContent z.state content z'.unread)
    ∧ z'.histCap ≤ max z.histCap (2 * z.d.window + z.d.blockMax)
  := by
  cases hz with
  | atFrame hz hstate =>
    obtain ⟨hinv, hcap⟩ := hz.next_readFrame hstate hnext
    rw [hstate]
    exact ⟨hinv, by omega⟩
  | inBlocks hz hproduced =>
    rw [hz.state_eq]
    rcases hz.reachBlock reload with ⟨e, z₁, herr, -⟩
      | ⟨typ, size, last, payload, rest, z₁, hblock, -, hz₁, hd, hroom, hcap, hsize, hpayload, -⟩
    · rw [herr] at hnext
      cases hnext
    rw [hblock] at hnext
    rcases hz₁.decodeBlock reload (hd ▸ hsize) hpayload with
      ⟨z₂, s₂, hok, -, hout, hz₂, -, -, hprod, hsame⟩ | ⟨e, z₂, s₂, herr, -⟩
    swap
    · rw [bind_error herr] at hnext
      cases hnext
    rw [bind_ok hok] at hnext
    have hcap₂ := hsame (hd ▸ hroom)
    have hlen : s₂.out.length = z₂.d.produced := by
      rw [hout, List.length_append, hproduced, hprod, hd]
    cases last with
    | true =>
      cases hnext
      exact ⟨.atEnd ⟨⟨hz₂.ready.input, rfl, hz₂.ready.length_le⟩, rfl, hz₂.agree, hz₂.done_eq,
        hz₂.maxOutput_eq⟩, by dsimp only; omega⟩
    | false =>
      cases hnext
      refine ⟨?_, by omega⟩
      rw [frameContent, ← hout]
      exact .inBlocks hz₂ hlen
  | atEnd hz =>
    rw [next_readFrameEnd reload hz.state_eq] at hnext
    obtain ⟨sum, z₁, h₁, hnext⟩ := bind_eq_ok.mp hnext
    obtain ⟨b, src₁, rfl, hz₁⟩ := Feeds.readSum hz.ready h₁
    rw [get_bind] at hnext
    obtain ⟨_, z₂, -, hnext⟩ := bind_eq_ok.mp hnext
    cases hnext
    exact ⟨@Inv.atFrame _ src₁ _ ⟨hz₁.input, rfl, hz₁.length_le⟩ rfl, le_max_left _ _⟩

theorem Run.inv (hz : Run reload z content) :
  Inv z content
  := by
  induction hz with
  | reset z src =>
    have h := reset_atFrame z src (s := ⟨{ z.stream.d with maxOutput := 0 }, [], 0⟩) rfl rfl rfl
    exact .atFrame h.ready h.state_eq
  | step _ hnext ih => exact (ih.step hnext).1

/-- Before a block is decoded the buffer ends in the last window of the frame, as far as there is
that much, and there is room for the block, which then does not move it.  The buffer grows to two
windows and a block at most, in every step of every run. -/
theorem window_kept (reload : Bool) {z : Stream} {content : List UInt8}
    (hz : Run reload z content) :
  (z.state = .readBlock → content.length = z.d.produced
    ∧ ((∃ e z', next reload z = .error (.fail (.decode e)) z' ∧ z'.hist = z.hist
        ∧ z'.histCap = z.histCap)
      ∨ ∃ (typ size : ℕ) (last : Bool) (payload : List UInt8) (z₁ : Stream), next reload z
          = (decodeBlock reload typ size payload >>= fun _ =>
            if last then modify fun (z : Stream) => { z with state := .readFrameEnd }
            else pure ()) z₁
        ∧ z₁.d = z.d
        ∧ (∃ a b h, z₁.hist = a ++ h ∧ content = b ++ h ∧ min z.d.produced z.d.window ≤ h.length)
        ∧ z₁.hist.length + z.d.blockMax ≤ z₁.histCap
        ∧ z₁.histCap ≤ max z.histCap (2 * z.d.window + z.d.blockMax)
        ∧ ((∃ z₂, decodeBlock reload typ size payload z₁ = .ok () z₂ ∧ z₂.histCap = z₁.histCap)
          ∨ ∃ e z₂, decodeBlock reload typ size payload z₁ = .error (.fail (.decode e)) z₂
            ∧ z₂.histCap = z₁.histCap)))
  ∧ ∀ z', next reload z = .ok () z' →
      z'.histCap ≤ max z.histCap (2 * z.d.window + z.d.blockMax)
  := by
  refine ⟨fun hstate => ?_, fun z' hnext => (hz.inv.step hnext).2⟩
  cases hz.inv with
  | atFrame _ h => exact absurd (h.symm.trans hstate) (by decide)
  | atEnd h => exact absurd (h.state_eq.symm.trans hstate) (by decide)
  | inBlocks hin hproduced =>
    refine ⟨hproduced, ?_⟩
    rcases hin.reachBlock reload with ⟨e, z', hnext, hhist, -, hcap, -⟩
      | ⟨typ, size, last, payload, rest, z₁, hnext, -, hz₁, hd, hroom, hcap, hsize, hpayload, -⟩
    · exact .inl ⟨e, z', hnext, hhist, hcap⟩
    refine .inr ⟨typ, size, last, payload, z₁, hnext, hd, hd ▸ hz₁.tail, hroom, hcap, ?_⟩
    rcases hz₁.decodeBlock reload (hd ▸ hsize) hpayload with
      ⟨z₂, s₂, hok, -, -, -, -, -, -, hsame⟩ | ⟨e, z₂, s₂, herr, -, -, -, hsame⟩
    · exact .inl ⟨z₂, hok, hsame (hd ▸ hroom)⟩
    · exact .inr ⟨e, z₂, herr, hsame (hd ▸ hroom)⟩

/-- A frame of two raw blocks, of one byte each. -/
def twoBlocks : Source :=
  ⟨[[0x28, 0xb5, 0x2f, 0xfd, 0x20, 2, 0x08, 0, 0, 65, 0x09, 0, 0, 66]], by simp, true⟩

/-- Before the second of two blocks, with the byte of the first one in the window. -/
theorem window_kept_first :
  ∃ z content, Run true z content ∧ z.state = .readBlock ∧ content.length = z.d.produced
    ∧ z.d.produced = 1 ∧ ∀ z', next true z = .ok () z' →
      z'.histCap ≤ max z.histCap (2 * z.d.window + z.d.blockMax)
  := by
  have hstart := @Run.reset true (Reader.new.configure (resolveDecoderOptions [])) twoBlocks
  generalize hz₀ : ((Reader.new.configure (resolveDecoderOptions [])).reset
    (some twoBlocks)).stream = z₀ at hstart
  have hrun : EStateM.run' (do
        next true
        modify readAll
        next true
        let z : Stream ← get
        pure (z.state, z.d.produced)) z₀
      = some (.readBlock, 1) := by
    rw [← hz₀]
    decide +kernel
  delta EStateM.run' EStateM.run at hrun
  rw [bind_apply] at hrun
  cases hheader : next true z₀ with
  | error e z => simp [hheader] at hrun
  | ok _ z₁ =>
    rw [hheader] at hrun
    have hfirst := hstart.step hheader
    dsimp only at hrun
    rw [bind_apply, modify_apply] at hrun
    dsimp only at hrun
    rw [bind_apply] at hrun
    cases hblock : next true z₁.readAll with
    | error e z => simp [hblock] at hrun
    | ok _ z₂ =>
      rw [hblock] at hrun
      obtain ⟨hstate, hproduced⟩ := Prod.mk.inj (Option.some.inj hrun)
      have h := window_kept true (hfirst.step hblock)
      exact ⟨_, _, hfirst.step hblock, hstate, (h.1 hstate).1, hproduced, h.2⟩

end Stream

end Zstd
