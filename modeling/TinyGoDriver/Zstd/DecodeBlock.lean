import TinyGoDriver.Zstd.DecodeSequences

/-!
# One block, decoded twice

Two decoders that agree decode a block alike, even if what stands before the history of
the frame in their outputs is not the same: `appendBlock_same`.  The outputs of the two
runs are `a ++ (h ++ y)` and `b ++ (h ++ y)`, where `h` is the history that the block may
copy from and `y` what it has added; a match never reaches beyond `h`.

Comparing a run with itself, this is also the safety of the block decoder.
-/

namespace Zstd

open GoRt LzCopy SameRun

/-- Two runs have added the same to what they had before, and no more than `m` bytes. -/
structure Alike (a b h : List UInt8) (i j m : ℕ) (s t : DecodeState) : Prop where
  content : ∃ y, s.out = a ++ (h ++ y) ∧ t.out = b ++ (h ++ y) ∧ y.length ≤ m
  done₁ : s.done = i
  done₂ : t.done = j

/-- Two runs in the course of a block, which began with the decoder `d₀` in the first. -/
structure InBlock (a b h : List UInt8) (i j : ℕ) (d₀ : Decoder) (s t : DecodeState) : Prop where
  agree : s.d.Agree t.d
  steady : d₀.Steady s.d
  content : ∃ y, s.out = a ++ (h ++ y) ∧ t.out = b ++ (h ++ y) ∧ y.length ≤ d₀.blockMax
  done₁ : s.done = i
  done₂ : t.done = j

namespace InBlock

variable {a b h : List UInt8} {i j : ℕ} {d₀ : Decoder} {s t : DecodeState}

theorem alike (hs : InBlock a b h i j d₀ s t) :
  Alike a b h i j d₀.blockMax s t
  := ⟨hs.content, hs.done₁, hs.done₂⟩

/-- Appending the same to both outputs, as long as it fits in a block. -/
theorem append {y : List UInt8} (hs : InBlock a b h i j d₀ s t) (h₁ : s.out = a ++ (h ++ y))
    (h₂ : t.out = b ++ (h ++ y)) {l : List UInt8} (hlen : y.length + l.length ≤ d₀.blockMax) :
  InBlock a b h i j d₀ { s with out := s.out ++ l } { t with out := t.out ++ l }
  := by
  refine { hs with content := ⟨y ++ l, ?_, ?_, ?_⟩ }
  · simp [h₁]
  · simp [h₂]
  · simp
    exact hlen

theorem setDecoder (hs : InBlock a b h i j d₀ s t) {d e : Decoder} (hde : d.Agree e)
    (hd : d₀.Steady d) :
  InBlock a b h i j d₀ { s with d := d } { t with d := e }
  := { hs with agree := hde, steady := hd }

end InBlock

section Block

variable {a b h : List UInt8} {i j : ℕ} {d₀ : Decoder} {s t : DecodeState}

variable {reach : ℕ}

/-- A match copies alike, since it does not reach beyond the history. -/
theorem copyMatch_same {y : List UInt8} (hs : InBlock a b h i j d₀ s t) (h₁ : s.out = a ++ (h ++ y))
    (h₂ : t.out = b ++ (h ++ y)) {offset length : ℕ} (hreach : reach ≤ h.length)
    (hprod : reach ≤ d₀.produced) (hoff : 0 < offset) (hlen : y.length + length ≤ d₀.blockMax) :
  SameRun (fun _ _ s' t' => InBlock a b h i j d₀ s' t' ∧ s'.d = s.d) (Alike a b h i j d₀.blockMax)
    (copyMatch reach (a.length + h.length) offset length)
    (copyMatch reach (b.length + h.length) offset length) s t
  := by
  have hlen₁ : reach + s.out.length - (a.length + h.length) = reach + y.length := by
    rw [h₁]
    simp
    omega
  have hlen₂ : reach + t.out.length - (b.length + h.length) = reach + y.length := by
    rw [h₂]
    simp
    omega
  have hprod₁ : s.d.produced + s.out.length - (a.length + h.length) = d₀.produced + y.length := by
    rw [h₁, hs.steady.produced_eq]
    simp
    omega
  have hprod₂ : t.d.produced + t.out.length - (b.length + h.length) = d₀.produced + y.length := by
    rw [h₂, ← hs.agree.produced_eq, hs.steady.produced_eq]
    simp
    omega
  apply get_bind
  rw [hlen₁, hlen₂, ← hs.agree.window_eq]
  split
  · exact fail hs.alike
  rw [if_neg (by omega), if_neg (by omega)]
  have hle : offset ≤ (h ++ y).length := by
    simp
    omega
  obtain ⟨z, hz, hzlen⟩ := exists_lzCopy_eq_append hoff hle length
  have hmatch : ∀ {c out : List UInt8}, out = c ++ (h ++ y) →
      appendMatch out offset length = .ok (out ++ z) := by
    intro c out hout
    have hle' : offset ≤ out.length := by
      rw [hout, List.length_append]
      omega
    rw [appendMatch_eq hoff hle', hout, append_lzCopy c hle, hz]
    simp
  rw [hmatch h₁, hmatch h₂]
  exact ⟨hs.append h₁ h₂ (by omega), rfl⟩

theorem execute_same (lits : List UInt8) (hs : InBlock a b h i j d₀ s t) {offset : ℕ}
    (hreach : reach ≤ h.length) (hprod : reach ≤ d₀.produced) (hoff : 0 < offset)
    (litPos lit length : ℕ) :
  SameRun (fun _ _ s' t' => (InBlock a b h i j d₀ s' t' ∧ s'.d = s.d)
      ∧ litPos + lit ≤ lits.length) (Alike a b h i j d₀.blockMax)
    (execute lits reach (a.length + h.length) litPos lit length offset)
    (execute lits reach (b.length + h.length) litPos lit length offset) s t
  := by
  obtain ⟨y, h₁, h₂, hy⟩ := hs.content
  have hlen₁ : (s.out.length : ℤ) - (a.length + h.length : ℕ) = y.length := by
    rw [h₁]
    simp
  have hlen₂ : (t.out.length : ℤ) - (b.length + h.length : ℕ) = y.length := by
    rw [h₂]
    simp
  apply get_bind
  rw [hlen₁, hlen₂, ← hs.agree.blockMax_eq, hs.steady.blockMax_eq]
  split
  · exact fail hs.alike
  rw [slice_eq_ok (by omega) (by omega)]
  set l := (lits.take (litPos + lit)).drop litPos with hl
  have hllen : l.length = lit := by
    simp [hl]
    omega
  have happ := hs.append h₁ h₂ (l := l) (by omega)
  refine mono
    ?_ (fun _ _ _ _ h' => ⟨h', by omega⟩) (fun _ _ h' => h')
  exact copyMatch_same happ (y := y ++ l) (by simp [h₁]) (by simp [h₂]) hreach hprod hoff
    (by simp; omega)

theorem resolve_same (hs : InBlock a b h i j d₀ s t) (value litLen : ℕ) :
  SameRun (fun x x' s' t' => x = x' ∧ 0 < x ∧ InBlock a b h i j d₀ s' t'
      ∧ ∃ rep, s'.d = { s.d with rep := rep }) (Alike a b h i j d₀.blockMax)
    (resolve value litLen) (resolve value litLen) s t
  := by
  rw [resolve]
  apply get_bind
  rw [← hs.agree.rep_eq]
  apply call_bind (Same.of_safe (resolveOffset_safe hs.agree.rep_pos value litLen)) hs.alike
  rintro ⟨dist, rep⟩ _ ⟨rfl, hdist, h₀, h₁, h₂⟩
  dsimp only at hdist h₀ h₁ h₂ ⊢
  rw [if_neg (by omega)]
  refine ⟨rfl, hdist, ?_, rep, rfl⟩
  apply hs.setDecoder
  · exact { hs.agree with rep_eq := rfl, rep_pos := ⟨h₀, h₁, h₂⟩ }
  · exact { hs.steady with }

/-- The loop keeps the two runs together: a step reads the same sequence from tables that
agree, and executes it alike. -/
theorem seqLoop_same (reload : Bool) (lits : List UInt8) (hreach : reach ≤ h.length)
    (hprod : reach ≤ d₀.produced) {n litPos : ℕ} {r : SeqReader} (hs : InBlock a b h i j d₀ s t)
    (hvalid : s.d.seqValid = true) (hr : r.Ok s.d.llTable s.d.ofTable s.d.mlTable)
    (hpos : litPos ≤ lits.length) :
  SameRun (fun x x' s' t' => x = x' ∧ InBlock a b h i j d₀ s' t' ∧ x.1.br.Ok ∧ x.1.br.Within 71
      ∧ x.2 ≤ lits.length) (Alike a b h i j d₀.blockMax)
    (seqLoop reload lits reach (a.length + h.length) n r litPos)
    (seqLoop reload lits reach (b.length + h.length) n r litPos) s t
  := by
  induction n generalizing s t r litPos with
  | zero => exact ⟨rfl, hs, hr.br_ok, hr.within, hpos⟩
  | succ n ih =>
    apply get_bind
    obtain ⟨hll, hllwf⟩ := hs.agree.llTable hvalid
    obtain ⟨hof, hofwf⟩ := hs.agree.ofTable hvalid
    obtain ⟨hml, hmlwf⟩ := hs.agree.mlTable hvalid
    rw [← readSequence_congr reload hll.entry_eq hof.entry_eq hml.entry_eq]
    apply call_bind (Same.of_safe (readSequence_safe reload hllwf hofwf hmlwf _ hr))
      hs.alike
    rintro ⟨value, lit, length, r'⟩ _ ⟨rfl, hr'⟩
    apply bind (resolve_same hs value lit)
    rintro offset _ s₁ t₁ ⟨rfl, hoff, hs₁, rep, hd₁⟩
    apply bind (execute_same lits hs₁ hreach hprod hoff litPos lit length)
    rintro _ _ s₂ t₂ ⟨⟨hs₂, hd₂⟩, hpos₂⟩
    -- neither step touches the tables
    rw [hd₁] at hd₂
    apply ih hs₂
    · rw [hd₂]
      exact hvalid
    · rw [hd₂]
      exact hr'
    · exact hpos₂

theorem appendRest_same (lits : List UInt8) {litPos : ℕ} (hs : InBlock a b h i j d₀ s t)
    (hpos : litPos ≤ lits.length) :
  SameRun (fun _ _ s' t' => InBlock a b h i j d₀ s' t') (Alike a b h i j d₀.blockMax)
    (appendRest lits (a.length + h.length) litPos) (appendRest lits (b.length + h.length) litPos)
    s t
  := by
  obtain ⟨y, h₁, h₂, hy⟩ := hs.content
  have hlen₁ : (s.out.length : ℤ) - (a.length + h.length : ℕ) = y.length := by
    rw [h₁]
    simp
  have hlen₂ : (t.out.length : ℤ) - (b.length + h.length : ℕ) = y.length := by
    rw [h₂]
    simp
  apply get_bind
  rw [hlen₁, hlen₂, ← hs.agree.blockMax_eq, hs.steady.blockMax_eq, slice_eq_ok hpos le_rfl]
  apply SameRun.ok_bind
  split
  · exact fail hs.alike
  · exact hs.append h₁ h₂ (by omega)

theorem runSequences_same (reload : Bool) {src : List UInt8} (hsrc : src ≠ []) (lits : List UInt8)
    (b₀ : ℕ) (hreach : reach ≤ h.length) (hprod : reach ≤ d₀.produced)
    (hs : InBlock a b h i j d₀ s t) (hout₁ : s.out = a ++ h) (hout₂ : t.out = b ++ h) :
  SameRun (fun _ _ s' t' => InBlock a b h i j d₀ s' t') (Alike a b h i j d₀.blockMax)
    (runSequences reload src lits b₀ reach) (runSequences reload src lits b₀ reach) s t
  := by
  rw [runSequences]
  apply call_bind (Same.of_safe (sequenceCount_safe hsrc b₀)) hs.alike
  rintro ⟨nbSeq, pos⟩ _ ⟨rfl, -⟩
  apply call_bind (Same.of_safe (readModes_safe src pos)) hs.alike
  rintro modes _ ⟨rfl, hpos⟩
  apply get_bind
  apply call_bind (Decoder.readSeqTables_same hs.agree modes
    (by omega)) hs.alike
  rintro ⟨pos', d⟩ ⟨_, e⟩ ⟨hpos', hle, hde, hvalid, hd⟩
  subst hpos'
  apply modify_bind
  have hs₁ := hs.setDecoder hde (hs.steady.trans hd)
  obtain ⟨hll, hllwf⟩ := hde.llTable hvalid
  obtain ⟨hof, hofwf⟩ := hde.ofTable hvalid
  obtain ⟨hml, hmlwf⟩ := hde.mlTable hvalid
  have hstart : startSequences reload e.llTable e.ofTable e.mlTable src pos'
      = startSequences reload d.llTable d.ofTable d.mlTable src pos' := by
    rw [startSequences, startSequences, hll.1, hof.1, hml.1]
  rw [hstart]
  apply call_bind (Same.of_safe (startSequences_safe reload hllwf hofwf hmlwf hle))
    hs₁.alike
  rintro r _ ⟨rfl, hr⟩
  have hbase₁ : s.out.length = a.length + h.length := by rw [hout₁, List.length_append]
  have hbase₂ : t.out.length = b.length + h.length := by rw [hout₂, List.length_append]
  rw [hbase₁, hbase₂]
  apply bind (seqLoop_same reload lits hreach hprod hs₁ hvalid hr (Nat.zero_le _))
  rintro ⟨r', litPos⟩ _ s₂ t₂ ⟨rfl, hs₂, hok, hw, hlit⟩
  apply call_bind (Same.of_safe (finishSequences_safe reload hok hw)) hs₂.alike
  rintro _ _ _
  exact appendRest_same lits hs₂ hlit

theorem decodeSequences_same (reload : Bool) (src : List UInt8) {lits : List UInt8}
    (hlits : lits.length ≤ d₀.blockMax) (hreach : reach ≤ h.length) (hprod : reach ≤ d₀.produced)
    (hs : InBlock a b h i j d₀ s t) (hout₁ : s.out = a ++ h) (hout₂ : t.out = b ++ h) :
  SameRun (fun _ _ s' t' => InBlock a b h i j d₀ s' t') (Alike a b h i j d₀.blockMax)
    (decodeSequences reload src lits reach) (decodeSequences reload src lits reach) s t
  := by
  cases src with
  | nil => exact fail hs.alike
  | cons b₀ src =>
    rw [decodeSequences]
    split
    · apply get_bind
      rw [← hs.agree.blockMax_eq]
      split
      · exact fail hs.alike
      · exact hs.append (y := []) (by simp [hout₁]) (by simp [hout₂]) (by simpa using hlits)
    · exact runSequences_same reload (by simp) lits _ hreach hprod hs hout₁ hout₂

theorem decodeCompressed_same (reload : Bool) (block : List UInt8) (hreach : reach ≤ h.length)
    (hprod : reach ≤ d₀.produced) (hs : InBlock a b h i j d₀ s t) (hout₁ : s.out = a ++ h)
    (hout₂ : t.out = b ++ h) :
  SameRun (fun _ _ s' t' => InBlock a b h i j d₀ s' t') (Alike a b h i j d₀.blockMax)
    (decodeCompressed reload block reach) (decodeCompressed reload block reach) s t
  := by
  rw [decodeCompressed]
  apply get_bind
  apply call_bind (Decoder.decodeLiterals_same reload hs.agree block) hs.alike
  rintro ⟨lits, n, d⟩ ⟨_, _, e⟩ ⟨hlits, hn, hde, hd, hlen, hle⟩
  subst hlits hn
  apply modify_bind
  have hs₁ := hs.setDecoder hde (hs.steady.trans hd)
  rw [slice_eq_ok hle le_rfl]
  apply SameRun.ok_bind
  rw [hs.steady.blockMax_eq] at hlen
  exact decodeSequences_same reload _ hlen hreach hprod hs₁ hout₁ hout₂

end Block

/-- A block decodes alike in decoders that agree and whose outputs end in the same history:
the last `produced` bytes of the frame, or at least a window of them. -/
theorem appendBlock_same (reload : Bool) {typ size : ℕ} {payload : List UInt8} {s t : DecodeState}
    {a b h : List UInt8} (hagree : s.d.Agree t.d) (hout₁ : s.out = a ++ h) (hout₂ : t.out = b ++ h)
    (hreach : min s.d.produced s.d.window ≤ h.length) (hsize : size ≤ s.d.blockMax)
    (hpayload : payload.length = blockPayloadSize typ size) :
  SameRun (fun _ _ s' t' => InBlock a b h s.done t.done s.d s' t')
    (Alike a b h s.done t.done s.d.blockMax)
    (appendBlock reload typ size payload) (appendBlock reload typ size payload) s t
  := by
  have hs : InBlock a b h s.done t.done s.d s t :=
    ⟨hagree, Decoder.Steady.refl _, ⟨[], by simp [hout₁], by simp [hout₂], by simp⟩, rfl, rfl⟩
  apply get_bind
  split
  · refine hs.append (y := []) (by simp [hout₁]) (by simp [hout₂]) ?_
    rw [blockPayloadSize] at hpayload
    simpa [hpayload] using hsize
  · rw [blockPayloadSize, if_pos rfl] at hpayload
    rw [idx_of_lt (by omega)]
    apply SameRun.ok_bind
    rw [appendRun_eq, appendRun_eq]
    exact hs.append (y := []) (by simp [hout₁]) (by simp [hout₂]) (by simpa using hsize)
  · rw [← hagree.produced_eq, ← hagree.window_eq]
    exact decodeCompressed_same reload payload hreach (Nat.min_le_left _ _) hs hout₁ hout₂

end Zstd
