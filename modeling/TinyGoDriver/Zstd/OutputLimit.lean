import TinyGoDriver.Go.Reads
import TinyGoDriver.Zstd.Streaming

/-!
# The output limit, and starting over

`WithMaxOutput` holds a whole input to a size.  `DecodeAll` looks at it before a frame that
declares its size and after every block, and a `Reader` where it hands out content.  To know what
a limited call does with an input that decodes to `c`, it is run beside the unlimited one
(`frameLoop_limit`): the two stay together until the limit is exceeded.

`Reset` makes a `Reader` start over with another input.  It leaves nothing of the stream before,
unless the new input is nil: then what had been decoded and not read is still handed out.
-/

namespace Zstd

open GoRt List GoM

/-! ### A limited call beside an unlimited one -/

/-- The call returned `x` if the content of size `total` is within the limit, and was refused for
the limit otherwise. -/
def Held {α : Type} (n total : ℤ) (x : α) (P : DecodeState → Prop)
    (r : EStateM.Result (Fault Err) DecodeState α) : Prop :=
  (total ≤ n ∧ ∃ t, r = .ok x t ∧ P t)
    ∨ (n < total ∧ ∃ t, r = .error (.fail .outputTooLarge) t)

variable {src : List UInt8} {s' : DecodeState}

section Limited

variable {a b : List UInt8} {s t : DecodeState} {n : ℤ}

theorem checkOutput_eq (before : ℤ) (hn : 0 < n) (hlimit : t.d.maxOutput = n) :
  checkOutput before t = if n < before + t.d.produced then .error (.fail .outputTooLarge) t
    else .ok () t
  := by
  rw [checkOutput, get_bind, hlimit]
  by_cases h : n < before + t.d.produced
  · rw [if_pos h, if_pos ⟨hn, h⟩]
    rfl
  · rw [if_neg h, if_neg (fun h' => h h'.2)]
    rfl

theorem checkDeclared_eq (before : ℤ) (hn : 0 < n) (hlimit : t.d.maxOutput = n) :
  checkDeclared before t
    = if t.d.frame.hasContentSize = true ∧ wrap 64 (n - before) < t.d.frame.contentSize then
        .error (.fail .outputTooLarge) t
      else .ok () t
  := by
  rw [checkDeclared, get_bind, hlimit]
  by_cases h : t.d.frame.hasContentSize = true ∧ wrap 64 (n - before) < t.d.frame.contentSize
  · rw [if_pos h, if_pos ⟨h.1, hn, h.2⟩]
    rfl
  · rw [if_neg h, if_neg (fun h' => h ⟨h'.1, h'.2.2⟩)]
    rfl

variable (reload : Bool) {rest : List UInt8} {fuel : ℕ} {before : ℤ}

/-- The blocks of a frame.  The unlimited run tells how much the frame holds. -/
theorem blockLoop_limit (before : ℤ) (hn : 0 < n) (hs : InFrame a b s t)
    (hmax : s.d.maxOutput = 0) (hlimit : t.d.maxOutput = n)
    (h : blockLoop reload before fuel src s = .ok rest s') :
  s.d.produced ≤ s'.d.produced ∧ s'.d.frame = s.d.frame
    ∧ Held n (before + s'.d.produced) rest (fun t' => InFrame a b s' t' ∧ t'.d.maxOutput = n)
      (blockLoop reload before fuel src t)
  := by
  induction fuel generalizing src s t with
  | zero => cases h
  | succ fuel ih =>
    rw [blockLoop] at h ⊢
    by_cases hthree : src.length < 3
    · rw [if_pos hthree] at h
      cases h
    have hheader : t.d.parseBlockHeader src = s.d.parseBlockHeader src := by
      rw [Decoder.parseBlockHeader, Decoder.parseBlockHeader, hs.agree.blockMax_eq]
    rw [if_neg hthree, get_bind] at h ⊢
    rw [hheader]
    rcases (parseBlockHeader_safe s.d (show 3 ≤ src.length by omega)).cases with
      ⟨⟨typ, size, last⟩, hok, -, hsize⟩ | ⟨e, herr⟩
    swap
    · rw [herr] at h
      cases h
    rw [hok, bind_ok (call_ok _ _)] at h ⊢
    dsimp only at hsize h ⊢
    by_cases hpayload : (src.drop 3).length < blockPayloadSize typ size
    · rw [if_pos hpayload] at h
      cases h
    rw [if_neg hpayload] at h ⊢
    have htake : ((src.drop 3).take (blockPayloadSize typ size)).length
        = blockPayloadSize typ size := by
      rw [length_take]
      omega
    rcases (decodeBlock_same reload hs hsize htake).cases with
      ⟨_, _, s₁, t₁, hx, hy, ⟨hs₁, k, hsteady⟩, hlimit₁⟩ | ⟨e, s₁, t₁, hx, -⟩
    swap
    · rw [bind_error hx] at h
      cases h
    have hmax₁ : s₁.d.maxOutput = 0 := hsteady.maxOutput_eq.trans hmax
    have hproduced : s₁.d.produced = s.d.produced + k := hsteady.produced_eq
    rw [hlimit] at hlimit₁
    rw [bind_ok hx, bind_ok (Stream.checkOutput_unlimited before hmax₁)] at h
    rw [bind_ok hy]
    have hcheck := checkOutput_eq before hn hlimit₁
    rw [← hs₁.agree.produced_eq] at hcheck
    cases last with
    | true =>
      cases h
      refine ⟨by omega, hsteady.frame_eq, ?_⟩
      by_cases hover : n < before + s'.d.produced
      · rw [if_pos hover] at hcheck
        exact .inr ⟨hover, t₁, bind_error hcheck⟩
      · rw [if_neg hover] at hcheck
        exact .inl ⟨by omega, t₁, bind_ok hcheck, hs₁, hlimit₁⟩
    | false =>
      obtain ⟨hle, hframe, hheld⟩ := ih hs₁ hmax₁ hlimit₁ h
      refine ⟨by omega, hframe.trans hsteady.frame_eq, ?_⟩
      by_cases hover : n < before + s₁.d.produced
      · rw [if_pos hover] at hcheck
        exact .inr ⟨by omega, t₁, bind_error hcheck⟩
      · rw [if_neg hover] at hcheck
        rw [bind_ok hcheck]
        exact hheld

theorem frameEnd_eq_ok (h : frameEnd src s = .ok rest s') :
  s' = s ∧ (s.d.frame.hasContentSize = true → s.d.produced = s.d.frame.contentSize)
  := by
  have hend : ∀ {sum u}, (call (s.d.endFrame sum) : DecodeM Unit) s = .ok () u →
      u = s ∧ (s.d.frame.hasContentSize = true → s.d.produced = s.d.frame.contentSize) := by
    intro sum u hu
    rw [Decoder.endFrame] at hu
    split at hu
    · cases hu
    rename_i hsize
    refine ⟨?_, fun hhas => by_contra fun hne => hsize ⟨hhas, hne⟩⟩
    generalize (if s.d.frame.checksum = true then _ else _ : Go Err Unit) = r at hu
    cases r with
    | ok _ =>
      cases hu
      rfl
    | error e => cases hu
  rw [frameEnd, get_bind] at h
  split at h
  · split at h
    · cases h
    · obtain ⟨_, u, hu, h⟩ := bind_eq_ok.mp h
      cases h
      exact hend hu
  · obtain ⟨_, u, hu, h⟩ := bind_eq_ok.mp h
    cases h
    exact hend hu

/-- A frame.  One that declares more than the limit leaves is refused at once, and rightly, since
it would hold that much. -/
theorem decodeFrame_limit (hbefore : 0 ≤ before) (hle : before ≤ n) (hn : 0 < n)
    (hbig : n < 2 ^ 63) (hw : s.d.maxWindow = t.d.maxWindow) (hmax : s.d.maxOutput = 0)
    (hlimit : t.d.maxOutput = n) (hdone₁ : s.done = s.out.length) (hdone₂ : t.done = t.out.length)
    (h : decodeFrame reload before src s = .ok rest s') :
  Held n (before + s'.d.produced) rest
    (fun t' => InFrame s.out t.out s' t' ∧ t'.d.maxOutput = n) (decodeFrame reload before src t)
  := by
  rw [decodeFrame] at h ⊢
  rcases (parseFrameParams_safe src).cases with ⟨⟨p, m⟩, hparse, hm, -⟩ | ⟨e, hparse⟩
  swap
  · rw [hparse] at h
    cases h
  rw [hparse, bind_ok (call_ok _ _)] at h ⊢
  dsimp only at hm h ⊢
  rw [slice_eq_ok hm le_rfl, bind_ok (call_ok _ _), get_bind]
    at h ⊢
  rcases (Decoder.beginFrame_same hw p).cases with
    ⟨d, e, hx, hy, hde, hprod, hd, he⟩ | ⟨e, hx, -⟩
  swap
  · rw [hx] at h
    cases h
  rw [hmax] at hd
  rw [hlimit] at he
  rw [hx, bind_ok (call_ok _ _), bind_ok (set_apply _ _),
    bind_ok (Stream.checkDeclared_unlimited before hd)] at h
  rw [hy, bind_ok (call_ok _ _), bind_ok (set_apply _ _)]
  have hs : InFrame s.out t.out { s with d := d } { t with d := e } :=
    ⟨hde, ⟨[], by simp, by simp, by simp [hprod]⟩, hdone₁, hdone₂⟩
  obtain ⟨src', s₁, hloop, hend⟩ := bind_eq_ok.mp h
  obtain ⟨-, hframe, hheld⟩ := blockLoop_limit reload before hn hs hd he hloop
  obtain ⟨rfl, hsize⟩ := frameEnd_eq_ok hend
  have hcheck := checkDeclared_eq (t := { t with d := e }) before hn he
  by_cases hover : e.frame.hasContentSize = true ∧ wrap 64 (n - before) < e.frame.contentSize
  · rw [if_pos hover] at hcheck
    refine .inr ⟨?_, _, bind_error hcheck⟩
    obtain ⟨hhas, hover⟩ := hover
    rw [hframe, hde.frame_eq] at hsize
    have hleft : wrap 64 (n - before) = (n - before).toNat := by
      rw [← wrap_of_lt (w := 64) (x := (n - before).toNat) (by omega),
        Int.toNat_of_nonneg (by omega)]
    rw [hsize hhas]
    omega
  rw [if_neg hover] at hcheck
  rw [bind_ok hcheck]
  rcases hheld with ⟨htotal, t₁, ht₁, hs₁, hlimit₁⟩ | ⟨htotal, t₁, ht₁⟩
  · rw [bind_ok ht₁]
    rcases (frameEnd_same src' hs₁).cases with
      ⟨r, _, _, _, hx', hy', rfl, -, rfl, rfl⟩ | ⟨e, _, _, hx', -⟩
    · rw [hend] at hx'
      cases hx'
      exact .inl ⟨htotal, _, hy', hs₁, hlimit₁⟩
    · rw [hend] at hx'
      cases hx'
  · exact .inr ⟨htotal, t₁, bind_error ht₁⟩

/-- Whole inputs: what the unlimited run adds tells how the limited one ends. -/
theorem frameLoop_limit (hn : 0 < n) (hbig : n < 2 ^ 63) {x : List UInt8}
    (hw : s.d.maxWindow = t.d.maxWindow) (hmax : s.d.maxOutput = 0) (hlimit : t.d.maxOutput = n)
    (hs : s.out = a ++ x) (ht : t.out = b ++ x) (hdone₁ : s.done = s.out.length)
    (hdone₂ : t.done = t.out.length) (h : frameLoop reload a.length fuel src s = .ok () s') :
  ∃ y, s'.out = a ++ (x ++ y) ∧ (x.length ≤ n →
    Held n (x ++ y).length () (fun t' => t'.out = b ++ (x ++ y))
      (frameLoop reload b.length fuel src t))
  := by
  induction fuel generalizing src s t x with
  | zero => cases h
  | succ fuel ih =>
    rw [frameLoop] at h ⊢
    by_cases hnil : src = []
    · rw [if_pos hnil] at h ⊢
      cases h
      exact ⟨[], by simp [hs], fun hle => .inl ⟨by simpa using hle, t, rfl, by simp [ht]⟩⟩
    rw [if_neg hnil] at h ⊢
    by_cases hfour : src.length < 4
    · rw [if_pos hfour] at h
      cases h
    rw [if_neg hfour, leAt_of_nonneg le_rfl (by omega), bind_ok (call_ok _ _)]
      at h ⊢
    split at h
    · rename_i hskip
      rw [if_pos hskip]
      obtain ⟨rest, u, hrest, h⟩ := bind_eq_ok.mp h
      rcases skipFrame_safe.cases with ⟨_, hok, -⟩ | ⟨e, herr⟩
      · rw [hok] at hrest ⊢
        cases hrest
        exact ih hw hmax hlimit hs ht hdone₁ hdone₂ h
      · rw [herr] at hrest
        cases hrest
    rename_i hskip
    rw [if_neg hskip]
    split at h
    · cases h
    rename_i hmagic
    rw [if_neg hmagic]
    rw [get_bind] at h ⊢
    have hbefore : ∀ {c out : List UInt8}, out = c ++ x →
        (out.length : ℤ) - c.length = x.length := by
      rintro c _ rfl
      simp
    rw [hbefore hs] at h
    rw [hbefore ht]
    obtain ⟨rest, s₁, hframe, h⟩ := bind_eq_ok.mp h
    -- what the frame adds, from the unlimited run beside itself
    have hself := decodeFrame_same reload x.length (src.drop 4) (rfl : s.d.maxWindow = _) rfl
      hdone₁ hdone₁
    rcases hself.cases with ⟨_, _, u, _, hu, -, -, -, hin, hmax₁, -⟩ | ⟨e, u, _, hu, -⟩
    swap
    · rw [hframe] at hu
      cases hu
    rw [hframe] at hu
    cases hu
    obtain ⟨y, hy, -, hlen⟩ := hin.content
    have hout : s₁.out = a ++ (x ++ y) := by rw [hy, hs, append_assoc]
    rw [hmax] at hmax₁
    have hheld := fun hle => decodeFrame_limit reload (Int.natCast_nonneg x.length) hle hn hbig hw
      hmax hlimit hdone₁ hdone₂ hframe
    by_cases hover : n < (x ++ y).length
    · -- the limited run stops here, and the unlimited one adds to what it has
      obtain ⟨w, hw', -⟩ := ih (s := s₁)
        (t := ⟨{ s₁.d with maxOutput := n }, b ++ (x ++ y), (b ++ (x ++ y)).length⟩)
        rfl hmax₁ rfl hout rfl hin.done₁ rfl h
      refine ⟨y ++ w, by simpa using hw', fun hle => .inr ⟨?_, ?_⟩⟩
      · simp only [length_append] at hover ⊢
        omega
      rcases hheld hle with ⟨htotal, -⟩ | ⟨-, t₁, ht₁⟩
      · rw [length_append] at hover
        omega
      · exact ⟨t₁, bind_error ht₁⟩
    rw [length_append] at hover
    rcases hheld (by omega) with ⟨-, t₁, ht₁, hin₁, hlimit₁⟩ | ⟨htotal, -⟩
    swap
    · omega
    obtain ⟨y', hy', hty, -⟩ := hin₁.content
    obtain rfl : y' = y := append_cancel_left (hy'.symm.trans hy)
    rw [ht, append_assoc] at hty
    obtain ⟨w, hw', hrest⟩ := ih hin₁.agree.maxWindow_eq hmax₁ hlimit₁ hout hty hin₁.done₁
      hin₁.done₂ h
    rw [append_assoc] at hw' hrest
    rw [bind_ok ht₁]
    refine ⟨_, hw', fun _ => hrest ?_⟩
    rw [length_append]
    omega

theorem blockLoop_le (before : ℤ) (h : blockLoop reload before fuel src s = .ok rest s')
    (hmax : 0 < s'.d.maxOutput) :
  before + s'.d.produced ≤ s'.d.maxOutput
  := by
  induction fuel generalizing src s with
  | zero => cases h
  | succ fuel ih =>
    rw [blockLoop] at h
    split at h
    · cases h
    obtain ⟨_, _, -, h⟩ := bind_eq_ok.mp h
    obtain ⟨⟨typ, size, last⟩, _, -, h⟩ := bind_eq_ok.mp h
    dsimp only at h
    split at h
    · cases h
    obtain ⟨_, s₁, -, h⟩ := bind_eq_ok.mp h
    obtain ⟨_, s₂, hcheck, h⟩ := bind_eq_ok.mp h
    split at h
    swap
    · exact ih h
    cases h
    rw [checkOutput, get_bind] at hcheck
    split at hcheck <;> cases hcheck
    omega

/-- A frame that decodes has not gone beyond the limit. -/
theorem decodeFrame_le (hdone : s.done = s.out.length) (hmax : 0 < s.d.maxOutput)
    (h : decodeFrame reload before src s = .ok rest s') :
  s'.done = s'.out.length ∧ s'.d.maxOutput = s.d.maxOutput
    ∧ before + s'.out.length ≤ s.d.maxOutput + s.out.length
  := by
  have hself := decodeFrame_same reload before src (rfl : s.d.maxWindow = _) rfl hdone hdone
  rcases hself.cases with ⟨_, _, u, _, hu, -, -, -, hin, hmax', -⟩ | ⟨e, u, _, hu, -⟩
  swap
  · rw [h] at hu
    cases hu
  rw [h] at hu
  cases hu
  obtain ⟨y, hy, -, hlen⟩ := hin.content
  refine ⟨hin.done₁, hmax', ?_⟩
  obtain ⟨⟨p, m⟩, _, -, h⟩ := bind_eq_ok.mp h
  obtain ⟨src, _, -, h⟩ := bind_eq_ok.mp h
  obtain ⟨_, _, -, h⟩ := bind_eq_ok.mp h
  obtain ⟨d, _, -, h⟩ := bind_eq_ok.mp h
  obtain ⟨_, _, -, h⟩ := bind_eq_ok.mp h
  obtain ⟨_, _, -, h⟩ := bind_eq_ok.mp h
  obtain ⟨src', s₁, hloop, hend⟩ := bind_eq_ok.mp h
  obtain ⟨rfl, -⟩ := frameEnd_eq_ok hend
  have hle := blockLoop_le reload before hloop (by omega)
  rw [hy, length_append]
  omega

end Limited

/-- The loop of `decodeAll` gets from `src` and `s` to `src'` and `s'`, before a frame. -/
inductive Reaches (reload : Bool) (origin : ℕ) :
    List UInt8 → DecodeState → List UInt8 → DecodeState → Prop
  | refl (src : List UInt8) (s : DecodeState) : Reaches reload origin src s src s
  | skip {src rest src' : List UInt8} {s s' : DecodeState} (h : skipFrame src = .ok rest)
      (hrest : Reaches reload origin rest s src' s') : Reaches reload origin src s src' s'
  | frame {src rest src' : List UInt8} {s s₁ s' : DecodeState}
      (h : decodeFrame reload (s.out.length - origin) (src.drop 4) s = .ok rest s₁)
      (hrest : Reaches reload origin rest s₁ src' s') : Reaches reload origin src s src' s'

/-- Before every frame, what has been added is within the limit. -/
theorem Reaches.le {reload : Bool} {origin : ℕ} {src' : List UInt8} {s : DecodeState}
    (h : Reaches reload origin src s src' s') (hdone : s.done = s.out.length)
    (hmax : 0 < s.d.maxOutput) (hle : (s.out.length : ℤ) - origin ≤ s.d.maxOutput) :
  (s'.out.length : ℤ) - origin ≤ s.d.maxOutput
  := by
  induction h with
  | refl _ _ => exact hle
  | skip _ _ ih => exact ih hdone hmax hle
  | frame h _ ih =>
    obtain ⟨hdone₁, hmax₁, hle₁⟩ := decodeFrame_le reload hdone hmax h
    rw [← hmax₁]
    exact ih hdone₁ (hmax₁ ▸ hmax) (by rw [hmax₁]; omega)

/-- For an input that decodes to `c` if its size does not matter, a `Reader` with a limit delivers
`c` up to the limit, and then refuses the rest or reports the end; `DecodeAll` succeeds exactly if
`c` is within the limit.  Before every frame of any input, the content so far is within the limit,
so that taking it from the limit does not go below zero. -/
theorem output_limit (reload : Bool) (src : Source) {options : List (Option DecoderOption)}
    (herr : (resolveDecoderOptions options).err = none)
    (hn : 0 < (resolveDecoderOptions options).maxOutput)
    (hbig : (resolveDecoderOptions options).maxOutput < 2 ^ 63) (d : Decoder) (dst : List UInt8)
    {c : List UInt8} {s : DecodeState}
    (hvalid : (d.configure { resolveDecoderOptions options with maxOutput := 0 }).decodeAll reload
      dst src.bytes = .ok () s) (hc : s.out = dst ++ c) :
  (∃ z, newReader (some src) options = .ok z
      ∧ ∀ bufs, z.Delivers reload bufs (c.take (resolveDecoderOptions options).maxOutput.toNat)
        (if (resolveDecoderOptions options).maxOutput < c.length then .decode .outputTooLarge
          else .eof))
    ∧ ((∃ s', decodeAll reload d dst src.bytes options = .ok () s')
      ↔ c.length ≤ (resolveDecoderOptions options).maxOutput)
    ∧ ∀ (input src' : List UInt8) (s' : DecodeState), Reaches reload dst.length input
        ⟨d.configure (resolveDecoderOptions options), dst, dst.length⟩ src' s' →
      (s'.out.length : ℤ) - dst.length ≤ (resolveDecoderOptions options).maxOutput
  := by
  set resolved := resolveDecoderOptions options
  refine ⟨⟨(Reader.new.configure resolved).reset (some src), ?_, fun bufs => ?_⟩, ?_, ?_⟩
  · rw [newReader, show (resolveDecoderOptions options).err = none from herr]
  · obtain ⟨c', e, hdel, hdec⟩ := reset_delivers reload (Reader.new.configure resolved) src
      (d := d.configure { resolved with maxOutput := 0 }) rfl rfl dst
    rw [hvalid] at hdec
    obtain ⟨hout, rfl⟩ := hdec
    obtain rfl : c' = c := append_cancel_left (hout.symm.trans hc)
    have hbudget : ((Reader.new.configure resolved).reset (some src)).budget c'.length
        = resolved.maxOutput.toNat := by
      change (if 0 < resolved.maxOutput then (resolved.maxOutput - 0).toNat else _) = _
      rw [if_pos hn, sub_zero]
    have hiff : resolved.maxOutput.toNat < c'.length ↔ resolved.maxOutput < c'.length := by omega
    have hdel := hdel bufs
    simp only [hbudget, hiff] at hdel
    exact hdel
  · obtain ⟨y, hy, hheld⟩ := frameLoop_limit (b := dst) (x := [])
      (s := ⟨d.configure { resolved with maxOutput := 0 }, dst, dst.length⟩)
      (t := ⟨d.configure resolved, dst, dst.length⟩) reload hn hbig rfl rfl rfl (by simp) (by simp)
      rfl rfl hvalid
    obtain rfl : y = c := append_cancel_left (hy.symm.trans hc)
    rw [decodeAll, show (resolveDecoderOptions options).err = none from herr]
    dsimp only
    rw [Decoder.decodeAll]
    rcases hheld hn.le with ⟨hle, t, ht, -⟩ | ⟨hlt, t, ht⟩
    · exact ⟨fun _ => hle, fun _ => ⟨t, ht⟩⟩
    constructor
    · rintro ⟨s', hs'⟩
      rw [hs'] at ht
      cases ht
    · intro hle
      rw [nil_append] at hlt
      omega
  · intro input src' s' h
    apply h.le rfl hn
    rw [sub_self]
    exact hn.le

/-- Two bytes where one is allowed. -/
theorem output_limit_one :
  (∃ z, newReader (some rawSource) [some (.withMaxOutput 1)] = .ok z
      ∧ ∀ bufs, z.Delivers true bufs [65] (.decode .outputTooLarge))
    ∧ ((∃ s', decodeAll true Decoder.new [] rawFrame [some (.withMaxOutput 1)] = .ok () s')
      ↔ (2 : ℤ) ≤ 1)
    ∧ ∀ (input src' : List UInt8) (s' : DecodeState), Reaches true 0 input
        ⟨Decoder.new.configure (resolveDecoderOptions [some (.withMaxOutput 1)]), [], 0⟩ src' s' →
      (s'.out.length : ℤ) - 0 ≤ 1
  := by
  obtain ⟨s, hvalid, hc⟩ := DecodeResult.exists_ok (r := (Decoder.new.configure
      { resolveDecoderOptions [some (.withMaxOutput 1)] with maxOutput := 0 }).decodeAll true []
        rawFrame) (l := [65, 66]) (by decide +kernel)
  exact @output_limit true rawSource [some (.withMaxOutput 1)] rfl (by decide) (by decide)
    Decoder.new [] [65, 66] s hvalid hc

/-! ### Starting over -/

namespace Reader

/-- The options of a `Reader`. -/
def options (z : Reader) : DecoderOptions :=
  ⟨z.stream.d.maxWindow, z.stream.d.maxOutput, none⟩

/-- After a `Reset` to `r`, no `Read` returns anything of the stream before: with an input, the
calls deliver what a new `Reader` with the same options delivers of it, and without one they
deliver nothing. -/
def Isolates (reload : Bool) (z : Reader) : Option Source → Prop
  | none => ∀ bufs i p, nthRead reload bufs i (z.reset none) = .ok p → p = []
  | some src => ∃ c e, ∀ bufs, (z.reset (some src)).Delivers reload bufs c e
      ∧ ((new.configure z.options).reset (some src)).Delivers reload bufs c e

/-- The output limit has been used up. -/
def Spent (z : Reader) : Prop :=
  0 < z.stream.d.maxOutput ∧ z.stream.d.maxOutput - z.total ≤ 0

theorem isolates_some (reload : Bool) (z : Reader) (src : Source) :
  z.Isolates reload (some src)
  := by
  obtain ⟨c, e, hdel, hdec⟩ := reset_delivers reload z src
    (d := Decoder.new.configure { z.options with maxOutput := 0 }) rfl rfl []
  obtain ⟨c', e', hdel', hdec'⟩ := reset_delivers reload (new.configure z.options) src
    (d := Decoder.new.configure { z.options with maxOutput := 0 }) rfl rfl []
  obtain ⟨rfl, rfl⟩ := hdec.unique hdec'
  exact ⟨_, _, fun bufs => ⟨hdel bufs, hdel' bufs⟩⟩

/-- A `Read` after a `Reset` to nil goes straight to what has been decoded. -/
theorem read_reset_none (reload : Bool) {z : Reader} (hclosed : z.closed = false)
    (hpos : z.stream.pos ≠ z.stream.hist.length) (n : ℕ) :
  read reload n (z.reset none) = deliver n (z.reset none)
  := by
  rw [read, get_bind, if_neg (by simp [reset, hclosed]), fetch]
  rw [bind_ok ?_, if_pos rfl]
  rw [get_bind,
    if_neg (show (z.reset none).stream.pos ≠ (z.reset none).stream.hist.length from hpos)]
  rfl

theorem isolates_none_iff (reload : Bool) (z : Reader) :
  z.Isolates reload none ↔ z.closed = true ∨ z.stream.unread = [] ∨ z.Spent
  := by
  constructor
  · intro h
    by_contra hnot
    simp only [not_or, Bool.not_eq_true] at hnot
    obtain ⟨hclosed, hunread, hspent⟩ := hnot
    have hpos : z.stream.pos < z.stream.hist.length := by
      by_contra hle
      exact hunread (drop_of_length_le (by omega))
    obtain ⟨k, hdel, -, hk⟩ := deliver_eq (z := z.reset none) hpos.le hspent 1
    rw [← read_reset_none reload hclosed hpos.ne] at hdel
    have hp := h (fun _ => 1) 0 (z.stream.unread.take k) (by rw [nthRead, PNat.one_coe, hdel]; rfl)
    rcases take_eq_nil_iff.mp hp with h | h
    · exact absurd h (by have := hk one_pos; omega)
    · exact hunread h
  intro h bufs i p hp
  by_contra
  have hfixed : ∃ f, ∀ n : ℕ+, read reload n (z.reset none) = .error f (z.reset none) := by
    by_cases hclosed : z.closed = true
    · refine ⟨.fail .closed, fun n => ?_⟩
      rw [read, get_bind, if_pos (by simp [reset, hclosed])]
      rfl
    rw [Bool.not_eq_true] at hclosed
    rcases lt_trichotomy z.stream.pos z.stream.hist.length with hlt | heq | hgt
    · have hspent : z.Spent := by
        rcases h with h | h | h
        · rw [hclosed] at h
          cases h
        · rw [Stream.unread, drop_eq_nil_iff] at h
          omega
        · exact h
      refine ⟨.fail (.decode .outputTooLarge), fun n => ?_⟩
      rw [read_reset_none reload hclosed hlt.ne]
      exact deliver_spent (z := z.reset none) hlt.le hspent n
    · have hstuck : (z.reset none).Stuck .nilReader := ⟨hclosed, rfl, heq⟩
      exact ⟨_, fun n => hstuck.read reload n⟩
    · refine ⟨.panic, fun n => ?_⟩
      rw [read_reset_none reload hclosed hgt.ne', deliver, get_bind, slice,
        if_neg (by simp [reset]; omega)]
      rfl
  obtain ⟨f, hf⟩ := hfixed
  rw [nthRead_fixed hf] at hp
  cases hp

/-- A `Reset` isolates the streams, except that a nil input leaves undelivered bytes to be read
unless the `Reader` is closed or has used up its output limit. -/
theorem reset_isolates_iff (reload : Bool) (z : Reader) (r : Option Source) :
  z.Isolates reload r ↔ r ≠ none ∨ z.closed = true ∨ z.stream.unread = [] ∨ z.Spent
  := by
  cases r with
  | none => simp [isolates_none_iff]
  | some src => simp [isolates_some]

/-- One of the two bytes of a block has been read before the `Reset`, and the other after it. -/
theorem reset_nil_delivers :
  ∃ z, newReader (some rawSource) [] = .ok z
    ∧ EStateM.run' (do
        let p ← read true 1
        modify (·.reset none)
        let q ← read true 1
        pure (p, q)) z = some ([65], [66])
  := ⟨(new.configure (resolveDecoderOptions [])).reset (some _), rfl, by decide +kernel⟩

end Reader

end Zstd
