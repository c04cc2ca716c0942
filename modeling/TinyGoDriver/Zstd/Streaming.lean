import TinyGoDriver.Zstd.Reader

/-!
# Streaming and decoding at once

A `Reader` delivers what `DecodeAll` returns, whatever the pieces in which its input arrives
and whatever the sizes of the buffers it is asked to read into.

The two halves of the argument meet in `Stream.Ends`: from here on, the steps of the stream
decode the content `c`, and the last of them fails with `e`.  A `Reader` whose stream is like
that delivers `c` and then fails with `e`, for any buffers.  The loops of `DecodeAll` and
the steps of the stream are compared by induction on the former.  The output limit is not the
business of the steps: it is held to where content is handed out.
-/

namespace Zstd

open GoRt List GoM

/-! ### From steps to reads -/

namespace Stream

/-- The content that has been decoded and not read. -/
def unread (z : Stream) : List UInt8 := z.hist.drop z.pos

/-- The stream once all its content has been read. -/
def readAll (z : Stream) : Stream := { z with pos := z.hist.length }

/-- `next` decodes the content `c` and leads to `z'` once that has been read. -/
structure Step (reload : Bool) (z : Stream) (c : List UInt8) (z' : Stream) : Prop where
  pos_eq : z.pos = z.hist.length
  next_eq : ∃ z₁, next reload z = .ok () z₁ ∧ z₁.unread = c ∧ z₁.readAll = z'
    ∧ z₁.pos ≤ z₁.hist.length ∧ z₁.d.maxOutput = z.d.maxOutput
  steps_lt : z'.steps < z.steps

/-- The steps of the stream decode the content `c`, and then fail with `e`. -/
inductive Ends (reload : Bool) : Stream → List UInt8 → ReaderErr → Prop
  | fail {z z' : Stream} {e : ReaderErr} (hpos : z.pos = z.hist.length)
      (hnext : next reload z = .error (.fail e) z') (hpos' : z'.pos = z'.hist.length) :
      Ends reload z [] e
  | step {z z' : Stream} {c c' : List UInt8} {e : ReaderErr} (hstep : Step reload z c z')
      (hrest : Ends reload z' c' e) : Ends reload z (c ++ c') e

end Stream

variable {e : ReaderErr} {c : List UInt8} {n fuel : ℕ} {z' : Stream}

variable {reload : Bool} {s : DecodeState}

namespace Reader

/-- How much of `k` bytes the output limit leaves. -/
def budget (z : Reader) (k : ℕ) : ℕ :=
  if 0 < z.stream.d.maxOutput then (z.stream.d.maxOutput - z.total).toNat else k

/-- The `Reader` has the content `c` to deliver, and then fails with `e`. -/
structure Live (reload : Bool) (z : Reader) (c : List UInt8) (e : ReaderErr) : Prop where
  closed_eq : z.closed = false
  err_eq : z.err = none
  pos_le : z.stream.pos ≤ z.stream.hist.length
  ends : ∃ c', Stream.Ends reload z.stream.readAll c' e ∧ z.stream.unread ++ c' = c

/-- The `Reader` has failed with `e`. -/
structure Stuck (z : Reader) (e : ReaderErr) : Prop where
  closed_eq : z.closed = false
  err_eq : z.err = some e
  pos_eq : z.stream.pos = z.stream.hist.length

variable {z : Reader}

theorem Stuck.fetch (hz : z.Stuck e) (reload : Bool) (n fuel : ℕ) :
  fetch reload n (fuel + 1) z = .error (.fail e) z
  := by
  rw [Reader.fetch, get_bind, if_pos hz.pos_eq, hz.err_eq]
  rfl

theorem Stuck.read (hz : z.Stuck e) (reload : Bool) (n : ℕ) :
  read reload n z = .error (.fail e) z
  := by
  rw [Reader.read, get_bind, if_neg (by simp [hz.closed_eq]), bind_error (hz.fetch reload n _)]

/-- The loop of `Read` stops at content, or where the stream fails. -/
theorem Live.fetch (hz : z.Live reload c e) (hn : 0 < n) (hfuel : z.stream.steps + 1 < fuel) :
  (c = [] ∧ ∃ z', fetch reload n fuel z = .error (.fail e) z' ∧ z'.Stuck e)
    ∨ ∃ z', fetch reload n fuel z = .ok true z' ∧ z'.Live reload c e ∧ z'.stream.unread ≠ []
      ∧ z'.budget = z.budget
  := by
  induction fuel generalizing z with
  | zero => omega
  | succ fuel ih =>
    rw [Reader.fetch, get_bind]
    by_cases hpos : z.stream.pos = z.stream.hist.length
    · rw [if_pos hpos, hz.err_eq]
      dsimp only
      rw [if_neg (by omega)]
      obtain ⟨c', hends, hc⟩ := hz.ends
      have hread : z.stream.readAll = z.stream := by
        rw [Stream.readAll, ← hpos]
      have hunread : z.stream.unread = [] := by
        rw [Stream.unread, hpos, drop_length]
      rw [hread] at hends
      rw [hunread] at hc
      subst hc
      cases hends with
      | @fail _ z₁ _ _ hnext hpos' =>
        have hadv : advance reload z = .ok () { z with stream := z₁, err := some e } := by
          rw [advance, hnext]
        rw [bind_ok hadv]
        left
        obtain ⟨fuel, rfl⟩ : ∃ k, fuel = k + 1 := ⟨fuel - 1, by omega⟩
        have hstuck : Stuck { z with stream := z₁, err := some e } e :=
          ⟨hz.closed_eq, rfl, hpos'⟩
        exact ⟨rfl, _, hstuck.fetch reload n fuel, hstuck⟩
      | step hstep hrest =>
        obtain ⟨z₁, hnext, rfl, rfl, hle, hmax⟩ := hstep.next_eq
        have hadv : advance reload z = .ok () { z with stream := z₁ } := by
          rw [advance, hnext]
        rw [bind_ok hadv]
        have hbudget : budget { z with stream := z₁ } = z.budget := by
          funext k
          rw [budget, budget, ← hmax]
        rw [← hbudget]
        apply ih
        · exact ⟨hz.closed_eq, hz.err_eq, hle, _, hrest, rfl⟩
        have hlt := hstep.steps_lt
        have : z₁.readAll.steps = z₁.steps := rfl
        dsimp only
        omega
    · rw [if_neg hpos]
      right
      refine ⟨z, rfl, hz, ?_, rfl⟩
      have := hz.pos_le
      rw [Stream.unread, ne_eq, drop_eq_nil_iff]
      omega

theorem deliver_spent (hpos : z.stream.pos ≤ z.stream.hist.length)
    (hlimit : 0 < z.stream.d.maxOutput ∧ z.stream.d.maxOutput - z.total ≤ 0) (n : ℕ) :
  deliver n z = .error (.fail (.decode .outputTooLarge)) z
  := by
  rw [Reader.deliver, get_bind, slice_eq_ok hpos le_rfl, bind_ok (call_ok _ z)]
  rw [if_pos hlimit]
  rfl

/-- As far as the output limit allows, content is handed out as it comes. -/
theorem deliver_eq (hpos : z.stream.pos ≤ z.stream.hist.length)
    (hlimit : ¬(0 < z.stream.d.maxOutput ∧ z.stream.d.maxOutput - z.total ≤ 0)) (n : ℕ) :
  ∃ k, deliver n z = .ok (z.stream.unread.take k)
      { z with
        stream := { z.stream with pos := z.stream.pos + (z.stream.unread.take k).length }
        total := z.total + (z.stream.unread.take k).length }
    ∧ k ≤ z.budget k ∧ (0 < n → 0 < k)
  := by
  rw [Reader.deliver, get_bind, slice_eq_ok hpos le_rfl, bind_ok (call_ok _ z)]
  rw [if_neg hlimit, take_length]
  by_cases hmax : 0 < z.stream.d.maxOutput
  · simp only [if_pos hmax, take_take]
    refine ⟨_, rfl, ?_, ?_⟩
    · rw [budget, if_pos hmax]
      omega
    · omega
  · simp only [if_neg hmax]
    refine ⟨n, rfl, ?_, id⟩
    rw [budget, if_neg hmax]

theorem Live.deliver (hz : z.Live reload c e) (hn : 0 < n) (hunread : z.stream.unread ≠ []) :
  (z.budget c.length = 0 ∧ deliver n z = .error (.fail (.decode .outputTooLarge)) z)
    ∨ ∃ p c' z', deliver n z = .ok p z' ∧ p ≠ [] ∧ p ++ c' = c ∧ z'.Live reload c' e
      ∧ p.length + z'.budget c'.length = z.budget c.length
  := by
  by_cases hlimit : 0 < z.stream.d.maxOutput ∧ z.stream.d.maxOutput - z.total ≤ 0
  · refine .inl ⟨?_, deliver_spent hz.pos_le hlimit n⟩
    rw [budget, if_pos hlimit.1]
    omega
  obtain ⟨k, hdel, hk, hpos⟩ := deliver_eq hz.pos_le hlimit n
  obtain ⟨c', hends, rfl⟩ := hz.ends
  have hlen : (z.stream.unread.take k).length ≤ z.stream.hist.length - z.stream.pos := by
    simp [Stream.unread]
  have hle := hz.pos_le
  have hcut : z.stream.unread.take k ++ (z.stream.unread.drop k ++ c') = z.stream.unread ++ c' := by
    rw [← append_assoc, take_append_drop]
  refine .inr ⟨_, z.stream.unread.drop k ++ c', _, hdel, ?_, hcut, ?_, ?_⟩
  · rw [ne_eq, take_eq_nil_iff]
    rintro (h | h)
    · omega
    · exact hunread h
  · refine ⟨hz.closed_eq, hz.err_eq, ?_, c', hends, ?_⟩
    · dsimp only
      omega
    · change z.stream.hist.drop (z.stream.pos + (z.stream.unread.take k).length) ++ c' = _
      rw [← drop_drop]
      change z.stream.unread.drop _ ++ c' = _
      congr 1
      rw [length_take]
      rcases le_total k z.stream.unread.length with h | h
      · rw [Nat.min_eq_left h]
      · rw [Nat.min_eq_right h, drop_length, drop_of_length_le h]
  · have hsum := congrArg length hcut
    rw [length_append] at hsum
    have htake : (z.stream.unread.take k).length ≤ k := length_take_le _ _
    by_cases hmax : 0 < z.stream.d.maxOutput
    · rw [budget, if_pos hmax] at hk
      rw [budget, budget, if_pos hmax, if_pos hmax]
      dsimp only
      omega
    · rw [budget, budget, if_neg hmax, if_neg hmax, hsum]

/-- One `Read` delivers some of the content, or fails where there is none or where the output
limit has been reached. -/
theorem Live.read (hz : z.Live reload c e) (hn : 0 < n) :
  (c = [] ∧ ∃ z', read reload n z = .error (.fail e) z' ∧ z'.Stuck e)
    ∨ (c ≠ [] ∧ z.budget c.length = 0 ∧ ∃ z', read reload n z
        = .error (.fail (.decode .outputTooLarge)) z' ∧ z'.Live reload c e ∧ z'.budget = z.budget)
    ∨ ∃ p c' z', read reload n z = .ok p z' ∧ p ≠ [] ∧ p ++ c' = c ∧ z'.Live reload c' e
      ∧ p.length + z'.budget c'.length = z.budget c.length
  := by
  rw [Reader.read, get_bind, if_neg (by simp [hz.closed_eq])]
  rcases hz.fetch hn (show z.stream.steps + 1 < z.stream.steps + 3 by omega) with
    ⟨hc, z', hfetch, hstuck⟩ | ⟨z', hfetch, hlive, hne, hbudget⟩
  · rw [bind_error hfetch]
    exact .inl ⟨hc, z', rfl, hstuck⟩
  rw [bind_ok hfetch, ← hbudget]
  have hc : c ≠ [] := by
    obtain ⟨c', -, rfl⟩ := hlive.ends
    simp [hne]
  rcases hlive.deliver hn hne with ⟨hspent, hdel⟩ | h
  · exact .inr (.inl ⟨hc, hspent, z', hdel, hlive, rfl⟩)
  · exact .inr (.inr h)

/-- What the call `Read` number `i` returns, where the calls read into buffers of the sizes
`bufs`. -/
def nthRead (reload : Bool) : (ℕ → ℕ+) → ℕ → Reader → Except (Fault ReaderErr) (List UInt8)
  | bufs, 0, z =>
    match read reload (bufs 0) z with
    | .ok p _ => .ok p
    | .error f _ => .error f
  | bufs, i + 1, z =>
    match read reload (bufs 0) z with
    | .ok _ z' => nthRead reload (fun j => bufs (j + 1)) i z'
    | .error _ z' => nthRead reload (fun j => bufs (j + 1)) i z'

/-- The calls of `Read` deliver `c`, piece by piece, and after that all fail with `e`. -/
def Delivers (reload : Bool) (bufs : ℕ → ℕ+) (z : Reader) (c : List UInt8) (e : ReaderErr) :
    Prop :=
  ∃ pieces : List (List UInt8), pieces.flatten = c ∧
    ∀ i, nthRead reload bufs i z
      = match pieces[i]? with
        | some p => .ok p
        | none => .error (.fail e)

theorem nthRead_fixed {f : Fault ReaderErr} (h : ∀ n : ℕ+, read reload n z = .error f z)
    (bufs : ℕ → ℕ+) (i : ℕ) :
  nthRead reload bufs i z = .error f
  := by
  induction i generalizing bufs with
  | zero => rw [nthRead, h]
  | succ i ih =>
    rw [nthRead, h]
    exact ih _

theorem Live.nthRead_spent (hz : z.Live reload c e) (hc : c ≠ []) (hspent : z.budget c.length = 0)
    (bufs : ℕ → ℕ+) (i : ℕ) :
  nthRead reload bufs i z = .error (.fail (.decode .outputTooLarge))
  := by
  induction i generalizing z bufs with
  | zero =>
    rcases hz.read (bufs 0).pos with
      ⟨h, -⟩ | ⟨-, -, z', hread, -⟩ | ⟨p, c', z', -, hp, -, -, hsum⟩
    · exact absurd h hc
    · rw [Reader.nthRead, hread]
    · have := length_pos_iff.mpr hp
      omega
  | succ i ih =>
    rcases hz.read (bufs 0).pos with
      ⟨h, -⟩ | ⟨-, -, z', hread, hlive, hbudget⟩ | ⟨p, c', z', -, hp, -, -, hsum⟩
    · exact absurd h hc
    · rw [Reader.nthRead, hread]
      exact ih hlive (by rw [hbudget]; exact hspent) _
    · have := length_pos_iff.mpr hp
      omega

/-- Whatever the buffers, the content of the stream is delivered as far as the output limit
allows. -/
theorem Live.delivers (hz : z.Live reload c e) (bufs : ℕ → ℕ+) :
  Delivers reload bufs z (c.take (z.budget c.length))
    (if z.budget c.length < c.length then .decode .outputTooLarge else e)
  := by
  induction hlen : c.length using Nat.strong_induction_on generalizing z c bufs with
  | _ k ih =>
    subst hlen
    rcases hz.read (bufs 0).pos with ⟨rfl, z', hread, hstuck⟩ | ⟨hc, hspent, -⟩
      | ⟨p, c', z', hread, hp, rfl, hlive, hsum⟩
    · refine ⟨[], by simp, ?_⟩
      intro i
      cases i with
      | zero =>
        rw [Reader.nthRead, hread]
        rfl
      | succ i =>
        rw [Reader.nthRead, hread]
        exact nthRead_fixed (fun n => hstuck.read reload n) _ i
    · rw [hspent, if_pos (length_pos_iff.mpr hc)]
      exact ⟨[], rfl, fun i => hz.nthRead_spent hc hspent bufs i⟩
    · have := length_pos_iff.mpr hp
      obtain ⟨pieces, hpieces, hnth⟩ := ih c'.length (by rw [length_append]; omega) hlive
        (fun j => bufs (j + 1)) rfl
      have hiff : (z.budget (p ++ c').length < (p ++ c').length)
          ↔ z'.budget c'.length < c'.length := by
        rw [← hsum, length_append]
        omega
      simp only [hiff]
      refine ⟨p :: pieces, ?_, ?_⟩
      · rw [← hsum, take_length_add_append, flatten_cons, hpieces]
      intro i
      cases i with
      | zero =>
        rw [Reader.nthRead, hread]
        rfl
      | succ i =>
        rw [Reader.nthRead, hread]
        exact hnth i

end Reader

/-! ### The steps of a stream -/

namespace Stream

/-- The input has `src` left, and all content has been read. -/
structure Ready (z : Stream) (src : List UInt8) : Prop where
  input : ∃ b, z.input = some b ∧ b.Ok ∧ b.pending = src
  pos_eq : z.pos = z.hist.length
  length_le : z.hist.length ≤ z.histCap

variable {z : Stream} {src : List UInt8}

theorem Ready.steps_eq (hz : z.Ready src) :
  z.steps = 2 * src.length + if z.state = .readFrameEnd then 1 else 0
  := by
  obtain ⟨b, hb, -, rfl⟩ := hz.input
  rw [steps, hb]
  rfl

theorem Ready.readAll_eq (hz : z.Ready src) :
  z.readAll = z
  := by
  rw [readAll, ← hz.pos_eq]

theorem Ready.unread_eq (hz : z.Ready src) :
  z.unread = []
  := by
  rw [unread, hz.pos_eq, drop_length]

/-- A step that decodes no content. -/
theorem Ready.step {src' : List UInt8} (hz : z.Ready src) (hz' : z'.Ready src')
    (hnext : next reload z = .ok () z') (hmax : z'.d.maxOutput = z.d.maxOutput)
    (hlt : z'.steps < z.steps) :
  Step reload z [] z'
  := ⟨hz.pos_eq, ⟨z', hnext, hz'.unread_eq, hz'.readAll_eq, hz'.pos_eq.le, hmax⟩, hlt⟩

theorem Ready.readFull (hz : z.Ready src) (hn : n ≤ src.length) :
  ∃ b, onInput (Bufio.readFull n) z = .ok (src.take n) (z.setInput b)
    ∧ (z.setInput b).Ready (src.drop n)
  := by
  obtain ⟨b, hb, hok, rfl⟩ := hz.input
  obtain ⟨b', hread, hok', hpend⟩ := Bufio.readFull_eq_ok hok hn
  exact ⟨b', on_ok hb hread, ⟨b', rfl, hok', hpend⟩, hz.pos_eq, hz.length_le⟩

theorem Ready.readFull_short (hz : z.Ready src) (hn : src.length < n) :
  ∃ b, onInput (Bufio.readFull n) z
      = .error (.fail (if src = [] then .eof else .decode .unexpectedEOF)) (z.setInput b)
  := by
  obtain ⟨b, hb, hok, rfl⟩ := hz.input
  obtain ⟨b', hread⟩ := Bufio.readFull_short hok hn
  refine ⟨b', ?_⟩
  rw [onInput, on_fail hb hread]
  split <;> rfl

theorem unexpected_ok {α : Type} {x : StreamM α} {a : α} (h : x z = .ok a z') :
  unexpected x z = .ok a z'
  := by
  rw [unexpected, h]

/-- A short read inside a frame. -/
theorem Ready.unexpected_short (hz : z.Ready src) (hn : src.length < n) :
  ∃ b, unexpected (onInput (Bufio.readFull n)) z
      = .error (.fail (.decode .unexpectedEOF)) (z.setInput b)
  := by
  obtain ⟨b, hb⟩ := hz.readFull_short hn
  refine ⟨b, ?_⟩
  rw [unexpected]
  split <;> simp_all

theorem Ready.discard (hz : z.Ready src) (hn : n ≤ src.length) :
  ∃ b, unexpected (onInput (Bufio.discard n)) z = .ok () (z.setInput b)
    ∧ (z.setInput b).Ready (src.drop n)
  := by
  obtain ⟨b, hb, hok, rfl⟩ := hz.input
  obtain ⟨b', hdisc, hok', hpend⟩ := Bufio.discard_eq_ok hok hn
  exact ⟨b', unexpected_ok (on_ok hb hdisc), ⟨b', rfl, hok', hpend⟩, hz.pos_eq, hz.length_le⟩

theorem Ready.discard_short (hz : z.Ready src) (hn : src.length < n) :
  ∃ b, unexpected (onInput (Bufio.discard n)) z
      = .error (.fail (.decode .unexpectedEOF)) (z.setInput b)
  := by
  obtain ⟨b, hb, hok, rfl⟩ := hz.input
  obtain ⟨b', hdisc⟩ := Bufio.discard_short hok hn
  exact ⟨b', by rw [unexpected, onInput, on_fail hb hdisc]; rfl⟩

theorem readHdr_eq {lo hi : ℕ} (h : lo ≤ hi) (h' : hi ≤ maxFrameHeader) :
  readHdr lo hi = onInput (Bufio.readFull (hi - lo))
  := if_pos ⟨h, h'⟩

/-- A skippable frame is skipped, in as many pieces as it takes, if it is there. -/
theorem Ready.skipLoop (hz : z.Ready src) (hfuel : n < fuel) :
  ∃ b, if n ≤ src.length then
      skipLoop fuel n z = .ok () (z.setInput b) ∧ (z.setInput b).Ready (src.drop n)
    else Stream.skipLoop fuel n z = .error (.fail (.decode .unexpectedEOF)) (z.setInput b)
  := by
  induction fuel generalizing n z src with
  | zero => omega
  | succ fuel ih =>
    rw [Stream.skipLoop]
    by_cases hpos : 0 < n
    · rw [if_pos hpos]
      by_cases hlen : min n (2 ^ 20) ≤ src.length
      · obtain ⟨b, hdisc, hz'⟩ := hz.discard hlen
        rw [bind_ok hdisc]
        have hrest := ih hz' (show n - min n (2 ^ 20) < fuel by omega)
        rw [drop_drop, Nat.add_sub_cancel' (Nat.min_le_left _ _), length_drop] at hrest
        simp only [Nat.sub_le_sub_iff_right hlen] at hrest
        exact hrest
      · obtain ⟨b, hdisc⟩ := hz.discard_short (not_le.mp hlen)
        refine ⟨b, ?_⟩
        rw [if_neg (by omega), bind_error hdisc]
    · obtain ⟨b, hb, -⟩ := hz.input
      refine ⟨b, ?_⟩
      rw [if_neg hpos, if_pos (by omega), setInput, ← hb, show n = 0 by omega]
      exact ⟨rfl, hz⟩

/-- The history has been left as it is, or cut down to the last window, and there is room for a
block in a buffer that has not grown beyond two windows and a block. -/
def Roomy (z : Stream) (r : Go ReaderErr Stream) : Prop :=
  ∃ cap keep, r = .ok { z with
      histCap := cap, hist := z.hist.drop (z.hist.length - keep), pos := keep }
    ∧ keep + z.d.blockMax ≤ cap ∧ cap ≤ max z.histCap (2 * z.d.window + z.d.blockMax)
    ∧ min z.hist.length z.d.window ≤ keep ∧ keep ≤ z.hist.length

theorem Ready.makeRoom (hz : z.Ready src) :
  z.Roomy z.makeRoom
  := by
  have hlen := hz.length_le
  -- the two ways in which it may end, with the capacity `cap` reached by then
  have hsame : ∀ cap, z.hist.length + z.d.blockMax ≤ cap →
      cap ≤ max z.histCap (2 * z.d.window + z.d.blockMax) →
      z.Roomy (.ok { z with histCap := cap }) := by
    intro cap hroom hcap
    refine ⟨cap, z.hist.length, ?_, hroom, hcap, by omega, le_rfl⟩
    rw [Nat.sub_self, drop_zero, ← hz.pos_eq]
  have hslide : ∀ cap, z.d.window + z.d.blockMax ≤ cap →
      cap ≤ max z.histCap (2 * z.d.window + z.d.blockMax) →
      z.Roomy (.ok (slide { z with histCap := cap })) := by
    intro cap hroom hcap
    exact ⟨cap, min z.hist.length z.d.window, rfl, by omega, hcap, le_rfl, by omega⟩
  rw [Stream.makeRoom]
  dsimp only
  split
  · exact hsame z.histCap (by omega) (by omega)
  split
  · rw [if_neg (by omega)]
    split
    · exact hsame _ (by omega) (by omega)
    · exact hslide _ (by omega) (by omega)
  · exact hslide z.histCap (by omega) (by omega)

end Stream

/-- A common history that covers `m` bytes is still there when the last `keep` bytes of one
output are kept. -/
theorem exists_tail_of_drop {hist out a b h : List UInt8} {m keep : ℕ} (h₁ : hist = a ++ h)
    (h₂ : out = b ++ h) (hm : m ≤ h.length) (hmk : m ≤ keep) (hk : keep ≤ hist.length) :
  ∃ a' b' h', hist.drop (hist.length - keep) = a' ++ h' ∧ out = b' ++ h' ∧ m ≤ h'.length
  := by
  refine ⟨(hist.drop (hist.length - keep)).take (keep - m), b ++ h.take (h.length - m),
    h.drop (h.length - m), ?_, ?_, ?_⟩
  · have hcut : h.drop (h.length - m) = hist.drop (hist.length - m) := by
      rw [h₁, length_append, drop_append,
        drop_of_length_le (show a.length ≤ a.length + h.length - m by omega)]
      congr 1
      omega
    rw [hcut]
    have : hist.length - m = hist.length - keep + (keep - m) := by omega
    rw [this, ← drop_drop, take_append_drop]
  · rw [append_assoc, take_append_drop, h₂]
  · rw [length_drop]
    omega

/-! ### The loops of `DecodeAll` and the steps of a stream -/

namespace Stream

/-- The stream `z` keeps up with a call from `s` that ends with the given result: if the call
returns, the stream gets to a `z'` with `P`, and if it fails the stream fails alike, and in
both cases it decodes the content that the call has added in completed blocks. -/
def Follows {α : Type} (reload : Bool) (P : α → Stream → DecodeState → Prop) (z : Stream)
    (s : DecodeState) : EStateM.Result (Fault Err) DecodeState α → Prop
  | .ok r s' => ∃ c z', s'.out = s.out ++ c ∧ P r z' s'
      ∧ ∀ c' e, Ends reload z' c' e → Ends reload z (c ++ c') e
  | .error (.fail e) s' => ∃ c, s'.out.take s'.done = s.out ++ c ∧ Ends reload z c (.decode e)
  | .error _ _ => False

namespace Follows

variable {α β : Type} {reload : Bool} {P : α → Stream → DecodeState → Prop}
  {Q : β → Stream → DecodeState → Prop} {z : Stream} {s : DecodeState}

variable {s' : DecodeState} {r : EStateM.Result (Fault Err) DecodeState α}

theorem ok_iff {r : α} :
  Follows reload P z s (.ok r s') ↔ ∃ c z', s'.out = s.out ++ c ∧ P r z' s'
    ∧ ∀ c' e, Ends reload z' c' e → Ends reload z (c ++ c') e
  := Iff.rfl

theorem fail_iff {e : Err} :
  Follows reload P z s (.error (.fail e) s')
    ↔ ∃ c, s'.out.take s'.done = s.out ++ c ∧ Ends reload z c (.decode e)
  := Iff.rfl

/-- What follows the call `f` after a stretch of content `c` follows it from the start. -/
theorem prepend (hout : s'.out = s.out ++ c)
    (hends : ∀ c' e, Ends reload z' c' e → Ends reload z (c ++ c') e)
    (hr : Follows reload P z' s' r) :
  Follows reload P z s r
  := by
  cases r with
  | ok r s₁ =>
    obtain ⟨c₁, z₁, h₁, hP, hends₁⟩ := ok_iff.mp hr
    refine ⟨c ++ c₁, z₁, by rw [h₁, hout, append_assoc], hP, ?_⟩
    intro c' e he
    rw [append_assoc]
    apply hends
    exact hends₁ c' e he
  | error f s₁ =>
    cases f with
    | fail e =>
      obtain ⟨c₁, h₁, hends₁⟩ := fail_iff.mp hr
      exact ⟨c ++ c₁, by rw [h₁, hout, append_assoc], hends _ _ hends₁⟩
    | _ => exact hr.elim

theorem bind {x : DecodeM α} {f : α → DecodeM β} (hx : Follows reload P z s (x s))
    (hf : ∀ r z' s', P r z' s' → Follows reload Q z' s' (f r s')) :
  Follows reload Q z s ((x >>= f) s)
  := by
  rw [bind_apply]
  cases hxs : x s with
  | ok r s₁ =>
    rw [hxs] at hx
    obtain ⟨c, z₁, h₁, hP, hends⟩ := ok_iff.mp hx
    exact prepend h₁ hends (hf r z₁ s₁ hP)
  | error f s₁ =>
    rw [hxs] at hx
    cases f with
    | fail e => exact hx
    | _ => exact hx.elim

/-- The stream takes a step. -/
theorem step (hstep : Step reload z c z') (hout : s'.out = s.out ++ c)
    (hr : Follows reload P z' s' r) :
  Follows reload P z s r
  := prepend hout (fun _ _ he => Ends.step hstep he) hr

/-- Nothing happens. -/
theorem ok {r : α} (hP : P r z s) :
  Follows reload P z s (.ok r s)
  := by
  exact ⟨[], z, by simp, hP, fun _ _ he => he⟩

/-- The step of the stream fails as the call does, which has nothing to show for it. -/
theorem fail {e : Err} (hpos : z.pos = z.hist.length)
    (hnext : next reload z = .error (.fail (.decode e)) z') (hpos' : z'.pos = z'.hist.length)
    (hout : s'.out.take s'.done = s.out) :
  Follows reload P z s (.error (.fail e) s')
  := by
  exact ⟨[], by rw [hout, append_nil], Ends.fail hpos hnext hpos'⟩

end Follows

/-- The stream stands before a block, as `DecodeAll` does without an output limit. -/
structure InBlocks (z : Stream) (src : List UInt8) (s : DecodeState) : Prop where
  ready : z.Ready src
  state_eq : z.state = .readBlock
  agree : z.d.Agree s.d
  tail : ∃ a b h, z.hist = a ++ h ∧ s.out = b ++ h ∧ min z.d.produced z.d.window ≤ h.length
  done_eq : s.done = s.out.length
  maxOutput_eq : s.d.maxOutput = 0

/-- The stream stands after the last block of a frame, as `DecodeAll` does. -/
structure AtEnd (z : Stream) (src : List UInt8) (s : DecodeState) : Prop where
  ready : z.Ready src
  state_eq : z.state = .readFrameEnd
  agree : z.d.Agree s.d
  done_eq : s.done = s.out.length
  maxOutput_eq : s.d.maxOutput = 0

/-- The stream stands before a frame, as `DecodeAll` does. -/
structure AtFrame (z : Stream) (src : List UInt8) (s : DecodeState) : Prop where
  ready : z.Ready src
  state_eq : z.state = .readFrame
  maxWindow_eq : z.d.maxWindow = s.d.maxWindow
  done_eq : s.done = s.out.length
  maxOutput_eq : s.d.maxOutput = 0

variable {z : Stream}

theorem next_readFrameEnd (reload : Bool) (h : z.state = .readFrameEnd) :
  next reload z = readFrameEnd z
  := by
  rw [next, get_bind, h]

theorem next_readFrame (reload : Bool) (h : z.state = .readFrame) :
  next reload z = readFrameHeader z
  := by
  rw [next, get_bind, h]

theorem decode_ok {α : Type} (a : α) (z : Stream) :
  decode (.ok a) z = .ok a z
  := rfl

variable {src : List UInt8} {typ size : ℕ}

theorem Ready.growBlock (hz : z.Ready src) (payload : ℕ) :
  (z.growBlock payload).Ready src ∧ ∃ cap, z.growBlock payload = { z with blockCap := cap }
  := by
  rw [Stream.growBlock]
  split
  · exact ⟨⟨hz.input, hz.pos_eq, hz.length_le⟩, _, rfl⟩
  · exact ⟨hz, z.blockCap, rfl⟩

/-- `readBlock` reads the header. -/
theorem Ready.readBlock (hz : z.Ready src) (reload : Bool) (hthree : 3 ≤ src.length) :
  ∃ b, (z.setInput b).Ready (src.drop 3)
    ∧ readBlock reload z = (decode (z.d.parseBlockHeader src) >>= fun (typ, size, last) =>
        readPayload reload typ size last) (z.setInput b)
  := by
  obtain ⟨b, hread, hz'⟩ := hz.readFull hthree
  refine ⟨b, hz', ?_⟩
  have hheader : (z.setInput b).d.parseBlockHeader (src.take 3) = z.d.parseBlockHeader src := by
    rw [Decoder.parseBlockHeader, Decoder.parseBlockHeader, idx_take (by omega),
      idx_take (by omega), idx_take (by omega)]
    rfl
  rw [Stream.readBlock, readHdr_eq (by omega) (by decide), bind_ok (unexpected_ok hread),
    get_bind, hheader]

/-- If its payload is there, a block is decoded with what it needs of the history. -/
theorem InBlocks.readPayload (hz : z.InBlocks src s) (reload : Bool) (last : Bool)
    (hpayload : blockPayloadSize typ size ≤ src.length) :
  ∃ z', readPayload reload typ size last z = (decodeBlock reload typ size
        (src.take (blockPayloadSize typ size)) >>= fun _ =>
      if last then modify fun z => { z with state := .readFrameEnd } else pure ()) z'
    ∧ z'.InBlocks (src.drop (blockPayloadSize typ size)) s ∧ z'.d = z.d
    ∧ z'.hist.length + z.d.blockMax ≤ z'.histCap
    ∧ z'.histCap ≤ max z.histCap (2 * z.d.window + z.d.blockMax)
  := by
  obtain ⟨hz₁, cap, hcap⟩ := hz.ready.growBlock (blockPayloadSize typ size)
  obtain ⟨b, hread, hz₂⟩ := hz₁.readFull hpayload
  obtain ⟨cap', keep, hmake, hroom, hle, hkeep, hkeep'⟩ := hz₂.makeRoom
  rw [Stream.readPayload, bind_ok (modify_apply _ _), bind_ok (unexpected_ok hread),
    get_bind, hmake, bind_ok (call_ok _ _)]
  -- neither the input nor the room for payloads touches the history or the decoder
  rw [hcap] at hkeep hkeep' hroom hle hz₂ ⊢
  dsimp only [setInput] at hkeep hkeep' hroom hle ⊢
  have hlen : (z.hist.drop (z.hist.length - keep)).length = keep := by
    rw [length_drop]
    omega
  refine ⟨_, rfl, ?_, rfl, by dsimp only; omega, hle⟩
  obtain ⟨a, b, h, h₁, h₂, hmin⟩ := hz.tail
  have : h.length ≤ z.hist.length := by
    rw [h₁, length_append]
    omega
  exact ⟨⟨hz₂.input, hlen.symm, by dsimp only; omega⟩, hz.state_eq, hz.agree,
    exists_tail_of_drop h₁ h₂ hmin (show min z.d.produced z.d.window ≤ keep by omega) hkeep',
    hz.done_eq, hz.maxOutput_eq⟩

/-- `DecodeAll` and the stream decode a payload alike: after it the stream has the content of
the block unread, or has failed and has nothing. -/
theorem InBlocks.decodeBlock (hz : z.InBlocks src s) (reload : Bool) {payload : List UInt8}
    (hsize : size ≤ z.d.blockMax) (hpayload : payload.length = blockPayloadSize typ size) :
  (∃ z' s', decodeBlock reload typ size payload z = .ok () z'
      ∧ Zstd.decodeBlock reload typ size payload s = .ok () s'
      ∧ s'.out = s.out ++ z'.unread ∧ z'.readAll.InBlocks src s' ∧ z'.pos ≤ z'.hist.length
      ∧ z'.d.maxOutput = z.d.maxOutput ∧ z'.d.produced = z.d.produced + z'.unread.length
      ∧ (z.hist.length + z.d.blockMax ≤ z.histCap → z'.histCap = z.histCap))
    ∨ ∃ e z' s', decodeBlock reload typ size payload z = .error (.fail (.decode e)) z'
      ∧ Zstd.decodeBlock reload typ size payload s = .error (.fail e) s'
      ∧ s'.out.take s'.done = s.out ∧ z'.pos = z'.hist.length
      ∧ (z.hist.length + z.d.blockMax ≤ z.histCap → z'.histCap = z.histCap)
  := by
  obtain ⟨a, b, h, h₁, h₂, hmin⟩ := hz.tail
  have hpos := hz.ready.pos_eq
  have hlen : ∀ {out y : List UInt8}, out = a ++ (h ++ y) → y.length ≤ z.d.blockMax →
      z.hist.length + z.d.blockMax ≤ z.histCap → max z.histCap out.length = z.histCap := by
    rintro _ y rfl hy hroom
    rw [h₁] at hroom
    simp only [length_append] at hroom ⊢
    omega
  have hmin' : min s.d.produced s.d.window ≤ h.length := by
    rw [← hz.agree.produced_eq, ← hz.agree.window_eq]
    exact hmin
  have hsame := (decodeBlock_after (s := ⟨z.d, z.hist, z.hist.length⟩) reload hz.agree h₁ h₂ hmin
    hsize hpayload).and_right
    (decodeBlock_maxOutput reload hz.agree.right h₂ hmin' (hz.agree.blockMax_eq ▸ hsize) hpayload)
  rcases hsame.cases with ⟨_, _, s₁, s₂, hx, hy, hafter, hmax⟩ | ⟨e, s₁, s₂, hx, hy, halike⟩
  · left
    obtain ⟨y, hy₁, hy₂, hle, hd⟩ := hafter.content
    have hunread : s₁.out.drop z.pos = y := by
      rw [hpos, hy₁, h₁, ← append_assoc, drop_left]
    refine ⟨_, s₂, by rw [Stream.decodeBlock, hx], hy, ?_, ?_, ?_, hd.maxOutput_eq, ?_,
      hlen hy₁ hle⟩
    · rw [unread, hunread, hy₂, h₂, append_assoc]
    · refine ⟨⟨hz.ready.input, rfl, by simp [readAll]⟩, hz.state_eq, hafter.agree,
        ⟨a, b, h ++ y, hy₁, hy₂, ?_⟩, hafter.done₂, hmax.trans hz.maxOutput_eq⟩
      change min s₁.d.produced s₁.d.window ≤ (h ++ y).length
      rw [hd.produced_eq, hd.window_eq, length_append]
      dsimp only at hmin ⊢
      omega
    · rw [hpos, hy₁, h₁]
      simp
    · rw [unread, hunread]
      exact hd.produced_eq
  · right
    obtain ⟨y, hy₁, hy₂, hle⟩ := halike.content
    refine ⟨e, _, s₂, by rw [Stream.decodeBlock, hx]; rfl, hy, ?_, ?_, hlen hy₁ hle⟩
    · rw [halike.done₂, hz.done_eq, hy₂, h₂, ← append_assoc, take_left]
    · rw [hpos, hy₁, h₁, ← append_assoc, take_left]

theorem checkOutput_unlimited (before : ℤ) (h : s.d.maxOutput = 0) :
  checkOutput before s = .ok () s
  := by
  rw [checkOutput, get_bind, if_neg (by simp [h])]
  rfl

theorem checkDeclared_unlimited (before : ℤ) (h : s.d.maxOutput = 0) :
  checkDeclared before s = .ok () s
  := by
  rw [checkDeclared, get_bind, if_neg (by simp [h])]
  rfl

/-- Before a block is decoded, the stream and `DecodeAll` have found the same thing wrong, or
come to the same payload.  The history has room for a block then. -/
theorem InBlocks.reachBlock (hz : z.InBlocks src s) (reload : Bool) :
  (∃ e z', next reload z = .error (.fail (.decode e)) z' ∧ z'.hist = z.hist ∧ z'.pos = z.pos
      ∧ z'.histCap = z.histCap
      ∧ ∀ before fuel, Zstd.blockLoop reload before (fuel + 1) src s = .error (.fail e) s)
    ∨ ∃ (typ size : ℕ) (last : Bool) (payload rest : List UInt8) (z₁ : Stream), next reload z
        = (Stream.decodeBlock reload typ size payload >>= fun _ =>
          if last then modify fun (z : Stream) => { z with state := .readFrameEnd } else pure ()) z₁
      ∧ (∀ before fuel, Zstd.blockLoop reload before (fuel + 1) src s
        = (Zstd.decodeBlock reload typ size payload >>= fun _ => checkOutput before >>= fun _ =>
          if last then pure rest else Zstd.blockLoop reload before fuel rest) s)
      ∧ z₁.InBlocks rest s ∧ z₁.d = z.d ∧ z₁.hist.length + z.d.blockMax ≤ z₁.histCap
      ∧ z₁.histCap ≤ max z.histCap (2 * z.d.window + z.d.blockMax) ∧ size ≤ z.d.blockMax
      ∧ payload.length = blockPayloadSize typ size ∧ rest.length + 3 ≤ src.length
  := by
  rw [next, get_bind, hz.state_eq]
  by_cases hthree : src.length < 3
  · obtain ⟨b, hread⟩ := hz.ready.unexpected_short hthree
    refine .inl ⟨.unexpectedEOF, z.setInput b, ?_, rfl, rfl, rfl, fun before fuel => ?_⟩
    · exact bind_error hread
    · rw [Zstd.blockLoop, if_pos hthree]
      rfl
  obtain ⟨b, hz₁, hstart⟩ := hz.ready.readBlock reload (by omega)
  have hheader : s.d.parseBlockHeader src = z.d.parseBlockHeader src := by
    rw [Decoder.parseBlockHeader, Decoder.parseBlockHeader, hz.agree.blockMax_eq]
  have hloop : ∀ before fuel, Zstd.blockLoop reload before (fuel + 1) src s
      = (call (z.d.parseBlockHeader src) >>= fun (typ, size, last) =>
        if (src.drop 3).length < blockPayloadSize typ size then
          fail .unexpectedEOF
        else
          Zstd.decodeBlock reload typ size ((src.drop 3).take (blockPayloadSize typ size))
            >>= fun _ => checkOutput before >>= fun _ =>
            if last then pure ((src.drop 3).drop (blockPayloadSize typ size))
            else Zstd.blockLoop reload before fuel
              ((src.drop 3).drop (blockPayloadSize typ size))) s := by
    intro before fuel
    rw [Zstd.blockLoop, if_neg hthree, get_bind, hheader]
  rcases (parseBlockHeader_safe z.d (show 3 ≤ src.length by omega)).cases with
    ⟨⟨typ, size, last⟩, hok, -, hsize⟩ | ⟨e, herr⟩
  swap
  · rw [herr] at hstart
    refine .inl ⟨e, _, hstart, rfl, rfl, rfl, fun before fuel => ?_⟩
    rw [hloop, herr]
    rfl
  rw [hok, bind_ok (decode_ok _ _)] at hstart
  simp only [hok, bind_ok (call_ok _ s)] at hloop
  dsimp only at hsize hstart
  by_cases hpayload : (src.drop 3).length < blockPayloadSize typ size
  · obtain ⟨hz₂, cap, hcap⟩ := hz₁.growBlock (blockPayloadSize typ size)
    obtain ⟨b₂, hread₂⟩ := hz₂.unexpected_short hpayload
    rw [Stream.readPayload, bind_ok (modify_apply _ _), bind_error hread₂, hcap]
      at hstart
    refine .inl ⟨.unexpectedEOF, _, hstart, rfl, rfl, rfl, fun before fuel => ?_⟩
    rw [hloop, if_pos hpayload]
    rfl
  have hin : (z.setInput b).InBlocks (src.drop 3) s :=
    ⟨hz₁, hz.state_eq, hz.agree, hz.tail, hz.done_eq, hz.maxOutput_eq⟩
  obtain ⟨z₁, hpre, hz₁, hd, hroom, hcap⟩ := hin.readPayload reload last (Nat.not_lt.mp hpayload)
  refine .inr ⟨typ, size, last, _, _, z₁, hstart.trans hpre, fun before fuel => ?_, hz₁, hd, hroom,
    hcap, hsize, ?_, ?_⟩
  · rw [hloop, if_neg hpayload]
  · rw [length_take]
    omega
  · rw [length_drop, length_drop]
    omega

/-- The blocks of a frame: the stream decodes them one by one. -/
theorem InBlocks.blockLoop (hz : z.InBlocks src s) (reload : Bool) (before : ℤ)
    (hfuel : src.length < fuel) (hn : src.length ≤ n) :
  Follows reload (fun rest z' s' => z'.AtEnd rest s' ∧ rest.length ≤ n) z s
    (blockLoop reload before fuel src s)
  := by
  induction fuel generalizing z src s with
  | zero => omega
  | succ fuel ih =>
    have hpos := hz.ready.pos_eq
    rcases hz.reachBlock reload with ⟨e, z', hnext, hhist, hpos', -, hloop⟩
      | ⟨typ, size, last, payload, rest, z₁, hnext, hloop, hz₁, hd, -, -, hsize, hpayload, hrest⟩
    · rw [hloop]
      refine Follows.fail hpos hnext (by rw [hhist, hpos', hpos]) ?_
      rw [hz.done_eq, take_length]
    rw [hloop]
    rcases hz₁.decodeBlock reload (hd ▸ hsize) hpayload with
      ⟨z₂, s₂, hblock, hblock', hout, hz₂, hpos₂, hmax₂, -, -⟩
        | ⟨e, z₂, s₂, hblock, hblock', hout, hpos₂, -⟩
    swap
    · rw [bind_error hblock] at hnext
      rw [bind_error hblock']
      exact Follows.fail hpos hnext hpos₂ hout
    rw [bind_ok hblock] at hnext
    rw [bind_ok hblock', bind_ok (checkOutput_unlimited before hz₂.maxOutput_eq)]
    rw [hd] at hmax₂
    have hsteps := hz.ready.steps_eq
    have hsteps₂ := hz₂.ready.steps_eq
    cases last with
    | true =>
      have hready : ({ z₂.readAll with state := .readFrameEnd } : Stream).Ready rest :=
        ⟨hz₂.ready.input, rfl, hz₂.ready.length_le⟩
      have hsteps₃ := hready.steps_eq
      rw [if_pos rfl] at hsteps₃
      have hstep : Step reload z z₂.unread { z₂.readAll with state := .readFrameEnd } :=
        ⟨hpos, ⟨_, hnext, rfl, rfl, hpos₂, hmax₂⟩, by omega⟩
      apply Follows.step hstep hout
      exact Follows.ok ⟨⟨hready, rfl, hz₂.agree, hz₂.done_eq, hz₂.maxOutput_eq⟩, by omega⟩
    | false =>
      rw [hz₂.state_eq, if_neg (by decide)] at hsteps₂
      have hstep : Step reload z z₂.unread z₂.readAll :=
        ⟨hpos, ⟨_, hnext, rfl, rfl, hpos₂, hmax₂⟩, by omega⟩
      apply Follows.step hstep hout
      exact ih hz₂ (by omega) (by omega)

theorem AtEnd.readSum (hz : z.AtEnd src s) :
  (z.d.frame.checksum = true ∧ src.length < 4
      ∧ ∃ b, readSum z = .error (.fail (.decode .unexpectedEOF)) (z.setInput b))
    ∨ ∃ b k, readSum z = .ok (src.take k) (z.setInput b) ∧ (z.setInput b).Ready (src.drop k)
      ∧ (z.d.frame.checksum = true ∧ k = 4 ∧ 4 ≤ src.length ∨ z.d.frame.checksum = false ∧ k = 0)
  := by
  rw [Stream.readSum, get_bind]
  by_cases hsum : z.d.frame.checksum = true
  · rw [if_pos hsum]
    by_cases hlen : src.length < 4
    · exact .inl ⟨hsum, hlen, hz.ready.unexpected_short hlen⟩
    · obtain ⟨b, hread, hz'⟩ := hz.ready.readFull (show 4 ≤ src.length by omega)
      exact .inr ⟨b, 4, unexpected_ok hread, hz', .inl ⟨hsum, rfl, by omega⟩⟩
  rw [if_neg hsum]
  obtain ⟨b, hb, -⟩ := hz.ready.input
  have hset : z.setInput b = z := by rw [setInput, ← hb]
  rw [Bool.not_eq_true] at hsum
  refine .inr ⟨b, 0, by rw [hset]; rfl, ?_, .inr ⟨hsum, rfl⟩⟩
  rw [hset]
  exact hz.ready

/-- The end of a frame. -/
theorem AtEnd.frameEnd (hz : z.AtEnd src s) (reload : Bool) (hn : src.length ≤ n) :
  Follows reload (fun rest z' s' => z'.AtFrame rest s' ∧ rest.length ≤ n) z s (frameEnd src s)
  := by
  have hpos := hz.ready.pos_eq
  have hdone : s.out.take s.done = s.out := by
    rw [hz.done_eq, take_length]
  have hnext := next_readFrameEnd reload hz.state_eq
  rw [Stream.readFrameEnd] at hnext
  -- what `DecodeAll` does, with as much of the input as the checksum takes
  have hcall : ∀ k, (s.d.frame.checksum = true ∧ k = 4 ∧ 4 ≤ src.length
        ∨ s.d.frame.checksum = false ∧ k = 0) →
      Zstd.frameEnd src s = (call (s.d.endFrame (src.take k)) >>= fun _ =>
        pure (src.drop k)) s := by
    rintro k (⟨hsum, rfl, hlen⟩ | ⟨hsum, rfl⟩)
    · rw [Zstd.frameEnd, get_bind, if_pos hsum, if_neg (by omega)]
    · rw [Zstd.frameEnd, get_bind, if_neg (by simp [hsum])]
      rfl
  rcases hz.readSum with ⟨hsum, hlen, b, hread⟩ | ⟨b, k, hread, hz', hk⟩
  · rw [hz.agree.frame_eq] at hsum
    rw [bind_error hread] at hnext
    rw [Zstd.frameEnd, get_bind, if_pos hsum, if_pos hlen]
    exact Follows.fail hpos hnext hpos hdone
  rw [bind_ok hread, get_bind] at hnext
  have hlen : z.d.frame.checksum = true → 4 ≤ (src.take k).length := by
    intro h
    rcases hk with ⟨-, rfl, hlen⟩ | ⟨hsum, -⟩
    · rw [length_take]
      omega
    · rw [hsum] at h
      cases h
  have hsame := Decoder.endFrame_same hz.agree hlen
  rw [hz.agree.frame_eq] at hk
  rw [hcall k hk]
  rcases hsame.cases with ⟨_, _, hx, hy, -⟩ | ⟨e, hx, hy⟩
  · rw [show (z.setInput b).d = z.d from rfl, hx] at hnext
    rw [hy]
    have hready : ({ z.setInput b with state := .readFrame } : Stream).Ready (src.drop k) :=
      ⟨hz'.input, hz'.pos_eq, hz'.length_le⟩
    have hlen : (src.drop k).length ≤ src.length := by
      rw [length_drop]
      omega
    have hlt : ({ z.setInput b with state := .readFrame } : Stream).steps < z.steps := by
      rw [hready.steps_eq, hz.ready.steps_eq, hz.state_eq, if_neg (by simp), if_pos rfl]
      omega
    apply Follows.step (hz.ready.step hready hnext rfl hlt) (append_nil _).symm
    exact Follows.ok ⟨⟨hready, rfl, hz.agree.maxWindow_eq, hz.done_eq, hz.maxOutput_eq⟩, by omega⟩
  · rw [show (z.setInput b).d = z.d from rfl, hx] at hnext
    rw [hy]
    exact Follows.fail hpos hnext hpos hdone

/-- The header of a frame, as far as it is there, is read and parsed. -/
theorem Ready.readParams (hz : z.Ready src) :
  (∃ z', readParams z = .error (.fail (.decode .unexpectedEOF)) z' ∧ z'.pos = z'.hist.length
      ∧ parseFrameParams src = .error (.fail .unexpectedEOF))
    ∨ ∃ b, (z.setInput b).Ready (src.drop (frameHeaderSize (src.headD 0).toNat))
      ∧ readParams z = (decode (parseFrameParams src) >>= fun (h, _) => startFrame h)
        (z.setInput b)
  := by
  rw [Stream.readParams, readHdr_eq (by omega) (by decide)]
  cases src with
  | nil =>
    obtain ⟨b, hread⟩ := hz.unexpected_short (show ([] : List UInt8).length < 1 by decide)
    exact .inl ⟨_, bind_error hread, hz.pos_eq, rfl⟩
  | cons fhd src =>
    obtain ⟨b, hread, hz₁⟩ := hz.readFull (show 1 ≤ (fhd :: src).length by simp)
    rw [bind_ok (unexpected_ok hread)]
    have hfirst : (idx ((fhd :: src).take 1) 0 : Go Err UInt8) = .ok fhd := rfl
    have hpos := frameHeaderSize_pos fhd.toNat
    have hcons : (fhd :: src).length = src.length + 1 := rfl
    rw [hfirst, bind_ok (decode_ok _ _), readHdr_eq hpos (frameHeaderSize_le fhd)]
    by_cases hlen : (fhd :: src).length < frameHeaderSize fhd.toNat
    · have hshort : ((fhd :: src).drop 1).length < frameHeaderSize fhd.toNat - 1 := by
        rw [length_drop]
        omega
      obtain ⟨b', hread'⟩ := hz₁.unexpected_short hshort
      refine .inl ⟨_, bind_error hread', hz₁.pos_eq, ?_⟩
      exact if_pos hlen
    have hlong : frameHeaderSize fhd.toNat - 1 ≤ ((fhd :: src).drop 1).length := by
      rw [length_drop]
      omega
    obtain ⟨b', hread', hz₂⟩ := hz₁.readFull hlong
    rw [drop_drop, Nat.add_sub_cancel' hpos] at hz₂
    refine .inr ⟨b', hz₂, ?_⟩
    have htake : (fhd :: src).take 1 ++ ((fhd :: src).drop 1).take (frameHeaderSize fhd.toNat - 1)
        = (fhd :: src).take (frameHeaderSize fhd.toNat) := by
      rw [← take_add, Nat.add_sub_cancel' hpos]
    rw [bind_ok (unexpected_ok hread'), htake, parseFrameParams_take fhd (by omega)]
    rfl

/-- A frame, whose magic number has been read as part of the step that `z` takes. -/
theorem AtFrame.decodeFrame {z z₁ : Stream} {src₁ : List UInt8} (hz : z.AtFrame src s)
    (reload : Bool) (before : ℤ) (hlt : src₁.length < src.length) (hz₁ : z₁.Ready src₁)
    (hd : z₁.d = z.d) (hnext : next reload z = readParams z₁) :
  Follows reload (fun rest z' s' => z'.AtFrame rest s' ∧ rest.length ≤ src₁.length) z s
    (decodeFrame reload before src₁ s)
  := by
  have hpos := hz.ready.pos_eq
  have hdone : s.out.take s.done = s.out := by
    rw [hz.done_eq, take_length]
  rw [Zstd.decodeFrame]
  rcases hz₁.readParams with ⟨z', hread, hpos', hparse⟩ | ⟨b, hz₂, hread⟩
  · rw [hparse]
    exact Follows.fail hpos (hnext.trans hread) hpos' hdone
  rw [hread] at hnext
  rcases (parseFrameParams_safe src₁).cases with ⟨⟨h, n⟩, hparse, hn, hn'⟩ | ⟨e, hparse⟩
  · rw [hparse, bind_ok (decode_ok _ _)] at hnext
    rw [hparse, bind_ok (call_ok _ s)]
    dsimp only at hn hn' hnext ⊢
    rw [← hn'] at hz₂
    rw [slice_eq_ok hn le_rfl, bind_ok (call_ok _ s), take_length, get_bind]
    rw [startFrame, get_bind, show (z₁.setInput b).d = z.d from hd] at hnext
    rcases (Decoder.beginFrame_same hz.maxWindow_eq h).cases with
      ⟨d, e, hx, hy, hagree, hprod, hmax, hmax'⟩ | ⟨e, hx, hy⟩
    · rw [hx] at hnext
      rw [hz.maxOutput_eq] at hmax'
      rw [hy, bind_ok (call_ok _ s), bind_ok (set_apply s _),
        bind_ok (checkDeclared_unlimited before hmax')]
      have hin : ({ z₁.setInput b with d := d, hist := [], pos := 0, state := .readBlock } :
          Stream).InBlocks (src₁.drop n) { s with d := e } := by
        refine ⟨⟨hz₂.input, rfl, Nat.zero_le _⟩, rfl, hagree, ⟨[], s.out, [], rfl, by simp, ?_⟩,
          hz.done_eq, hmax'⟩
        simp [hprod]
      have hlen : (src₁.drop n).length ≤ src₁.length := by
        rw [length_drop]
        omega
      have hstep : Step reload z [] { z₁.setInput b with
          d := d, hist := [], pos := 0, state := .readBlock } := by
        apply hz.ready.step hin.ready hnext hmax
        rw [hin.ready.steps_eq, hz.ready.steps_eq, hz.state_eq, if_neg (by simp)]
        omega
      apply Follows.step hstep (append_nil _).symm
      apply Follows.bind (hin.blockLoop reload before (Nat.lt_succ_self _) hlen)
      rintro rest z' s' ⟨hend, hrest⟩
      exact hend.frameEnd reload hrest
    · rw [hx] at hnext
      rw [hy]
      exact Follows.fail hpos hnext hz₂.pos_eq hdone
  · rw [hparse] at hnext
    rw [hparse]
    exact Follows.fail hpos hnext hz₂.pos_eq hdone

/-- A skippable frame, whose magic number has been read as part of the step that `z` takes. -/
theorem AtFrame.skipFrame {b : Bufio} (hz : z.AtFrame src s) (reload : Bool)
    (hz₁ : (z.setInput b).Ready (src.drop 4))
    (hnext : next reload z = (do
      let word ← unexpected (readHdr 0 4)
      let n ← decode (leAt 4 word 0)
      skip n) (z.setInput b)) :
  Follows reload (fun rest z' s' => z'.AtFrame rest s' ∧ rest.length < src.length) z s
    ((GoM.call (skipFrame src) : DecodeM (List UInt8)) s)
  := by
  have hpos := hz.ready.pos_eq
  have hdone : s.out.take s.done = s.out := by
    rw [hz.done_eq, take_length]
  rw [readHdr_eq (by omega) (by decide)] at hnext
  rw [Zstd.skipFrame]
  by_cases height : src.length < 8
  · rw [if_pos height]
    have hshort : (src.drop 4).length < 4 := by
      rw [length_drop]
      omega
    obtain ⟨b', hread⟩ := hz₁.unexpected_short hshort
    rw [bind_error hread] at hnext
    exact Follows.fail hpos hnext hpos hdone
  rw [if_neg height]
  have hlong : 4 ≤ (src.drop 4).length := by
    rw [length_drop]
    omega
  obtain ⟨b', hread, hz₂⟩ := hz₁.readFull hlong
  rw [drop_drop] at hz₂
  obtain ⟨size, hsize⟩ : ∃ size, (leAt 4 src 4 : Go Err ℕ) = .ok size :=
    ⟨_, leAt_of_nonneg (by omega) (by omega)⟩
  have hword : (leAt 4 ((src.drop 4).take 4) 0 : Go Err ℕ) = leAt 4 src 4 := by
    rw [leAt, leAt, if_pos ⟨by omega, by rw [length_take]; omega⟩, if_pos ⟨by omega, by omega⟩]
    simp [take_take]
  rw [bind_ok (unexpected_ok hread), hword, hsize, bind_ok (decode_ok _ _)] at hnext
  rw [hsize, ok_bind]
  by_cases hend : src.length - 8 < size
  · rw [if_pos hend]
    obtain ⟨b₃, hskip⟩ := hz₂.skipLoop (Nat.lt_succ_self size)
    rw [if_neg (by rw [length_drop]; omega)] at hskip
    exact Follows.fail hpos (hnext.trans hskip) hpos hdone
  rw [if_neg hend, slice_eq_ok (by omega) le_rfl, take_length]
  obtain ⟨b₃, hskip⟩ := hz₂.skipLoop (Nat.lt_succ_self size)
  rw [if_pos (by rw [length_drop]; omega)] at hskip
  obtain ⟨hskip, hz₃⟩ := hskip
  rw [drop_drop, show 4 + 4 + size = 8 + size by omega] at hz₃
  have hlt : (src.drop (8 + size)).length < src.length := by
    rw [length_drop]
    omega
  have hsteps : (((z.setInput b).setInput b').setInput b₃).steps < z.steps := by
    rw [hz₃.steps_eq, hz.ready.steps_eq]
    change 2 * _ + (if z.state = .readFrameEnd then 1 else 0) < _
    omega
  apply Follows.step (hz.ready.step hz₃ (hnext.trans hskip) rfl hsteps) (append_nil _).symm
  exact Follows.ok ⟨⟨hz₃, hz.state_eq, hz.maxWindow_eq, hz.done_eq, hz.maxOutput_eq⟩, hlt⟩

/-- Whole inputs: where `DecodeAll` returns, the stream comes to the end of its input between
two frames. -/
theorem AtFrame.frameLoop (hz : z.AtFrame src s) (reload : Bool) (origin : ℕ)
    (hfuel : src.length < fuel) :
  Follows reload (fun _ z' s' => Ends reload z' [] .eof ∧ s'.done = s'.out.length) z s
    (frameLoop reload origin fuel src s)
  := by
  induction fuel generalizing z src s with
  | zero => omega
  | succ fuel ih =>
    have hpos := hz.ready.pos_eq
    have hdone : s.out.take s.done = s.out := by
      rw [hz.done_eq, take_length]
    have hnext := next_readFrame reload hz.state_eq
    rw [readFrameHeader, readHdr_eq (by omega) (by decide)] at hnext
    rw [Zstd.frameLoop]
    by_cases hnil : src = []
    · rw [if_pos hnil]
      obtain ⟨b, hread⟩ := hz.ready.readFull_short (show src.length < 4 by simp [hnil])
      rw [bind_error hread, if_pos hnil] at hnext
      exact Follows.ok ⟨Ends.fail hpos hnext hpos, hz.done_eq⟩
    rw [if_neg hnil]
    by_cases hfour : src.length < 4
    · rw [if_pos hfour]
      obtain ⟨b, hread⟩ := hz.ready.readFull_short hfour
      rw [bind_error hread, if_neg hnil] at hnext
      exact Follows.fail hpos hnext hpos hdone
    rw [if_neg hfour]
    obtain ⟨b, hread, hz₁⟩ := hz.ready.readFull (show 4 ≤ src.length by omega)
    have hmagic : (leAt 4 (src.take 4) 0 : Go Err ℕ) = leAt 4 src 0 :=
      leAt_take le_rfl (by omega)
    obtain ⟨magic, hval⟩ : ∃ magic, (leAt 4 src 0 : Go Err ℕ) = .ok magic :=
      ⟨_, leAt_of_nonneg le_rfl (by omega)⟩
    rw [bind_ok hread, hmagic, hval, bind_ok (decode_ok _ _)] at hnext
    rw [hval, bind_ok (call_ok _ s)]
    have hlen₁ : (src.drop 4).length < src.length := by
      rw [length_drop]
      omega
    by_cases hskip : magic &&& skippableMagicMask = skippableMagic
    · rw [if_pos hskip] at hnext ⊢
      apply Follows.bind (hz.skipFrame reload hz₁ hnext)
      rintro rest z' s' ⟨hz', hrest⟩
      exact ih hz' (by omega)
    rw [if_neg hskip] at hnext ⊢
    by_cases hbad : magic ≠ frameMagic
    · rw [if_pos hbad] at hnext ⊢
      exact Follows.fail hpos hnext hpos hdone
    rw [if_neg hbad] at hnext ⊢
    apply Follows.bind (hz.decodeFrame reload _ hlen₁ hz₁ rfl hnext)
    rintro rest z' s' ⟨hz', hrest⟩
    exact ih hz' (by omega)

end Stream

/-! ### Streaming is decoding at once -/

/-- A `Reader` that has been `Reset` stands before the first frame, as `DecodeAll` does. -/
theorem reset_atFrame (z : Reader) (src : Source) (hw : z.stream.d.maxWindow = s.d.maxWindow)
    (hdone : s.done = s.out.length) (hmax : s.d.maxOutput = 0) :
  (z.reset (some src)).stream.AtFrame src.bytes s
  := by
  refine ⟨⟨⟨_, rfl, ?_, ?_⟩, rfl, Nat.zero_le _⟩, rfl, hw, hdone, hmax⟩
  · exact ⟨show 0 < readBufferSize by decide, .inl rfl⟩
  · exact Bufio.pending_newReaderSize src readBufferSize

/-- The call has added `c` in completed blocks, and a stream that follows it ends with `e`. -/
def DecodeResult.Tells (dst c : List UInt8) (e : ReaderErr) : DecodeResult → Prop
  | .ok _ s => s.out = dst ++ c ∧ e = .eof
  | .error (.fail e') s => s.out.take s.done = dst ++ c ∧ e = .decode e'
  | .error _ _ => False

theorem DecodeResult.Tells.unique {r : DecodeResult} {dst c' : List UInt8} {e' : ReaderErr}
    (h : r.Tells dst c e) (h' : r.Tells dst c' e') :
  c' = c ∧ e' = e
  := by
  cases r with
  | ok _ s => exact ⟨append_cancel_left (h'.1.symm.trans h.1), h'.2.trans h.2.symm⟩
  | error f s =>
    cases f with
    | fail _ => exact ⟨append_cancel_left (h'.1.symm.trans h.1), h'.2.trans h.2.symm⟩
    | _ => exact h.elim

/-- Whatever a `Reader` went through before a `Reset`, after it the `Reader` delivers what
`DecodeAll` makes of the new input without an output limit, as far as its own limit allows. -/
theorem reset_delivers (reload : Bool) (z : Reader) (src : Source) {d : Decoder}
    (hw : z.stream.d.maxWindow = d.maxWindow) (hmax : d.maxOutput = 0) (dst : List UInt8) :
  ∃ c e, (∀ bufs, (z.reset (some src)).Delivers reload bufs
      (c.take ((z.reset (some src)).budget c.length))
      (if (z.reset (some src)).budget c.length < c.length then .decode .outputTooLarge else e))
    ∧ (d.decodeAll reload dst src.bytes).Tells dst c e
  := by
  have hfollow := (reset_atFrame z src (s := ⟨d, dst, dst.length⟩) hw rfl hmax).frameLoop reload
    dst.length (Nat.lt_succ_self src.bytes.length)
  have hlive : ∀ {c e}, Stream.Ends reload (z.reset (some src)).stream c e →
      (z.reset (some src)).Live reload c e :=
    fun hends => ⟨rfl, rfl, Nat.zero_le _, _, hends, rfl⟩
  rw [Decoder.decodeAll]
  generalize frameLoop reload dst.length (src.bytes.length + 1) src.bytes ⟨d, dst, dst.length⟩ = r
    at hfollow
  cases r with
  | ok _ s =>
    obtain ⟨c, z', hout, ⟨hend, -⟩, hends⟩ := Stream.Follows.ok_iff.mp hfollow
    have hall := hends [] .eof hend
    rw [append_nil] at hall
    exact ⟨c, .eof, (hlive hall).delivers, hout, rfl⟩
  | error f s =>
    cases f with
    | fail e =>
      obtain ⟨c, hout, hall⟩ := Stream.Follows.fail_iff.mp hfollow
      exact ⟨c, .decode e, (hlive hall).delivers, hout, rfl⟩
    | _ => exact hfollow.elim

theorem Reader.budget_unlimited {z : Reader} (h : z.stream.d.maxOutput = 0) (k : ℕ) :
  z.budget k = k
  := by
  rw [budget, if_neg (by omega)]

/-- Without an output limit, a new `Reader` delivers what `DecodeAll` returns and then reports
the end; if `DecodeAll` fails, the `Reader` delivers the content of the blocks that were
completed before that, and then fails with the same error.  The input may arrive in any pieces
and be asked for in buffers of any sizes, and the decoder and the output of `DecodeAll` may hold
anything.  An option that one of them refuses is refused by the other. -/
theorem newReader_delivers (reload : Bool) (src : Source) (options : List (Option DecoderOption))
    (hlimit : (resolveDecoderOptions options).maxOutput = 0) (bufs : ℕ → ℕ+) (d : Decoder)
    (dst : List UInt8) :
  match newReader (some src) options, decodeAll reload d dst src.bytes options with
  | .error e, r => r = .error (.fail e) ⟨d, dst, dst.length⟩
  | .ok z, .ok _ s => ∃ c, s.out = dst ++ c ∧ z.Delivers reload bufs c .eof
  | .ok z, .error (.fail e) s =>
    ∃ c, s.out.take s.done = dst ++ c ∧ z.Delivers reload bufs c (.decode e)
  | .ok _, .error _ _ => False
  := by
  rw [newReader, decodeAll]
  cases herr : (resolveDecoderOptions options).err with
  | some e => rfl
  | none =>
    obtain ⟨c, e, hdel, hdec⟩ := reset_delivers reload
      (Reader.new.configure (resolveDecoderOptions options)) src
      (d := d.configure (resolveDecoderOptions options)) rfl hlimit dst
    have hdel := hdel bufs
    rw [Reader.budget_unlimited hlimit, take_length, if_neg (lt_irrefl _)] at hdel
    cases hr : (d.configure (resolveDecoderOptions options)).decodeAll reload dst src.bytes with
    | ok _ s =>
      rw [hr] at hdec
      obtain ⟨hout, rfl⟩ := hdec
      exact ⟨c, hout, hdel⟩
    | error f s =>
      rw [hr] at hdec
      cases f with
      | fail e' =>
        obtain ⟨hout, rfl⟩ := hdec
        exact ⟨c, hout, hdel⟩
      | _ => exact hdec.elim

/-- A frame of one raw block. -/
def rawFrame : List UInt8 := [0x28, 0xb5, 0x2f, 0xfd, 0x20, 2, 0x11, 0, 0, 65, 66]

def rawSource : Source := ⟨[rawFrame], by simp [rawFrame], true⟩

/-- The frame arrives in three pieces and is read byte by byte. -/
theorem newReader_delivers_raw :
  ((Reader.new.configure (resolveDecoderOptions [some (.withMaxWindow 1024)])).reset
    (some ⟨[[0x28, 0xb5], [0x2f, 0xfd, 0x20, 2], [0x11, 0, 0, 65, 66]], by simp, true⟩)).Delivers
      true (fun _ => 1) [65, 66] .eof
  := by
  obtain ⟨s, hdec, hout⟩ := DecodeResult.exists_ok (r := decodeAll true Decoder.new [] rawFrame
    [some (.withMaxWindow 1024)]) (l := [65, 66]) (by decide +kernel)
  have h := newReader_delivers true
    ⟨[[0x28, 0xb5], [0x2f, 0xfd, 0x20, 2], [0x11, 0, 0, 65, 66]], by simp, true⟩
    [some (.withMaxWindow 1024)] rfl (fun _ => 1) Decoder.new []
  rw [show Source.bytes _ = rawFrame from rfl, hdec] at h
  obtain ⟨c, hc, hdel⟩ := h
  rw [hout] at hc
  subst hc
  exact hdel

end Zstd
