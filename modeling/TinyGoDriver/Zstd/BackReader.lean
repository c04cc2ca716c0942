import TinyGoDriver.Go.Bits

/-!
# The backward bit stream

Both entropy coders of the format write a bit stream that is read from its end.
`BackReader` is the reader: `value` is a window of eight bytes of the stream, `consumed`
counts how many of its bits have been read, from the top down, and the bytes before `off`
have not been loaded yet.

Read as a little-endian number, the stream is `leNat inp`, and the reader is at the bit
`8 * off + 64 - consumed` of it.  `BackReader.Ok` is the invariant that makes this so:
the window holds the bits of the stream from `8 * off` on, and the reader has not moved
up from where it started.  `fill` moves the window and keeps the position.

`reload` is the constant `reloadBitWindow`, which is true under TinyGo and false
elsewhere.
-/

namespace Zstd

open GoRt

/-- The errors that decoding reports, and those of the options. -/
inductive Err where
  | unexpectedEOF
  | invalidMaxWindow
  | invalidMaxOutput
  | badMagic
  | corruptFrame
  | corruptBlock
  | corruptLiterals
  | corruptSequences
  | corruptTable
  | corruptBitstream
  | corruptOffset
  | contentSize
  | checksum
  | windowTooLarge
  | outputTooLarge
  | dictionaryRequired
  deriving DecidableEq, Repr

/-- A reader of a bit stream from its end. -/
structure BackReader where
  inp : List UInt8
  off : ℕ
  value : ℕ
  consumed : ℕ
  deriving DecidableEq, Repr

namespace BackReader

/-- The byte-wise loop of `fill`. -/
def fillBytes (inp : List UInt8) : ℕ → ℕ → ℕ → Go Err BackReader
  | 0, value, consumed => .ok ⟨inp, 0, value, consumed⟩
  | off + 1, value, consumed =>
    if 8 ≤ consumed then do
      let b ← idx inp off
      fillBytes inp off (value <<< 8 % 2 ^ 64 ||| b.toNat) (consumed - 8)
    else
      .ok ⟨inp, off + 1, value, consumed⟩

/-- `fill`: loads bytes until at least 56 bits are unread or the stream has no more. -/
def fill (reload : Bool) (b : BackReader) : Go Err BackReader :=
  if reload ∧ 8 ≤ b.off then do
    let off : ℤ := b.off - (b.consumed >>> 3 : ℕ)
    let value ← leAt 8 b.inp off
    .ok ⟨b.inp, off.toNat, value, b.consumed % 8⟩
  else if 32 ≤ b.consumed ∧ 4 ≤ b.off then do
    let word ← leAt 4 b.inp (b.off - 4 : ℕ)
    fillBytes b.inp (b.off - 4) (b.value <<< 32 % 2 ^ 64 ||| word) (b.consumed - 32)
  else
    fillBytes b.inp b.off b.value b.consumed

/-- `init`: a reader at the end marker, the highest set bit of the last byte. -/
def init (reload : Bool) (inp : List UInt8) : Go Err BackReader :=
  match inp.getLast? with
  | none => .error (.fail .corruptBitstream)
  | some last =>
    if last = 0 then
      .error (.fail .corruptBitstream)
    else do
      let b ← fill reload ⟨inp, inp.length, 0, 64⟩
      -- bits.LeadingZeros8(last) + 1, the marker and the padding above it
      .ok { b with consumed := b.consumed + (8 - last.toNat.size) + 1 }

/-- `b.value << b.consumed >> (64 - n)`: the next `n` bits. -/
def window (b : BackReader) (n : ℕ) : ℕ :=
  ((b.value <<< b.consumed) % 2 ^ 64) >>> (64 - n)

def peek (b : BackReader) (n : ℕ) : ℕ := b.window n % 2 ^ 32

/-- The reader after `n` more bits. -/
def skip (b : BackReader) (n : ℕ) : BackReader := { b with consumed := b.consumed + n }

/-- `bits`: the next `n` bits, and the reader after them. -/
def bits (b : BackReader) (n : ℕ) : ℕ × BackReader := (b.peek n, b.skip n)

def overread (b : BackReader) : Bool := b.off = 0 ∧ 64 < b.consumed

def finished (b : BackReader) : Bool := b.off = 0 ∧ b.consumed = 64

/-! ### The position of the reader -/

/-- The window of the reader holds the bits of the stream from `8 * off` on, and no more
bits are left to it than the stream has. -/
structure Ok (b : BackReader) : Prop where
  off_le : b.off ≤ b.inp.length
  value_eq : b.value = leNat b.inp / 2 ^ (8 * b.off) % 2 ^ 64
  left_le : 8 * b.off + 64 ≤ 8 * b.inp.length + b.consumed

/-- At most `k` bits of the window have been read, or the whole stream is loaded. -/
def Within (k : ℕ) (b : BackReader) : Prop := b.consumed ≤ k ∨ b.off = 0

variable {b : BackReader} {n : ℕ} {inp : List UInt8}

theorem Within.mono {k m : ℕ} (h : b.Within k) (hkm : k ≤ m) :
  b.Within m
  := by
  rcases h with h | h
  · left
    omega
  · right
    exact h

theorem Ok.skip (h : b.Ok) (n : ℕ) :
  (b.skip n).Ok
  := by
  obtain ⟨h₁, h₂, h₃⟩ := h
  refine ⟨h₁, h₂, ?_⟩
  simp only [BackReader.skip]
  omega

theorem Within.skip {k : ℕ} (h : b.Within k) (n : ℕ) :
  (b.skip n).Within (k + n)
  := by
  rcases h with h | h
  · left
    simp only [BackReader.skip]
    omega
  · right
    exact h

/-- Shifting a window up by `k` bytes and setting the bytes below it moves it down the
stream by `k` bytes. -/
theorem window_shift (N off : ℕ) {k : ℕ} (hk : k ≤ 8) :
  (N / 2 ^ (8 * (off + k)) % 2 ^ 64) <<< (8 * k) % 2 ^ 64 ||| N / 2 ^ (8 * off) % 2 ^ (8 * k)
    = N / 2 ^ (8 * off) % 2 ^ 64
  := by
  set A := N / 2 ^ (8 * off) with hA
  have hdiv : N / 2 ^ (8 * (off + k)) = A / 2 ^ (8 * k) := by
    rw [Nat.div_div_eq_div_mul]
    ring_nf
  rw [hdiv]
  apply Nat.eq_of_testBit_eq
  intro i
  simp only [Nat.testBit_or, Nat.testBit_mod_two_pow, Nat.testBit_shiftLeft,
    Nat.testBit_div_two_pow]
  by_cases hi : 8 * k ≤ i
  · by_cases hi' : i < 64
    · have : i - 8 * k < 64 := by omega
      simp [hi, hi', this]
    · simp [hi, hi']
  · have h₁ : i < 8 * k := by omega
    have h₂ : i < 64 := by omega
    simp [hi, h₁, h₂]

/-- The bits not read yet, counted down from the end marker; negative after an overread. -/
def left (b : BackReader) : ℤ := 8 * b.off + 64 - b.consumed

@[simp]
theorem left_skip (b : BackReader) (n : ℕ) :
  (b.skip n).left = b.left - n
  := by
  simp only [left, BackReader.skip]
  push_cast
  ring

theorem fillBytes_spec {off value consumed : ℕ} (h : Ok ⟨inp, off, value, consumed⟩) :
  ∃ b, fillBytes inp off value consumed = .ok b ∧ b.Ok ∧ b.Within 7 ∧ b.inp = inp
    ∧ b.left = (⟨inp, off, value, consumed⟩ : BackReader).left
  := by
  induction off generalizing value consumed with
  | zero => exact ⟨_, rfl, h, .inr rfl, rfl, rfl⟩
  | succ off ih =>
    obtain ⟨h₁, h₂, h₃⟩ := h
    simp only at h₁ h₂ h₃
    rw [fillBytes]
    split
    · have hlt : off < inp.length := by omega
      have hbyte : inp[off].toNat = leNat inp / 2 ^ (8 * off) % 2 ^ (8 * 1) := by
        rw [← leNat_take_drop, List.drop_eq_getElem_cons hlt, List.take_succ_cons,
          List.take_zero, leNat_cons, leNat_nil, Nat.add_zero]
      have hok : Ok ⟨inp, off, value <<< 8 % 2 ^ 64 ||| inp[off].toNat, consumed - 8⟩ := by
        refine ⟨by simp only; omega, ?_, by simp only; omega⟩
        have := window_shift (leNat inp) off (k := 1) (by omega)
        rw [← hbyte, ← h₂] at this
        exact this
      rw [idx_of_lt hlt]
      obtain ⟨b, hb, hb₁, hb₂, hb₃, hb₄⟩ := ih hok
      refine ⟨b, hb, hb₁, hb₂, hb₃, ?_⟩
      rw [hb₄]
      simp only [left]
      omega
    · exact ⟨_, rfl, ⟨h₁, h₂, h₃⟩, .inl (by simp only; omega), rfl, rfl⟩

variable (reload : Bool) {us : List Use} {last : UInt8} {used : ℕ}

/-- `fill` keeps the position and leaves at most seven bits of its window read, unless
the whole stream is loaded. -/
theorem fill_spec (h : b.Ok) (hw : b.Within 71) :
  ∃ b', fill reload b = .ok b' ∧ b'.Ok ∧ b'.Within 7 ∧ b'.inp = b.inp ∧ b'.left = b.left
  := by
  obtain ⟨inp, off, value, consumed⟩ := b
  obtain ⟨h₁, h₂, h₃⟩ := h
  simp only at h₁ h₂ h₃
  rw [fill]
  simp only
  split
  · have hcons : consumed ≤ 71 := by
      rcases hw with hw | hw
      · exact hw
      · simp only at hw
        omega
    have hq : consumed >>> 3 = consumed / 8 := Nat.shiftRight_eq_div_pow consumed 3
    have hle : consumed / 8 ≤ off := by omega
    rw [hq, ← Nat.cast_sub hle, leAt_of_le (by omega)]
    refine ⟨_, rfl, ⟨?_, ?_, ?_⟩, ?_, rfl, ?_⟩
    · simp only [Int.toNat_natCast]
      omega
    · simp
    · simp only [Int.toNat_natCast]
      omega
    · left
      simp only
      omega
    · simp only [left, Int.toNat_natCast]
      omega
  · split
    · rw [leAt_of_le (by omega)]
      obtain ⟨off, rfl⟩ : ∃ k, off = k + 4 := ⟨off - 4, by omega⟩
      have hok : Ok ⟨inp, off, value <<< 32 % 2 ^ 64 ||| leNat inp / 2 ^ (8 * off) % 2 ^ (8 * 4),
          consumed - 32⟩ := by
        refine ⟨by simp only; omega, ?_, by simp only; omega⟩
        have := window_shift (leNat inp) off (k := 4) (by omega)
        rw [← h₂] at this
        exact this
      obtain ⟨b, hb, hb₁, hb₂, hb₃, hb₄⟩ := fillBytes_spec hok
      refine ⟨b, hb, hb₁, hb₂, hb₃, ?_⟩
      rw [hb₄]
      simp only [left]
      omega
    · exact fillBytes_spec ⟨h₁, h₂, h₃⟩

/-- The reader that `init` starts from. -/
theorem ok_empty (inp : List UInt8) :
  Ok ⟨inp, inp.length, 0, 64⟩
  := by
  refine ⟨le_rfl, ?_, le_rfl⟩
  rw [Nat.div_eq_of_lt (leNat_lt inp)]
  rfl

theorem size_pos (hne : last ≠ 0) :
  0 < last.toNat.size
  := by
  rw [Nat.lt_size, Nat.one_le_iff_ne_zero]
  exact fun h => hne (UInt8.toNat_inj.mp h)

/-- A stream whose last byte is not zero has a reader at its end marker. -/
theorem init_spec (hlast : inp.getLast? = some last) (hne : last ≠ 0) :
  ∃ b, init reload inp = .ok b ∧ b.Ok ∧ b.Within (7 + (8 - last.toNat.size + 1)) ∧ b.inp = inp
    ∧ b.left = 8 * inp.length - (8 - last.toNat.size) - 1
  := by
  have hok := ok_empty inp
  have hsize : last.toNat.size ≤ 8 := Nat.size_le.mpr last.toNat_lt
  obtain ⟨b, hb, hb₁, hb₂, hb₃, hb₄⟩ := fill_spec reload hok (.inl (by simp))
  rw [init, hlast]
  simp only [if_neg hne, hb]
  refine ⟨_, rfl, ?_, ?_, hb₃, ?_⟩
  · exact hb₁.skip (8 - last.toNat.size + 1)
  · exact hb₂.skip (8 - last.toNat.size + 1)
  · simp only [left] at hb₄ ⊢
    omega

/-- `init` ends in a reader at the end of its input, or with an error. -/
theorem init_safe (inp : List UInt8) :
  Safe (init reload inp) (fun b => b.Ok ∧ b.Within 15 ∧ b.inp = inp)
  := by
  cases hlast : inp.getLast? with
  | none =>
    rw [init, hlast]
    trivial
  | some last =>
    by_cases hz : last = 0
    · rw [init, hlast]
      simp only [if_pos hz]
      trivial
    · obtain ⟨b, hb, hb₁, hb₂, hb₃, -⟩ := init_spec reload hlast hz
      have hpos := size_pos hz
      rw [hb]
      exact ⟨hb₁, hb₂.mono (by omega), hb₃⟩

theorem fill_safe (h : b.Ok) (hw : b.Within 71) :
  Safe (fill reload b) (fun b' => b'.Ok ∧ b'.Within 7)
  := by
  obtain ⟨b', hb', h₁, h₂, -⟩ := fill_spec reload h hw
  rw [hb']
  exact ⟨h₁, h₂⟩

/-! ### The bits read -/

theorem window_lt (b : BackReader) (hn : n ≤ 64) :
  b.window n < 2 ^ n
  := by
  rw [window, Nat.shiftRight_eq_div_pow, Nat.div_lt_iff_lt_mul (by positivity), ← pow_add]
  have : n + (64 - n) = 64 := by omega
  rw [this]
  apply Nat.mod_lt
  positivity

theorem peek_lt (b : BackReader) (hn : n ≤ 32) :
  b.peek n < 2 ^ n
  := lt_of_le_of_lt (Nat.mod_le _ _) (b.window_lt (by omega))

/-- The `n` bits of the stream `N` below the position `pos`, with zeros for the bits below
the start of the stream. -/
def readAt (N : ℕ) (pos : ℤ) (n : ℕ) : ℕ := N * 2 ^ n / 2 ^ pos.toNat % 2 ^ n

/-- Bits inside the window are the bits of the stream at the position of the reader. -/
theorem window_eq (h : b.Ok) (hn : n ≤ 64) (hw : b.Within (64 - n)) :
  b.window n = readAt (leNat b.inp) b.left n
  := by
  obtain ⟨inp, off, value, consumed⟩ := b
  obtain ⟨-, h₂, -⟩ := h
  simp only [Within, left] at h₂ hw ⊢
  rw [window, readAt]
  obtain ⟨p, hp⟩ : ∃ p, (8 * (off : ℤ) + 64 - consumed).toNat = p := ⟨_, rfl⟩
  rw [h₂, hp]
  apply Nat.eq_of_testBit_eq
  intro i
  simp only [Nat.testBit_shiftRight, Nat.testBit_mod_two_pow, Nat.testBit_shiftLeft,
    Nat.testBit_div_two_pow, Nat.testBit_mul_two_pow]
  by_cases hi : i < n
  · have h₁ : 64 - n + i < 64 := by omega
    by_cases hc : consumed ≤ 64 - n + i
    · have h₃ : 64 - n + i - consumed < 64 := by omega
      have h₄ : n ≤ i + p := by omega
      have h₅ : 64 - n + i - consumed + 8 * off = i + p - n := by omega
      simp [hi, h₁, hc, h₃, h₄, h₅]
    · have h₄ : ¬ n ≤ i + p := by omega
      simp [hi, h₁, hc, h₄]
  · have h₁ : ¬ 64 - n + i < 64 := by omega
    simp [hi, h₁]

theorem peek_eq (h : b.Ok) (hn : n ≤ 32) (hw : b.Within (64 - n)) :
  b.peek n = readAt (leNat b.inp) b.left n
  := by
  rw [peek, Nat.mod_eq_of_lt, window_eq h (by omega) hw]
  apply lt_of_lt_of_le (b.window_lt (by omega))
  apply Nat.pow_le_pow_right (by omega) hn

/-- After a `fill`, the stream is finished exactly when no bit is left. -/
theorem finished_iff (hw : b.Within 7) :
  b.finished = true ↔ b.left = 0
  := by
  rw [finished, decide_eq_true_iff, left]
  rcases hw with hw | hw
  · omega
  · omega

/-! ### The two ways to refill -/

/-- After a refill, a reader is determined by how many bits are left. -/
theorem Ok.ext {b' : BackReader} (h : b.Ok) (h' : b'.Ok) (hw : b.Within 7) (hw' : b'.Within 7)
    (hinp : b'.inp = b.inp) (hleft : b'.left = b.left) :
  b' = b
  := by
  have hoff : b'.off = b.off := by
    rw [left, left] at hleft
    rcases hw with hw | hw <;> rcases hw' with hw' | hw' <;> omega
  have hconsumed : b'.consumed = b.consumed := by
    rw [left, left] at hleft
    omega
  have hvalue := h'.value_eq
  rw [hinp, hoff, ← h.value_eq] at hvalue
  cases b
  cases b'
  simp_all

theorem fill_reload (h : b.Ok) (hw : b.Within 71) :
  fill reload b = fill false b
  := by
  obtain ⟨c, hc, hok, hwithin, hinp, hleft⟩ := fill_spec false h hw
  obtain ⟨c', hc', hok', hwithin', hinp', hleft'⟩ := fill_spec reload h hw
  rw [hc, hc', hok.ext hok' hwithin hwithin' (hinp'.trans hinp.symm) (hleft'.trans hleft.symm)]

/-- What a decoder does with a reader: it refills it, it reads bits, or it looks at a code in the
bits ahead and skips what the code takes. -/
inductive Use where
  | fill
  | bits (n : ℕ)
  | code (width n : ℕ)
  deriving DecidableEq, Repr

/-- How many bits a use takes. -/
def Use.taken : Use → ℕ
  | .fill => 0
  | .bits n => n
  | .code _ n => n

/-- No more than 64 bits are taken between two refills; `used` of them have been already. -/
def Paced : ℕ → List Use → Prop
  | _, [] => True
  | _, .fill :: us => Paced 0 us
  | used, u :: us => used + u.taken ≤ 64 ∧ Paced (used + u.taken) us

/-- One use, and the bits it gives. -/
def use (reload : Bool) (b : BackReader) : Use → Go Err (ℕ × BackReader)
  | .fill => do
    let b ← b.fill reload
    .ok (0, b)
  | .bits n => .ok (b.bits n)
  | .code width n => .ok (b.window width, b.skip n)

/-- What a decoder sees of a reader: after each use, the bits it gave, and whether the stream is
finished or overread. -/
def observe (reload : Bool) : List Use → BackReader → Go Err (List (ℕ × Bool × Bool))
  | [], _ => .ok []
  | u :: us, b => do
    let (v, b) ← b.use reload u
    let seen ← observe reload us b
    .ok ((v, b.finished, b.overread) :: seen)

theorem use_skip {u : Use} (hu : u ≠ .fill) (reload : Bool) (b : BackReader) :
  ∃ v, b.use reload u = .ok (v, b.skip u.taken) ∧ b.use false u = .ok (v, b.skip u.taken)
  := by
  cases u with
  | fill => exact absurd rfl hu
  | bits n | code width n => exact ⟨_, rfl, rfl⟩

theorem paced_cons {u : Use} (hu : u ≠ .fill) :
  Paced used (u :: us) ↔ used + u.taken ≤ 64 ∧ Paced (used + u.taken) us
  := by
  cases u with
  | fill => exact absurd rfl hu
  | bits n => rfl
  | code width n => rfl

/-- Nothing goes wrong, and the way to refill makes no difference. -/
theorem observe_reload (h : b.Ok) (hw : b.Within (7 + used)) (hpaced : Paced used us)
    (hused : used ≤ 64) :
  ∃ seen, observe reload us b = .ok seen ∧ observe false us b = .ok seen
  := by
  induction us generalizing b used with
  | nil => exact ⟨[], rfl, rfl⟩
  | cons u us ih =>
    by_cases hu : u = .fill
    · subst hu
      obtain ⟨c, hc, hok, hwithin, -⟩ := fill_spec false h (hw.mono (by omega))
      obtain ⟨seen, h₁, h₂⟩ := ih hok (hwithin.mono (by omega)) hpaced (by omega)
      refine ⟨(0, c.finished, c.overread) :: seen, ?_, ?_⟩
      · simp only [observe, use, fill_reload reload h (hw.mono (by omega)), hc, ok_bind, h₁]
      · simp only [observe, use, hc, ok_bind, h₂]
    obtain ⟨hle, hpaced⟩ := (paced_cons hu).mp hpaced
    obtain ⟨v, hv, hv'⟩ := use_skip hu reload b
    have hskip := (hw.skip u.taken).mono (m := 7 + (used + u.taken)) (by omega)
    obtain ⟨seen, h₁, h₂⟩ := ih (h.skip u.taken) hskip hpaced hle
    exact ⟨_, by simp only [observe, hv, ok_bind, h₁]; rfl,
      by simp only [observe, hv', ok_bind, h₂]⟩

/-- Whichever way the reader refills, a decoder that takes no more than 64 bits between refills, the
padding of the last byte included, sees the same. -/
theorem refills_agree (inp : List UInt8) (us : List Use)
    (hpaced : ∀ last ∈ inp.getLast?, Paced (8 - last.toNat.size + 1) us) :
  (init true inp = .error (.fail .corruptBitstream)
      ∧ init false inp = .error (.fail .corruptBitstream))
    ∨ ∃ seen, (init true inp >>= observe true us) = .ok seen
      ∧ (init false inp >>= observe false us) = .ok seen
  := by
  have hinit : init true inp = init false inp := by
    rw [init, init, fill_reload true (ok_empty inp) (.inl (by simp))]
  rw [hinit]
  cases hlast : inp.getLast? with
  | none =>
    left
    rw [init, hlast]
    exact ⟨rfl, rfl⟩
  | some last =>
    by_cases hz : last = 0
    · left
      rw [init, hlast]
      simp [hz]
    · obtain ⟨b, hb, hok, hwithin, -⟩ := init_spec false hlast hz
      obtain ⟨seen, h₁, h₂⟩ := observe_reload true hok hwithin (hpaced last hlast) (by omega)
      right
      rw [hb]
      exact ⟨seen, h₁, h₂⟩

/-- A stream of twenty bytes, with two refills that reload the window. -/
theorem refills_agree_two :
  let inp : List UInt8 := [11, 48, 85, 122, 159, 196, 233, 14, 51, 88, 125, 162, 199, 236, 17, 54,
    91, 128, 165, 202]
  let us : List Use := [.bits 30, .fill, .bits 24, .fill, .bits 31]
  let seen := [(626180141, false, false), (0, false, false), (10160374, false, false),
    (0, false, false), (837328726, false, false)]
  (init true inp >>= observe true us) = .ok seen ∧ (init false inp >>= observe false us) = .ok seen
  := by
  intro inp us seen
  have hreload : (init true inp >>= observe true us) = .ok seen := by decide +kernel
  rcases refills_agree inp us (by simp [inp, us, Paced, Use.taken]; omega) with h | ⟨_, h, h'⟩
  · exact absurd h.1 (by decide +kernel)
  · cases hreload.symm.trans h
    exact ⟨hreload, h'⟩

end BackReader

end Zstd
