import TinyGoDriver.Lib.BitStack
import TinyGoDriver.Zstd.BackReader

/-!
# Writing the backward bit stream

`BitWriter` collects bits, the lowest first, and emits whole bytes.  What it has written is a stack
of fields (`BitWriter.Wrote`): the bytes and the container together are the number of the stack.
`close` sets one more bit above it, and a `BackReader` opened on these bytes stands on the whole
stack (`BackReader.Stands`) and pops its fields.
-/

namespace Zstd

open GoRt BitStack List

structure BitWriter where
  container : ℕ
  nBits : ℕ
  out : List UInt8
  deriving DecidableEq, Repr

variable {N v n : ℕ} {S : List (ℕ × ℕ)}

namespace BitWriter

/-- `bitWriter{out: dst}` -/
def new (dst : List UInt8) : BitWriter := ⟨0, 0, dst⟩

/-- Appends the low `n` bits of `v`, as an unsigned integer of at least `n` bits. -/
def put (b : BitWriter) (v n : ℕ) : BitWriter :=
  if n = 0 then b
  else
    { b with
      container := b.container ||| (v &&& (2 ^ n - 1)) <<< (b.nBits &&& 63) % 2 ^ 64
      nBits := (b.nBits + n) % 2 ^ 8 }

def addBits (b : BitWriter) (v n : ℕ) : BitWriter := b.put v n

def flush32 (b : BitWriter) : BitWriter :=
  if b.nBits < 32 then b
  else ⟨b.container >>> 32, b.nBits - 32, b.out ++ leBytes 4 b.container⟩

/-- `close`: the bytes with the end marker. -/
def close (b : BitWriter) : List UInt8 :=
  let b := b.addBits 1 1
  b.out ++ leBytes ((b.nBits + 7) % 2 ^ 8 / 8) b.container

/-- After `dst`, the writer has written a stack of `T` bits with the number `N`. -/
structure Wrote (b : BitWriter) (dst : List UInt8) (N T : ℕ) : Prop where
  container_lt : b.container < 2 ^ b.nBits
  bytes : ∃ bytes, b.out = dst ++ bytes ∧ leNat bytes + 2 ^ (8 * bytes.length) * b.container = N
    ∧ 8 * bytes.length + b.nBits = T

theorem wrote_new (dst : List UInt8) :
  (new dst).Wrote dst 0 0
  := ⟨by simp [new], [], by simp [new], by simp [new], by simp [new]⟩

variable {b : BitWriter} {dst : List UInt8} {T : ℕ}

/-- A field that fits the container goes on top of the others. -/
theorem Wrote.put (h : b.Wrote dst N T) (hroom : b.nBits + n ≤ 64) (hbits : b.nBits < 64) :
  (b.put v n).Wrote dst (N + 2 ^ T * (v % 2 ^ n)) (T + n) ∧ (b.put v n).nBits = b.nBits + n
  := by
  by_cases hn : n = 0
  · subst hn
    rw [BitWriter.put]
    simpa [Nat.mod_one] using h
  obtain ⟨hlt, bytes, hout, rfl, rfl⟩ := h
  have hmask : v &&& (2 ^ n - 1) = v % 2 ^ n := Nat.and_two_pow_sub_one_eq_mod v n
  have hshift : b.nBits &&& 63 = b.nBits := by
    rw [show (63 : ℕ) = 2 ^ 6 - 1 from rfl, Nat.and_two_pow_sub_one_eq_mod, Nat.mod_eq_of_lt hbits]
  have hv : v % 2 ^ n < 2 ^ n := Nat.mod_lt _ (by positivity)
  have hpow : 2 ^ n * 2 ^ b.nBits ≤ 2 ^ 64 := by
    rw [← pow_add]
    exact Nat.pow_le_pow_right (by omega) (by omega)
  have hcont : b.container ||| (v &&& (2 ^ n - 1)) <<< (b.nBits &&& 63) % 2 ^ 64
      = b.container + 2 ^ b.nBits * (v % 2 ^ n) := by
    rw [hmask, hshift, or_shiftLeft_eq hlt (by nlinarith)]
  have hnBits : (b.put v n).nBits = b.nBits + n := by
    rw [BitWriter.put, if_neg hn]
    exact Nat.mod_eq_of_lt (by omega)
  refine ⟨⟨?_, bytes, ?_, ?_, ?_⟩, hnBits⟩
  · rw [hnBits, BitWriter.put, if_neg hn, pow_add]
    nlinarith
  · rw [BitWriter.put, if_neg hn]
    exact hout
  · rw [BitWriter.put, if_neg hn]
    simp only [hcont]
    ring
  · omega

/-- The same as a field on a stack. -/
theorem Wrote.push (h : b.Wrote dst (num S) (width S)) (v : ℕ) (hroom : b.nBits + n ≤ 64)
    (hbits : b.nBits < 64) :
  (b.put v n).Wrote dst (num ((v % 2 ^ n, n) :: S)) (width ((v % 2 ^ n, n) :: S))
    ∧ (b.put v n).nBits = b.nBits + n
  := h.put hroom hbits

theorem Wrote.flush32 (h : b.Wrote dst N T) (hroom : b.nBits ≤ 64) :
  b.flush32.Wrote dst N T ∧ b.flush32.nBits = if b.nBits < 32 then b.nBits else b.nBits - 32
  := by
  rw [BitWriter.flush32]
  split
  · exact ⟨h, rfl⟩
  refine ⟨?_, rfl⟩
  obtain ⟨hlt, bytes, hout, rfl, rfl⟩ := h
  refine ⟨?_, bytes ++ leBytes 4 b.container, ?_, ?_, ?_⟩
  · simp only [Nat.shiftRight_eq_div_pow]
    rw [Nat.div_lt_iff_lt_mul (by positivity), ← pow_add]
    rwa [Nat.sub_add_cancel (by omega)]
  · simp only [hout, append_assoc]
  · have hsplit := Nat.mod_add_div b.container (2 ^ 32)
    simp only [Nat.shiftRight_eq_div_pow]
    rw [leNat_append, leNat_leBytes, length_append, length_leBytes, mul_add]
    conv_rhs => rw [← hsplit]
    ring
  · simp only [length_append, length_leBytes]
    omega

/-- After a flush there is room for 32 bits and more. -/
theorem Wrote.flush (h : b.Wrote dst N T) (hroom : b.nBits < 64) :
  b.flush32.Wrote dst N T ∧ b.flush32.nBits ≤ 31
  := by
  obtain ⟨hw, hn⟩ := h.flush32 (Nat.le_of_lt hroom)
  refine ⟨hw, ?_⟩
  rw [hn]
  split <;> omega

theorem Wrote.close (h : b.Wrote dst N T) (hroom : b.nBits < 64) :
  ∃ bytes, b.close = dst ++ bytes ∧ leNat bytes = N + 2 ^ T ∧ bytes.length = T / 8 + 1
  := by
  obtain ⟨hmark, hnBits⟩ := h.put (n := 1) (by omega) hroom
  obtain ⟨hlt, bytes, hout, hnum, hwidth⟩ := hmark
  rw [BitWriter.close, addBits]
  generalize b.put 1 1 = b' at *
  have hlen : (b'.nBits + 7) % 2 ^ 8 / 8 = (b'.nBits + 7) / 8 := by
    rw [Nat.mod_eq_of_lt (by omega)]
  refine ⟨bytes ++ leBytes ((b'.nBits + 7) / 8) b'.container, ?_, ?_, ?_⟩
  · simp only [hlen, hout, append_assoc]
  · have hfull : b'.container % 2 ^ (8 * ((b'.nBits + 7) / 8)) = b'.container := by
      apply Nat.mod_eq_of_lt
      exact lt_of_lt_of_le hlt (Nat.pow_le_pow_right (by omega) (by omega))
    rw [leNat_append, leNat_leBytes, hfull, hnum]
    norm_num
  · simp only [length_append, length_leBytes]
    omega

end BitWriter

namespace BackReader

/-- The bits below the reader are a stack of fields. -/
structure Stands (br : BackReader) (S : List (ℕ × ℕ)) : Prop where
  ok : br.Ok
  fits : Fits S
  left_eq : br.left = width S
  num_eq : leNat br.inp % 2 ^ width S = num S

/-- A reader opened on a closed stream stands on what was written. -/
theorem init_stands (reload : Bool) {bytes : List UInt8} (hfits : Fits S)
    (hnum : leNat bytes = num S + 2 ^ width S) (hlen : bytes.length = width S / 8 + 1) :
  ∃ br, init reload bytes = .ok br ∧ br.Stands S ∧ br.Within 15 ∧ br.inp = bytes
  := by
  have hlt := num_lt hfits
  obtain ⟨front, last, rfl⟩ : ∃ front last, bytes = front ++ [last] := by
    have hne : bytes ≠ [] := by
      rintro rfl
      simp at hlen
    exact ⟨_, _, (dropLast_append_getLast hne).symm⟩
  have hfront : front.length = width S / 8 := by
    rw [length_append, length_singleton] at hlen
    omega
  -- the last byte holds the marker above the bits that are left over
  have hbyte : last.toNat = (num S + 2 ^ width S) / 2 ^ (8 * (width S / 8)) := by
    rw [← hnum, ← hfront, ← leNat_drop, drop_left, leNat_cons, leNat_nil]
    omega
  have hpow : 2 ^ width S = 2 ^ (8 * (width S / 8)) * 2 ^ (width S % 8) := by
    rw [← pow_add, Nat.div_add_mod]
  have hsize : last.toNat.size = width S % 8 + 1 := by
    apply le_antisymm
    · rw [Nat.size_le, hbyte, Nat.div_lt_iff_lt_mul (by positivity), pow_succ]
      nlinarith
    · apply Nat.lt_size.mpr
      rw [hbyte, Nat.le_div_iff_mul_le (by positivity), Nat.mul_comm]
      omega
  have hne : last ≠ 0 := by
    rintro rfl
    simp at hsize
  obtain ⟨br, hinit, hok, hwithin, hinp, hleft⟩ :=
    init_spec reload (show (front ++ [last]).getLast? = some last by simp) hne
  refine ⟨br, hinit, ⟨hok, hfits, ?_, ?_⟩, hwithin.mono (by omega), hinp⟩
  · omega
  · rw [hinp, hnum, Nat.add_mod_right, Nat.mod_eq_of_lt hlt]

variable {br : BackReader}

theorem Stands.skip (h : br.Stands ((v, n) :: S)) :
  (br.skip n).Stands S
  := by
  obtain ⟨hok, hfits, hleft, hnum⟩ := h
  refine ⟨hok.skip n, hfits.tail, ?_, (top_eq hfits hnum).2⟩
  rw [left_skip, hleft, width_cons]
  push_cast
  ring

/-- The bits read at the position of the reader are those of the top field. -/
theorem Stands.readAt_eq (h : br.Stands ((v, n) :: S)) :
  readAt (leNat br.inp) br.left n = v
  := by
  rw [readAt, h.left_eq, Int.toNat_natCast, width_cons, pow_add,
    Nat.mul_div_mul_right _ _ (by positivity)]
  exact (top_eq h.fits h.num_eq).1

theorem Stands.peek_eq (h : br.Stands ((v, n) :: S)) (hn : n ≤ 32) (hw : br.Within (64 - n)) :
  br.peek n = v
  := by
  rw [BackReader.peek_eq h.ok hn hw, h.readAt_eq]

/-- A read of more bits has the top field in its high bits. -/
theorem readAt_div {m : ℕ} (pos : ℤ) (h : n ≤ m) :
  readAt N pos m / 2 ^ (m - n) = readAt N pos n
  := by
  obtain ⟨k, rfl⟩ : ∃ k, m = k + n := ⟨m - n, by omega⟩
  rw [readAt, readAt, Nat.add_sub_cancel, pow_add, Nat.mod_mul_right_div_self,
    Nat.div_div_eq_div_mul, Nat.mul_comm (2 ^ pos.toNat), Nat.mul_left_comm N,
    Nat.mul_div_mul_left _ _ (by positivity)]

theorem Stands.fill (reload : Bool) (h : br.Stands S) (hw : br.Within 71) :
  ∃ br', br.fill reload = .ok br' ∧ br'.Stands S ∧ br'.Within 7
  := by
  obtain ⟨br', hfill, hok, hwithin, hinp, hleft⟩ := fill_spec reload h.ok hw
  refine ⟨br', hfill, ⟨hok, h.fits, ?_, ?_⟩, hwithin⟩
  · rw [hleft, h.left_eq]
  · rw [hinp, h.num_eq]

end BackReader

/-! ### Reading back what was written -/

namespace BitWriter

/-- What an encoder does with a writer. -/
inductive Use where
  | flush32
  | addBits (v n : ℕ)

def use (b : BitWriter) : Use → BitWriter
  | .flush32 => b.flush32
  | .addBits v n => b.addBits v n

/-- The stack of fields after a use. -/
def Use.push (S : List (ℕ × ℕ)) : Use → List (ℕ × ℕ)
  | .flush32 => S
  | .addBits v n => (v % 2 ^ n, n) :: S

/-- No more than 32 bits are added between two flushes; `used` of them have been already. -/
def Paced : ℕ → List Use → Prop
  | _, [] => True
  | _, .flush32 :: us => Paced 0 us
  | used, .addBits _ n :: us => used + n ≤ 32 ∧ Paced (used + n) us

theorem Wrote.uses {b : BitWriter} {dst : List UInt8} {used : ℕ} {us : List Use}
    (h : b.Wrote dst (num S) (width S)) (hfits : Fits S) (hroom : b.nBits ≤ 31 + used)
    (hused : used ≤ 32) (hpaced : Paced used us) :
  let S := us.foldl Use.push S
  (us.foldl use b).Wrote dst (num S) (width S) ∧ Fits S ∧ (us.foldl use b).nBits < 64
  := by
  induction us generalizing b S used with
  | nil => exact ⟨h, hfits, show b.nBits < 64 by omega⟩
  | cons u us ih =>
    cases u with
    | flush32 =>
      obtain ⟨hflush, hn⟩ := h.flush (by omega)
      exact ih hflush hfits hn (by omega) hpaced
    | addBits v n =>
      obtain ⟨hle, hpaced⟩ := hpaced
      obtain ⟨hput, hn⟩ := h.push v (n := n) (by omega) (by omega)
      have hv : v % 2 ^ n < 2 ^ n := Nat.mod_lt _ (by positivity)
      exact ih hput (hfits.cons hv) (show (b.put v n).nBits ≤ _ by omega) hle hpaced

end BitWriter

namespace BackReader

/-- What a decoder reads that refills its reader at some places and reads fields of some widths at
the others. -/
def reads (reload : Bool) : List (Option ℕ) → BackReader → Go Err (List ℕ × BackReader)
  | [], br => .ok ([], br)
  | none :: rs, br => do
    let br ← br.fill reload
    reads reload rs br
  | some n :: rs, br => do
    let (v, br) := br.bits n
    let (vs, br) ← reads reload rs br
    .ok (v :: vs, br)

/-- No more than 57 bits are read between two refills; `used` of them have been already. -/
def Refilled : ℕ → List (Option ℕ) → Prop
  | _, [] => True
  | _, none :: rs => Refilled 0 rs
  | used, some n :: rs => n ≤ 32 ∧ used + n ≤ 57 ∧ Refilled (used + n) rs

theorem Stands.reads (reload : Bool) {br : BackReader} {used : ℕ} {rs : List (Option ℕ)}
    (h : br.Stands S) (hw : br.Within (7 + used)) (hused : used ≤ 57) (hrs : Refilled used rs)
    (hwidths : rs.filterMap id = S.map Prod.snd) :
  ∃ br', br.reads reload rs = .ok (S.map Prod.fst, br') ∧ br'.finished = true
  := by
  induction rs generalizing br S used with
  | nil =>
    obtain rfl : S = [] := by simpa using hwidths.symm
    have hleft := h.left_eq
    refine ⟨br, rfl, ?_⟩
    rw [left, width_nil] at hleft
    rw [finished, decide_eq_true_iff]
    rcases hw with hw | hw <;> omega
  | cons r rs ih =>
    cases r with
    | none =>
      obtain ⟨br', hfill, h', hw'⟩ := h.fill reload (hw.mono (by omega))
      rw [BackReader.reads, hfill, ok_bind]
      exact ih h' hw' (by omega) hrs hwidths
    | some n =>
      obtain ⟨hn, hle, hrs⟩ := hrs
      obtain ⟨⟨v, n⟩, S, rfl, rfl, hS⟩ := map_eq_cons_iff.mp hwidths.symm
      obtain ⟨br', hread, hfin⟩ := ih h.skip ((hw.skip n).mono (by omega)) hle hrs hS.symm
      refine ⟨br', ?_, hfin⟩
      rw [BackReader.reads, bits, h.peek_eq hn (hw.mono (by omega))]
      dsimp only
      rw [hread, ok_bind, map_cons]

end BackReader

open BitWriter

/-- Whatever an encoder writes that flushes its writer after 32 bits at the latest, a decoder reads
back from the end, wherever it refills its reader. -/
theorem reads_close (reload : Bool) (dst : List UInt8) (us : List Use) (rs : List (Option ℕ))
    (hpaced : Paced 0 us) (hrefilled : BackReader.Refilled 8 rs)
    (hwidths : rs.filterMap id = (us.foldl Use.push []).map Prod.snd) :
  ∃ bytes br, (us.foldl use (new dst)).close = dst ++ bytes
    ∧ (BackReader.init reload bytes >>= BackReader.reads reload rs)
      = .ok ((us.foldl Use.push []).map Prod.fst, br)
    ∧ br.finished = true
  := by
  obtain ⟨hwrote, hfits, hroom⟩ := (wrote_new dst).uses Fits.nil (by simp [new]) (by omega) hpaced
  obtain ⟨bytes, hclose, hnum, hlen⟩ := hwrote.close hroom
  obtain ⟨br, hinit, hstands, hwithin, -⟩ := BackReader.init_stands reload hfits hnum hlen
  obtain ⟨br', hread, hfin⟩ := hstands.reads reload hwithin (by omega) hrefilled hwidths
  exact ⟨bytes, br', hclose, by rw [hinit, ok_bind, hread], hfin⟩

theorem reads_close_two :
  ∃ bytes br, (([.addBits 5 3, .flush32, .addBits 300 8] : List Use).foldl use (new [])).close
      = bytes
    ∧ (BackReader.init true bytes >>= BackReader.reads true [some 8, none, some 3])
      = .ok ([44, 5], br)
  := by
  obtain ⟨bytes, br, hclose, hread, -⟩ := reads_close true []
    [.addBits 5 3, .flush32, .addBits 300 8] [some 8, none, some 3] (by simp [Paced])
    (by simp [BackReader.Refilled]) rfl
  exact ⟨bytes, br, hclose, hread⟩

end Zstd
