import TinyGoDriver.Go.Relational
import TinyGoDriver.Zstd.BackReader

/-!
# The content checksum

XXH64 with seed 0, fed a block at a time: `mem` buffers what does not fill a stripe of 32
bytes yet.  The bytes of `mem` past the first `n` are what earlier stripes left, and
`Xxh64.Agree` relates digests that differ in nothing else.

`Xxh64.Took` says what has become of the bytes a digest took in: the whole stripes went into the
accumulators, and the rest is buffered.  A write keeps it (`write_took`), whatever came before, so
that the digest does not depend on how the bytes were cut into writes (`writes_sum64`).
-/

namespace Zstd

open GoRt
open List hiding Vector

def xxPrime1 : UInt64 := 0x9e3779b185ebca87
def xxPrime2 : UInt64 := 0xc2b2ae3d27d4eb4f
def xxPrime3 : UInt64 := 0x165667b19e3779f9
def xxPrime4 : UInt64 := 0x85ebca77c2b2ae63
def xxPrime5 : UInt64 := 0x27d4eb2f165667c5

/-- A running digest. -/
structure Xxh64 where
  v : UInt64 × UInt64 × UInt64 × UInt64
  total : UInt64
  mem : Vector UInt8 32
  n : ℕ
  deriving DecidableEq, Repr

/-- `bits.RotateLeft64`. -/
def rotateLeft64 (x k : UInt64) : UInt64 := x <<< k ||| x >>> (64 - k)

def xxRound (acc input : UInt64) : UInt64 :=
  rotateLeft64 (acc + input * xxPrime2) 31 * xxPrime1

/-- The word of `w` bytes of `p` at `i`, as a lane. -/
def lane (w : ℕ) (p : List UInt8) (i : ℕ) : Go Err UInt64 := do
  let x ← leAt w p i
  .ok (UInt64.ofNat x)

namespace Xxh64

def reset (x : Xxh64) : Xxh64 :=
  { x with v := (0x60ea27eeadc0b5d6, xxPrime2, 0, 0x61c8864e7a143579), total := 0, n := 0 }

/-- `stripes`, over the first `k` stripes of `p`: one lane for each accumulator. -/
def stripes : ℕ → UInt64 × UInt64 × UInt64 × UInt64 → List UInt8 →
    Go Err (UInt64 × UInt64 × UInt64 × UInt64)
  | 0, v, _ => .ok v
  | k + 1, (v₀, v₁, v₂, v₃), p => do
    let l₀ ← lane 8 p 0
    let l₁ ← lane 8 p 8
    let l₂ ← lane 8 p 16
    let l₃ ← lane 8 p 24
    stripes k (xxRound v₀ l₀, xxRound v₁ l₁, xxRound v₂ l₂, xxRound v₃ l₃) (p.drop 32)

/-- The part of `write` with nothing buffered: whole stripes, then the rest into `mem`. -/
def writeWhole (x : Xxh64) (p : List UInt8) : Go Err Xxh64 := do
  let whole := p.length / 32 * 32
  let v ← stripes (p.length / 32) x.v (p.take whole)
  let mem ← writeFrom x.mem 0 (p.drop whole)
  .ok { x with v := v, mem := mem, n := p.length - whole }

def write (x : Xxh64) (p : List UInt8) : Go Err Xxh64 :=
  let x := { x with total := x.total + UInt64.ofNat p.length }
  if 0 < x.n then do
    let room ← slice x.mem.toList x.n 32
    let c := min room.length p.length
    let mem ← writeFrom x.mem x.n (p.take c)
    if x.n + c < 32 then
      .ok { x with mem := mem, n := x.n + c }
    else do
      let v ← stripes 1 x.v mem.toList
      writeWhole { x with v := v, mem := mem, n := 0 } (p.drop c)
  else
    writeWhole x p

/-- The loop of `sum64` over eight-byte words. -/
def sumWords : ℕ → UInt64 → List UInt8 → Go Err UInt64
  | 0, h, _ => .ok h
  | k + 1, h, p => do
    let l ← lane 8 p 0
    sumWords k (rotateLeft64 (h ^^^ xxRound 0 l) 27 * xxPrime1 + xxPrime4) (p.drop 8)

/-- The loop of `sum64` over single bytes. -/
def sumBytes (h : UInt64) (p : List UInt8) : UInt64 :=
  p.foldl (fun h b => rotateLeft64 (h ^^^ b.toUInt64 * xxPrime5) 11 * xxPrime1) h

/-- The four-byte word of `sum64`, if there is one, and the bytes after it. -/
def sumHalf (h : UInt64) (p : List UInt8) : Go Err UInt64 :=
  if 4 ≤ p.length then do
    let l ← lane 4 p 0
    .ok (sumBytes (rotateLeft64 (h ^^^ l * xxPrime1) 23 * xxPrime2 + xxPrime3) (p.drop 4))
  else
    .ok (sumBytes h p)

/-- The start of `sum64`: the accumulators of all stripes, merged. -/
def merge (x : Xxh64) : UInt64 :=
  if 32 ≤ x.total then
    let (v₀, v₁, v₂, v₃) := x.v
    let h := rotateLeft64 v₀ 1 + rotateLeft64 v₁ 7 + rotateLeft64 v₂ 12 + rotateLeft64 v₃ 18
    [v₀, v₁, v₂, v₃].foldl (fun h lane => (h ^^^ xxRound 0 lane) * xxPrime1 + xxPrime4) h
  else
    xxPrime5

def sum64 (x : Xxh64) : Go Err UInt64 := do
  let p ← slice x.mem.toList 0 x.n
  let h ← sumWords (p.length / 8) (x.merge + x.total) p
  let h ← sumHalf h (p.drop (p.length / 8 * 8))
  let h := (h ^^^ h >>> 33) * xxPrime2
  let h := (h ^^^ h >>> 29) * xxPrime3
  .ok (h ^^^ h >>> 32)

/-! ### What the digest depends on -/

/-- Digests that differ at most in bytes of `mem` that are not in use. -/
structure Agree (x y : Xxh64) : Prop where
  v_eq : x.v = y.v
  total_eq : x.total = y.total
  n_eq : x.n = y.n
  n_lt : x.n < 32
  mem_eq : x.mem.toList.take x.n = y.mem.toList.take y.n

theorem reset_agree (x y : Xxh64) :
  x.reset.Agree y.reset
  := ⟨rfl, rfl, rfl, by simp [reset], by simp [reset]⟩

/-- The bytes of `mem` in use. -/
def buffered (x : Xxh64) : List UInt8 := x.mem.toList.take x.n

/-- From the accumulators `v` on, the bytes `data` have been taken in. -/
@[mk_iff]
structure Took (v : UInt64 × UInt64 × UInt64 × UInt64) (data : List UInt8) (y : Xxh64) : Prop where
  v_eq : stripes (data.length / 32) v data = .ok y.v
  n_eq : y.n = data.length % 32
  buffered_eq : y.buffered = data.drop (data.length / 32 * 32)

variable {p q data : List UInt8} {x y z : Xxh64} {v : UInt64 × UInt64 × UInt64 × UInt64} {k w i : ℕ}

theorem length_buffered (h : x.n < 32) :
  x.buffered.length = x.n
  := by
  rw [buffered, length_take, Vector.length_toList]
  omega

theorem lane_of_le (h : i + w ≤ p.length) :
  lane w p i = .ok (UInt64.ofNat (leNat p / 2 ^ (8 * i) % 2 ^ (8 * w)))
  := by
  rw [lane, leAt_of_le h, ok_bind]

theorem lane_append (h : i + w ≤ p.length) (q : List UInt8) :
  lane w (p ++ q) i = lane w p i
  := by
  rw [lane, ← leAt_take h (by simp), take_left, lane]

/-- Whole stripes change the accumulators in one way, whatever follows them. -/
theorem exists_stripes (hp : p.length = k * 32) (v : UInt64 × UInt64 × UInt64 × UInt64) :
  ∃ v', ∀ j q, stripes (k + j) v (p ++ q) = stripes j v' q
  := by
  induction k generalizing p v with
  | zero =>
    obtain rfl := length_eq_zero_iff.mp hp
    exact ⟨v, fun j q => by rw [Nat.zero_add, nil_append]⟩
  | succ k ih =>
    simp (disch := omega) only [Nat.add_right_comm k 1, stripes, lane_append, lane_of_le, ok_bind,
      drop_append_of_le_length]
    exact ih (by rw [length_drop]; omega) _

theorem exists_took_iff (hp : p.length = k * 32) (v : UInt64 × UInt64 × UInt64 × UInt64) :
  ∃ v', stripes k v p = .ok v' ∧ ∀ {data y}, Took v (p ++ data) y ↔ Took v' data y
  := by
  obtain ⟨v', hv'⟩ := exists_stripes hp v
  refine ⟨v', ?_, fun {data y} => ?_⟩
  · have hend := hv' 0 []
    rwa [Nat.add_zero, append_nil] at hend
  have hdiv : (p ++ data).length / 32 = k + data.length / 32 := by
    rw [length_append]
    omega
  have hmod : (p ++ data).length % 32 = data.length % 32 := by
    rw [length_append]
    omega
  rw [took_iff, took_iff, hdiv, hmod, hv', Nat.add_mul, ← hp, drop_length_add_append]

theorem took_iff_of_lt (h : data.length < 32) :
  Took v data y ↔ v = y.v ∧ y.n = data.length ∧ y.buffered = data
  := by
  rw [took_iff, Nat.div_eq_of_lt h, Nat.mod_eq_of_lt h, stripes, Except.ok.injEq, Nat.zero_mul,
    drop_zero]

/-- A digest that takes in no bytes. -/
theorem Took.refl (h : x.n < 32) :
  Took x.v x.buffered x
  := by
  have hlen := length_buffered h
  exact (took_iff_of_lt (by omega)).mpr ⟨rfl, hlen.symm, rfl⟩

/-- What is written later comes after what was taken in before. -/
theorem Took.trans (hy : Took v data y) (hz : Took y.v (y.buffered ++ q) z) :
  Took v (data ++ q) z
  := by
  have hlen : (data.take (data.length / 32 * 32)).length = data.length / 32 * 32 := by
    rw [length_take]
    omega
  have hlt : y.buffered.length < 32 := by
    rw [hy.buffered_eq, length_drop]
    omega
  obtain ⟨v', -, htook⟩ := exists_took_iff hlen v
  have hsplit := take_append_drop (data.length / 32 * 32) data
  rw [← hy.buffered_eq] at hsplit
  rw [← hsplit, htook, took_iff_of_lt hlt] at hy
  rwa [← hsplit, append_assoc, htook, hy.1]

/-- What a digest is, up to bytes that are not in use, follows from what it has taken in. -/
theorem Took.agree (hy : Took v data y) (hz : Took v data z) (htotal : y.total = z.total) :
  y.Agree z
  := by
  refine ⟨?_, htotal, hy.n_eq.trans hz.n_eq.symm, ?_, hy.buffered_eq.trans hz.buffered_eq.symm⟩
  · exact Except.ok.inj (hy.v_eq.symm.trans hz.v_eq)
  · rw [hy.n_eq]
    exact Nat.mod_lt _ (by decide)

theorem writeWhole_took (x : Xxh64) (p : List UInt8) :
  ∃ y, x.writeWhole p = .ok y ∧ y.total = x.total ∧ Took x.v p y
  := by
  have hwhole : (p.take (p.length / 32 * 32)).length = p.length / 32 * 32 := by
    rw [length_take]
    omega
  have hrest : (p.drop (p.length / 32 * 32)).length = p.length - p.length / 32 * 32 :=
    length_drop
  obtain ⟨v', hstripes, htook⟩ := exists_took_iff hwhole x.v
  specialize @htook (p.drop (p.length / 32 * 32))
  rw [take_append_drop] at htook
  obtain ⟨mem, hmem, hlist⟩ := writeFrom_eq x.mem
    (show 0 + (p.drop (p.length / 32 * 32)).length ≤ 32 by omega)
  rw [writeWhole, hstripes, ok_bind, hmem, ok_bind]
  refine ⟨_, rfl, rfl, htook.mpr ((took_iff_of_lt (by omega)).mpr ⟨rfl, hrest.symm, ?_⟩)⟩
  rw [buffered, hlist, take_zero, nil_append, take_left' hrest]

/-- A write takes in the bytes after those that are buffered. -/
theorem write_took (hn : x.n < 32) (p : List UInt8) :
  ∃ y, x.write p = .ok y ∧ y.total = x.total + UInt64.ofNat p.length
    ∧ Took x.v (x.buffered ++ p) y
  := by
  have hbuf := length_buffered hn
  rw [write]
  dsimp only
  split
  · obtain ⟨c, hc⟩ : ∃ c, min (32 - x.n) p.length = c := ⟨_, rfl⟩
    have hclen : (p.take c).length = c := by
      rw [length_take]
      omega
    obtain ⟨mem, hmem, hlist⟩ := writeFrom_eq x.mem (show x.n + (p.take c).length ≤ 32 by omega)
    have hroom : (slice x.mem.toList x.n 32 : Go Err _)
        = .ok ((x.mem.toList.take 32).drop x.n) := by
      rw [slice_of_le (by omega) (by omega) (by simp)]
      simp
    have htake : mem.toList.take (x.n + c) = x.buffered ++ p.take c := by
      rw [hlist, ← append_assoc]
      exact take_left' (by rw [length_append, hclen]; exact congrArg (· + c) hbuf)
    rw [hroom, ok_bind, length_drop, length_take, Vector.length_toList, Nat.min_self, hc,
      hmem, ok_bind]
    split
    · obtain rfl : c = p.length := by omega
      rw [take_length] at htake
      refine ⟨_, rfl, rfl, (took_iff_of_lt ?_).mpr ⟨rfl, ?_, htake⟩⟩
      · rw [length_append]
        omega
      · rw [length_append, hbuf]
    -- the buffer is full
    rw [take_of_length_le (by simp; omega)] at htake
    obtain ⟨v', hstripes, htook⟩ :=
      exists_took_iff (show mem.toList.length = 1 * 32 by simp) x.v
    obtain ⟨y, hy, htotal, htook'⟩ := writeWhole_took
      { x with v := v', total := x.total + UInt64.ofNat p.length, mem := mem, n := 0 } (p.drop c)
    refine ⟨y, by rw [hstripes, ok_bind, hy], htotal, ?_⟩
    rwa [← htook, htake, append_assoc, take_append_drop] at htook'
  · obtain ⟨y, hy, htotal, htook⟩ := writeWhole_took
      { x with total := x.total + UInt64.ofNat p.length } p
    refine ⟨y, hy, htotal, ?_⟩
    rwa [length_eq_zero_iff.mp (show x.buffered.length = 0 by omega)]

/-- Digests that agree take in the same bytes alike. -/
theorem write_same (h : x.Agree y) (p : List UInt8) :
  Same Agree (x.write p) (y.write p)
  := by
  obtain ⟨x', hx, hxtotal, hxtook⟩ := write_took h.n_lt p
  obtain ⟨y', hy, hytotal, hytook⟩ := write_took (h.n_eq ▸ h.n_lt) p
  have hbuf : x.buffered = y.buffered := h.mem_eq
  rw [h.v_eq, hbuf] at hxtook
  rw [hx, hy]
  exact hxtook.agree hytook (by rw [hxtotal, hytotal, h.total_eq])

theorem exists_sumWords (h : k * 8 ≤ p.length) (acc : UInt64) :
  ∃ acc', sumWords k acc p = .ok acc'
  := by
  induction k generalizing p acc with
  | zero => exact ⟨acc, rfl⟩
  | succ k ih =>
    rw [sumWords, lane_of_le (by omega), ok_bind]
    exact ih (by rw [length_drop]; omega) _

theorem exists_sumHalf (acc : UInt64) (p : List UInt8) :
  ∃ acc', sumHalf acc p = .ok acc'
  := by
  rw [sumHalf]
  split
  · rw [lane_of_le (by omega), ok_bind]
    exact ⟨_, rfl⟩
  · exact ⟨_, rfl⟩

/-- Digests that agree have one sum. -/
theorem exists_sum64 (h : x.Agree y) :
  ∃ digest, x.sum64 = .ok digest ∧ y.sum64 = .ok digest
  := by
  obtain ⟨hv, htotal, hn, hlt, hmem⟩ := h
  have hmerge : x.merge = y.merge := by rw [merge, merge, hv, htotal]
  rw [sum64, sum64, slice_of_le le_rfl (by omega) (by simp; omega),
    slice_of_le le_rfl (by omega) (by simp; omega)]
  simp only [Int.toNat_natCast, Int.toNat_zero, drop_zero, ok_bind, hmem, hmerge, htotal]
  obtain ⟨acc, hacc⟩ := exists_sumWords (Nat.div_mul_le_self (y.mem.toList.take y.n).length 8)
    (y.merge + y.total)
  obtain ⟨acc', hacc'⟩ := exists_sumHalf acc
    ((y.mem.toList.take y.n).drop ((y.mem.toList.take y.n).length / 8 * 8))
  rw [hacc, ok_bind, hacc', ok_bind]
  exact ⟨_, rfl, rfl⟩

/-- A run of writes takes in all the bytes. -/
theorem writes_took (hn : x.n < 32) (chunks : List (List UInt8)) :
  ∃ y, chunks.foldlM write x = .ok y ∧ y.total = x.total + UInt64.ofNat chunks.flatten.length
    ∧ Took x.v (x.buffered ++ chunks.flatten) y
  := by
  induction chunks generalizing x with
  | nil =>
    refine ⟨x, rfl, (UInt64.add_zero _).symm, ?_⟩
    rw [flatten_nil, append_nil]
    exact .refl hn
  | cons p chunks ih =>
    obtain ⟨y, hy, hytotal, hytook⟩ := write_took hn p
    obtain ⟨z, hz, hztotal, hztook⟩ := ih (hytook.n_eq ▸ Nat.mod_lt _ (by decide))
    refine ⟨z, ?_, ?_, ?_⟩
    · rw [foldlM_cons, hy, ok_bind, hz]
    · rw [hztotal, hytotal, flatten_cons, length_append, UInt64.ofNat_add, UInt64.add_assoc]
    · rw [flatten_cons, ← append_assoc]
      exact hytook.trans hztook

/-- The digest of bytes that come in any chunks is that of the same bytes in one. -/
theorem writes_sum64 (x y : Xxh64) (chunks : List (List UInt8)) :
  ∃ digest, chunks.foldlM write x.reset >>= sum64 = .ok digest
    ∧ y.reset.write chunks.flatten >>= sum64 = .ok digest
  := by
  obtain ⟨x', hx, hxtotal, hxtook⟩ := writes_took (reset_agree x y).n_lt chunks
  obtain ⟨y', hy, hytotal, hytook⟩ := write_took (reset_agree y x).n_lt chunks.flatten
  rw [hx, hy, ok_bind, ok_bind]
  exact exists_sum64 (hxtook.agree hytook (hxtotal.trans hytotal.symm))

end Xxh64

end Zstd
