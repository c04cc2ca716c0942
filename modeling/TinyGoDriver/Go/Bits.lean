import TinyGoDriver.Go.Basic

/-!
# Numbers in bytes

`leNat l` is the number whose little-endian bytes are `l`, and `leBytes n v` the `n` low
bytes of `v`.  Dropping bytes divides the number by a power of two and taking bytes is
its remainder, which is what lets a bit stream stored in bytes be read as one number.
Big-endian bytes (`beBytes`) are the same bytes in reverse.
-/

namespace GoRt

open List

variable {ε : Type}

/-- The number whose little-endian bytes are `l`. -/
def leNat : List UInt8 → ℕ
  | [] => 0
  | b :: l => b.toNat + 256 * leNat l

/-- The `n` low bytes of `v`, the lowest first. -/
def leBytes : ℕ → ℕ → List UInt8
  | 0, _ => []
  | n + 1, v => UInt8.ofNat v :: leBytes n (v / 256)

/-- `binary.LittleEndian.Uint16`, `Uint32` or `Uint64` of `l[i:]`, for `w` of 2, 4 or 8. -/
def leAt (w : ℕ) (l : List UInt8) (i : ℤ) : Go ε ℕ :=
  if 0 ≤ i ∧ i + w ≤ l.length then
    .ok (leNat ((l.drop i.toNat).take w))
  else
    .error .panic

/-- The `n` low bytes of `v`, the highest first. -/
def beBytes (n v : ℕ) : List UInt8 := (leBytes n v).reverse

/-- `binary.BigEndian.Uint16` or `Uint32` of `l[i:]`, for `w` of 2 or 4. -/
def beAt (w : ℕ) (l : List UInt8) (i : ℕ) : Go ε ℕ :=
  if i + w ≤ l.length then
    .ok (leNat ((l.drop i).take w).reverse)
  else
    .error .panic

@[simp]
theorem leNat_nil : leNat [] = 0 := rfl

@[simp]
theorem leNat_cons (b : UInt8) (l : List UInt8) :
  leNat (b :: l) = b.toNat + 256 * leNat l
  := rfl

theorem leNat_append (l m : List UInt8) :
  leNat (l ++ m) = leNat l + 2 ^ (8 * l.length) * leNat m
  := by
  induction l with
  | nil => simp
  | cons b l ih =>
    simp only [cons_append, leNat_cons, ih, length_cons]
    ring

variable (l : List UInt8)

theorem leNat_lt :
  leNat l < 2 ^ (8 * l.length)
  := by
  induction l with
  | nil => simp
  | cons b l ih =>
    have hb := b.toNat_lt
    have h : 2 ^ (8 * (b :: l).length) = 256 * 2 ^ (8 * l.length) := by
      simp only [length_cons]
      ring
    rw [leNat_cons]
    omega

theorem leNat_drop (k : ℕ) :
  leNat (l.drop k) = leNat l / 2 ^ (8 * k)
  := by
  induction k generalizing l with
  | zero => simp
  | succ k ih =>
    cases l with
    | nil => simp
    | cons b l =>
      have hb := b.toNat_lt
      have h : 2 ^ (8 * (k + 1)) = 256 * 2 ^ (8 * k) := by ring
      rw [drop_succ_cons, ih, leNat_cons, h, ← Nat.div_div_eq_div_mul]
      congr 1
      omega

theorem leNat_take (k : ℕ) :
  leNat (l.take k) = leNat l % 2 ^ (8 * k)
  := by
  by_cases hk : k ≤ l.length
  · have h := leNat_append (l.take k) (l.drop k)
    have hlt := leNat_lt (l.take k)
    rw [take_append_drop, length_take, min_eq_left hk] at h
    rw [length_take, min_eq_left hk] at hlt
    rw [h, Nat.add_mul_mod_self_left, Nat.mod_eq_of_lt hlt]
  · have hle : l.length ≤ k := by omega
    rw [take_of_length_le hle, Nat.mod_eq_of_lt]
    apply lt_of_lt_of_le (leNat_lt l)
    apply Nat.pow_le_pow_right (by omega)
    omega

/-- The number of a window of `w` bytes at `k`. -/
theorem leNat_take_drop (k w : ℕ) :
  leNat ((l.drop k).take w) = leNat l / 2 ^ (8 * k) % 2 ^ (8 * w)
  := by
  rw [leNat_take, leNat_drop]

variable {w i : ℕ} {l : List UInt8}

theorem leAt_of_nonneg {i : ℤ} (h₀ : 0 ≤ i) (h : i + w ≤ l.length) :
  (leAt w l i : Go ε ℕ) = .ok (leNat l / 2 ^ (8 * i.toNat) % 2 ^ (8 * w))
  := by
  rw [leAt, if_pos ⟨h₀, h⟩, leNat_take_drop]

theorem leAt_of_le (h : i + w ≤ l.length) :
  (leAt w l i : Go ε ℕ) = .ok (leNat l / 2 ^ (8 * i) % 2 ^ (8 * w))
  := by
  rw [leAt_of_nonneg (by omega) (by omega), Int.toNat_natCast]

/-- A read within the first `n` bytes does not see the others. -/
theorem leAt_take {n : ℕ} (h : i + w ≤ n) (hn : n ≤ l.length) :
  (leAt w (l.take n) i : Go ε ℕ) = leAt w l i
  := by
  have hlen : (l.take n).length = n := by
    rw [length_take]
    omega
  rw [leAt, leAt, if_pos ⟨by omega, by omega⟩, if_pos ⟨by omega, by omega⟩,
    drop_take, take_take, Nat.min_eq_left (by omega)]

theorem leAt_append (a b c : List UInt8) :
  (leAt b.length (a ++ (b ++ c)) a.length : Go ε ℕ) = .ok (leNat b)
  := by
  rw [leAt, if_pos ⟨by omega, by simp⟩, Int.toNat_natCast, drop_left, take_left]

@[simp]
theorem length_leBytes (n v : ℕ) :
  (leBytes n v).length = n
  := by
  induction n generalizing v with
  | zero => rfl
  | succ n ih => simp [leBytes, ih]

theorem leNat_leBytes (n v : ℕ) :
  leNat (leBytes n v) = v % 2 ^ (8 * n)
  := by
  induction n generalizing v with
  | zero => simp [leBytes, Nat.mod_one]
  | succ n ih =>
    have h : 2 ^ (8 * (n + 1)) = 256 * 2 ^ (8 * n) := by ring
    rw [leBytes, leNat_cons, ih, h, Nat.mod_mul]
    simp

theorem leBytes_leNat :
  leBytes l.length (leNat l) = l
  := by
  induction l with
  | nil => rfl
  | cons b l ih =>
    have hb := b.toNat_lt
    have hfirst : UInt8.ofNat (b.toNat + 256 * leNat l) = b := by
      rw [← UInt8.toNat_inj, UInt8.toNat_ofNat']
      omega
    rw [length_cons, leBytes, leNat_cons, hfirst,
      show (b.toNat + 256 * leNat l) / 256 = leNat l by omega, ih]

@[simp]
theorem length_beBytes (n v : ℕ) :
  (beBytes n v).length = n
  := by
  rw [beBytes, length_reverse, length_leBytes]

theorem beAt_of_le (h : i + w ≤ l.length) :
  (beAt w l i : Go ε ℕ) = .ok (leNat ((l.drop i).take w).reverse)
  := if_pos h

/-- A number that has been written is read back. -/
theorem beAt_append {v : ℕ} (hv : v < 2 ^ (8 * w)) (a c : List UInt8) :
  (beAt w (a ++ (beBytes w v ++ c)) a.length : Go ε ℕ) = .ok v
  := by
  have htake : (beBytes w v ++ c).take w = beBytes w v := take_left' (length_beBytes w v)
  rw [beAt_of_le (by simp), drop_left, htake, beBytes, reverse_reverse,
    leNat_leBytes, Nat.mod_eq_of_lt hv]

/-- Setting the bits of `v` above those of `c`. -/
theorem or_shiftLeft {c k : ℕ} (hc : c < 2 ^ k) (v : ℕ) :
  c ||| v <<< k = c + 2 ^ k * v
  := by
  rw [Nat.shiftLeft_eq, Nat.mul_comm, Nat.or_comm, ← Nat.two_pow_add_eq_or_of_lt hc, Nat.add_comm]

/-- Setting the bits of `v` above those of `c`, in a word that has room for them. -/
theorem or_shiftLeft_eq {c v k : ℕ} (hc : c < 2 ^ k) (hv : 2 ^ k * v < 2 ^ w) :
  c ||| v <<< k % 2 ^ w = c + 2 ^ k * v
  := by
  have hlt : v <<< k < 2 ^ w := by
    rwa [Nat.shiftLeft_eq, Nat.mul_comm]
  rw [Nat.mod_eq_of_lt hlt, or_shiftLeft hc]

/-- The `w` bits of `v` above the lowest `k`. -/
theorem shiftRight_and_mask (v k w : ℕ) :
  v >>> k &&& (2 ^ w - 1) = v / 2 ^ k % 2 ^ w
  := by
  rw [Nat.and_two_pow_sub_one_eq_mod, Nat.shiftRight_eq_div_pow]

end GoRt
