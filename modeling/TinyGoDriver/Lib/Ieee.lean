import Mathlib.Algebra.Order.Field.Power
import Mathlib.Data.Nat.Log
import Mathlib.Data.Rat.Cast.Order
import Mathlib.Tactic.FieldSimp
import Mathlib.Tactic.Positivity
import Mathlib.Tactic.Ring

/-!
# Binary floating-point formats

A format stores a number in a sign bit, an exponent of `width` bits and a fraction of `frac` bits.
Bit patterns are natural numbers.  A pattern without its sign bit is a magnitude: below `inf` it
stands for `significand * 2 ^ exponent`, `inf` is infinity, and what is above is not a number.

The magnitudes below `inf` are in the order of the numbers they stand for, which is why rounding
is written on the pattern: the exponent of the last place is chosen first, the significand is
rounded to that place, and a carry into the next exponent needs no attention.  The result used
most is that a number which a format can hold is rounded to the pattern that holds it
(`Format.round_eq`).
-/

namespace Ieee

/-- A binary interchange format. -/
structure Format where
  /-- bits of the fraction -/
  frac : ℕ
  /-- bits of the exponent -/
  width : ℕ
  deriving DecidableEq, Repr

namespace Format

def half : Format := ⟨10, 5⟩

def single : Format := ⟨23, 8⟩

def double : Format := ⟨52, 11⟩

variable (f : Format)

/-- The exponent of the last place of the smallest numbers. -/
def emin : ℤ := 2 - 2 ^ (f.width - 1) - f.frac

/-- The pattern of infinity. -/
def inf : ℕ := (2 ^ f.width - 1) * 2 ^ f.frac

/-- The sign bit. -/
def signBit : ℕ := 2 ^ (f.frac + f.width)

/-- The significand of a magnitude below infinity. -/
def significand (a : ℕ) : ℕ :=
  if a / 2 ^ f.frac = 0 then a else a % 2 ^ f.frac + 2 ^ f.frac

/-- The exponent of a magnitude below infinity. -/
def exponent (a : ℕ) : ℤ := f.emin + (a / 2 ^ f.frac - 1 : ℕ)

/-- The number that a magnitude below infinity stands for. -/
def value (a : ℕ) : ℚ := f.significand a * 2 ^ f.exponent a

def isNaN (b : ℕ) : Bool := f.inf < b % f.signBit

end Format

/-- `m / 2 ^ k` to the nearest integer, of two nearest ones the even one. -/
def roundShift (m k : ℕ) : ℕ :=
  if 2 ^ k < 2 * (m % 2 ^ k) ∨ (2 * (m % 2 ^ k) = 2 ^ k ∧ m / 2 ^ k % 2 = 1) then
    m / 2 ^ k + 1
  else
    m / 2 ^ k

namespace Format

variable (f g : Format)

/-- The exponent of the last place kept of `m * 2 ^ e`. -/
def lastPlace (m : ℕ) (e : ℤ) : ℤ := max (e + Nat.log2 m - f.frac) f.emin

/-- `m * 2 ^ e` in units of `2 ^ u`, rounded. -/
def scaled (m : ℕ) (e u : ℤ) : ℕ :=
  if e ≤ u then roundShift m (u - e).toNat else m * 2 ^ (e - u).toNat

/-- The magnitude nearest to `m * 2 ^ e`, of two nearest ones the even one. -/
def round (m : ℕ) (e : ℤ) : ℕ :=
  if m = 0 then
    0
  else
    min f.inf ((f.lastPlace m e - f.emin).toNat * 2 ^ f.frac + scaled m e (f.lastPlace m e))

/-- The payload of what is not a number, with the bit set that makes it quiet. -/
def quiet (payload : ℕ) : ℕ :=
  (if f.frac ≤ g.frac then payload * 2 ^ (g.frac - f.frac) else payload / 2 ^ (f.frac - g.frac))
    ||| 2 ^ (g.frac - 1)

/-- A pattern of `f` converted to `g`. -/
def convert (b : ℕ) : ℕ :=
  b / f.signBit * g.signBit
    + if b % f.signBit < f.inf then
        g.round (f.significand (b % f.signBit)) (f.exponent (b % f.signBit))
      else if b % f.signBit = f.inf then
        g.inf
      else
        g.inf + f.quiet g (b % f.signBit - f.inf)

/-- Whether two patterns compare equal: zeros do whatever their sign. -/
def same (b c : ℕ) : Bool :=
  !f.isNaN b && !f.isNaN c && (b == c || (b % f.signBit == 0 && c % f.signBit == 0))

end Format

/-! ### Rounding what needs no rounding -/

theorem roundShift_mul (m k : ℕ) :
  roundShift (m * 2 ^ k) k = m
  := by
  have hpos : 0 < 2 ^ k := Nat.two_pow_pos k
  rw [roundShift, Nat.mul_mod_left, Nat.mul_div_cancel m hpos, if_neg (by omega)]

variable {m n : ℕ} {e u : ℤ}

theorem exists_shift (hle : e ≤ u) (h : (m : ℚ) * 2 ^ e = n * 2 ^ u) :
  ∃ k : ℕ, u = e + k ∧ m = n * 2 ^ k
  := by
  obtain ⟨k, rfl⟩ : ∃ k : ℕ, u = e + k := ⟨(u - e).toNat, by omega⟩
  rw [zpow_add₀ two_ne_zero, ← mul_assoc, mul_right_comm] at h
  have h' := mul_right_cancel₀ (zpow_ne_zero e two_ne_zero) h
  exact ⟨k, rfl, by exact_mod_cast h'⟩

/-- A number that is a multiple of the unit is not rounded. -/
theorem scaled_eq (h : (m : ℚ) * 2 ^ e = n * 2 ^ u) :
  Format.scaled m e u = n
  := by
  rw [Format.scaled]
  split
  · rename_i hle
    obtain ⟨k, rfl, rfl⟩ := exists_shift hle h
    rw [show (e + (k : ℤ) - e).toNat = k by omega, roundShift_mul]
  · rename_i hle
    obtain ⟨k, rfl, rfl⟩ := exists_shift (le_of_not_ge hle) h.symm
    rw [show (u + (k : ℤ) - u).toNat = k by omega]

theorem log_mul_two_pow (hn : n ≠ 0) (k : ℕ) :
  Nat.log 2 (n * 2 ^ k) = Nat.log 2 n + k
  := by
  induction k with
  | zero => simp
  | succ k ih =>
    rw [pow_succ, ← mul_assoc, Nat.log_mul_base (by decide) (by positivity), ih, Nat.add_assoc]

/-- Numbers that are the same have their leading bit at the same place. -/
theorem log_add_eq (hm : m ≠ 0) (h : (m : ℚ) * 2 ^ e = n * 2 ^ u) :
  e + Nat.log 2 m = u + Nat.log 2 n
  := by
  rcases le_total e u with hle | hle
  · obtain ⟨k, rfl, rfl⟩ := exists_shift hle h
    rw [log_mul_two_pow (left_ne_zero_of_mul hm)]
    omega
  · obtain ⟨k, rfl, rfl⟩ := exists_shift hle h.symm
    rw [log_mul_two_pow hm]
    omega

namespace Format

variable {f : Format}

/-- The pattern in terms of its significand and exponent. -/
theorem pattern_eq (f : Format) (a : ℕ) :
  (f.exponent a - f.emin).toNat * 2 ^ f.frac + f.significand a = a
  := by
  rw [exponent, significand]
  have hdiv := Nat.div_add_mod a (2 ^ f.frac)
  split
  · rename_i hzero
    rw [hzero]
    simp
  rename_i hpos
  obtain ⟨d, hd⟩ := Nat.exists_eq_succ_of_ne_zero hpos
  rw [hd] at hdiv ⊢
  rw [show (f.emin + ((d.succ - 1 : ℕ) : ℤ) - f.emin).toNat = d by omega]
  have : 2 ^ f.frac * d.succ = d * 2 ^ f.frac + 2 ^ f.frac := by
    rw [Nat.succ_eq_add_one]
    ring
  omega

/-- The last place kept of a number that the format holds is the one it is held with. -/
theorem lastPlace_eq {a : ℕ} (hm : m ≠ 0) (h : (m : ℚ) * 2 ^ e = f.value a) :
  f.lastPlace m e = f.exponent a
  := by
  rw [lastPlace, Nat.log2_eq_log_two, log_add_eq hm h, exponent]
  rcases Nat.eq_zero_or_pos (a / 2 ^ f.frac) with hzero | hpos
  · -- a small number has its leading bit below the last place of a full significand
    rw [significand, if_pos hzero]
    have hlt : a < 2 ^ f.frac := by
      rcases Nat.div_eq_zero_iff.mp hzero with h | h
      · exact absurd h (Nat.two_pow_pos _).ne'
      · exact h
    have hlog : Nat.log 2 a ≤ f.frac := by
      rcases Nat.eq_zero_or_pos a with rfl | ha
      · simp
      · exact (Nat.log_lt_of_lt_pow ha.ne' hlt).le
    omega
  · rw [significand, if_neg hpos.ne']
    have hlog : Nat.log 2 (a % 2 ^ f.frac + 2 ^ f.frac) = f.frac := by
      apply Nat.log_eq_of_pow_le_of_lt_pow
      · omega
      · omega
    omega

/-- A number that the format holds is rounded to the pattern that holds it. -/
theorem round_eq {a : ℕ} (ha : a < f.inf) (h : (m : ℚ) * 2 ^ e = f.value a) :
  f.round m e = a
  := by
  rw [round]
  split
  · rename_i hzero
    rw [hzero, Nat.cast_zero, zero_mul, eq_comm] at h
    rcases mul_eq_zero.mp h with h | h
    · have hsig : f.significand a = 0 := by exact_mod_cast h
      rw [significand] at hsig
      split at hsig
      · exact hsig.symm
      · exact absurd hsig (by have := Nat.two_pow_pos f.frac; omega)
    · exact absurd h (zpow_ne_zero _ two_ne_zero)
  · rename_i hm
    rw [lastPlace_eq hm h, scaled_eq h, pattern_eq]
    exact min_eq_right ha.le

/-! ### Wider formats -/

/-- A pattern written as an exponent and a significand of full width, or a smaller significand with
the smallest exponent. -/
theorem value_pattern {u : ℕ} (hm : m < 2 ^ (f.frac + 1)) (hu : u = 0 ∨ 2 ^ f.frac ≤ m) :
  f.value (u * 2 ^ f.frac + m) = m * 2 ^ (f.emin + u)
  := by
  have hpos := Nat.two_pow_pos f.frac
  rcases Nat.lt_or_ge m (2 ^ f.frac) with hlt | hge
  · obtain rfl : u = 0 := by omega
    rw [zero_mul, zero_add, value, significand, exponent, Nat.div_eq_of_lt hlt, if_pos rfl]
  have ha : u * 2 ^ f.frac + m = (m - 2 ^ f.frac) + 2 ^ f.frac * (u + 1) := by
    rw [mul_add, mul_comm u]
    omega
  have hsmall : m - 2 ^ f.frac < 2 ^ f.frac := by omega
  have hdiv : (u * 2 ^ f.frac + m) / 2 ^ f.frac = u + 1 := by
    rw [ha, Nat.add_mul_div_left _ _ hpos, Nat.div_eq_of_lt hsmall, zero_add]
  have hmod : (u * 2 ^ f.frac + m) % 2 ^ f.frac = m - 2 ^ f.frac := by
    rw [ha, Nat.add_mul_mod_self_left, Nat.mod_eq_of_lt hsmall]
  rw [value, significand, exponent, hdiv, hmod, if_neg (Nat.succ_ne_zero u),
    Nat.sub_add_cancel hge, Nat.add_sub_cancel]

/-- A number with few digits whose leading bit lies in the range of the format is held by a
pattern. -/
theorem exists_value (hwidth : 2 ≤ f.width) (hm : m < 2 ^ (f.frac + 1)) (he : f.emin ≤ e)
    (htop : e + Nat.log 2 m < 2 ^ (f.width - 1)) :
  ∃ a < f.inf, f.value a = m * 2 ^ e
  := by
  rcases Nat.eq_zero_or_pos m with rfl | hpos
  · have hinf : 0 < f.inf := by
      have : 2 ^ 2 ≤ 2 ^ f.width := Nat.pow_le_pow_right (by decide) hwidth
      exact Nat.mul_pos (by omega) (Nat.two_pow_pos _)
    refine ⟨0, hinf, ?_⟩
    simp [value, significand]
  -- the exponent of the last place, and how far the significand is shifted to reach it
  have hlog : Nat.log 2 m ≤ f.frac := Nat.lt_succ_iff.mp (Nat.log_lt_of_lt_pow hpos.ne' hm)
  obtain ⟨k, hk⟩ : ∃ k : ℕ, (k : ℤ) = e - max (e + Nat.log 2 m - f.frac) f.emin :=
    ⟨(e - max (e + Nat.log 2 m - f.frac) f.emin).toNat, by omega⟩
  obtain ⟨u, hu⟩ : ∃ u : ℕ, (u : ℤ) = e - k - f.emin := ⟨(e - k - f.emin).toNat, by omega⟩
  have hlow : 2 ^ Nat.log 2 m ≤ m := Nat.pow_log_le_self 2 hpos.ne'
  have hhigh : m < 2 ^ (Nat.log 2 m + 1) := Nat.lt_pow_succ_log_self (by decide) m
  have hshift : m * 2 ^ k < 2 ^ (f.frac + 1) := by
    calc m * 2 ^ k < 2 ^ (Nat.log 2 m + 1) * 2 ^ k := by gcongr
      _ = 2 ^ (Nat.log 2 m + 1 + k) := (pow_add _ _ _).symm
      _ ≤ 2 ^ (f.frac + 1) := Nat.pow_le_pow_right (by decide) (by omega)
  have hfull : u = 0 ∨ 2 ^ f.frac ≤ m * 2 ^ k := by
    rcases Nat.eq_zero_or_pos u with hzero | hupos
    · exact .inl hzero
    refine .inr ?_
    calc 2 ^ f.frac ≤ 2 ^ (Nat.log 2 m + k) := Nat.pow_le_pow_right (by decide) (by omega)
      _ = 2 ^ Nat.log 2 m * 2 ^ k := pow_add _ _ _
      _ ≤ m * 2 ^ k := by gcongr
  refine ⟨u * 2 ^ f.frac + m * 2 ^ k, ?_, ?_⟩
  · have hwide : 2 ^ f.width = 2 * 2 ^ (f.width - 1) := by
      rw [← pow_succ', Nat.sub_add_cancel (by omega)]
    have hle : 2 ^ 1 ≤ 2 ^ (f.width - 1) := Nat.pow_le_pow_right (by decide) (by omega)
    have hu2 : u + 2 ≤ 2 ^ f.width - 1 := by
      have hemin : f.emin = 2 - 2 ^ (f.width - 1) - f.frac := rfl
      have hcast : ((2 ^ (f.width - 1) : ℕ) : ℤ) = 2 ^ (f.width - 1) := by push_cast; rfl
      omega
    calc u * 2 ^ f.frac + m * 2 ^ k < u * 2 ^ f.frac + 2 ^ (f.frac + 1) := by omega
      _ = (u + 2) * 2 ^ f.frac := by ring
      _ ≤ f.inf := Nat.mul_le_mul_right _ hu2
  · rw [value_pattern hshift hfull, Nat.cast_mul, Nat.cast_pow, Nat.cast_ofNat, mul_assoc,
      ← zpow_natCast, ← zpow_add₀ two_ne_zero]
    congr 2
    omega

/-- Every number of `f` is a number of `g`. -/
def Within (f g : Format) : Prop := 2 ≤ f.width ∧ f.width ≤ g.width ∧ f.frac ≤ g.frac

instance decidableWithin (f g : Format) : Decidable (f.Within g) :=
  inferInstanceAs (Decidable (_ ∧ _))

variable {g h : Format} {a b : ℕ}

theorem significand_lt (f : Format) (a : ℕ) :
  f.significand a < 2 ^ (f.frac + 1)
  := by
  have hpos := Nat.two_pow_pos f.frac
  rw [significand]
  split
  · rename_i hzero
    rcases Nat.div_eq_zero_iff.mp hzero with h | h <;> omega
  · omega

theorem Within.exists_value (hfg : f.Within g) (ha : a < f.inf) :
  ∃ b < g.inf, g.value b = f.value a
  := by
  obtain ⟨hwidth, hwide, hfrac⟩ := hfg
  have hsig := f.significand_lt a
  have hlog : Nat.log 2 (f.significand a) ≤ f.frac := by
    rcases Nat.eq_zero_or_pos (f.significand a) with hzero | hpos
    · simp [hzero]
    · exact Nat.lt_succ_iff.mp (Nat.log_lt_of_lt_pow hpos.ne' hsig)
  have hpow : 2 ^ (f.width - 1) ≤ 2 ^ (g.width - 1) :=
    Nat.pow_le_pow_right (by decide) (by omega)
  have hdouble : 2 ^ f.width = 2 * 2 ^ (f.width - 1) := by
    rw [← pow_succ', Nat.sub_add_cancel (by omega)]
  have hf : f.emin = 2 - ((2 ^ (f.width - 1) : ℕ) : ℤ) - f.frac := by push_cast; rfl
  have hg : g.emin = 2 - ((2 ^ (g.width - 1) : ℕ) : ℤ) - g.frac := by push_cast; rfl
  have hexp : f.exponent a = f.emin + (a / 2 ^ f.frac - 1 : ℕ) := rfl
  have hdiv : a / 2 ^ f.frac < 2 ^ f.width - 1 := Nat.div_lt_of_lt_mul (by rwa [mul_comm])
  refine Format.exists_value (by omega)
    (lt_of_lt_of_le hsig (Nat.pow_le_pow_right (by decide) (by omega))) (by omega) ?_
  have hcast : ((2 ^ (g.width - 1) : ℕ) : ℤ) = 2 ^ (g.width - 1) := by push_cast; rfl
  have hle : 2 ^ 1 ≤ 2 ^ (f.width - 1) := Nat.pow_le_pow_right (by decide) (by omega)
  omega

theorem inf_lt_signBit (f : Format) :
  f.inf < f.signBit
  := by
  rw [inf, signBit, pow_add, mul_comm]
  have := Nat.two_pow_pos f.width
  exact Nat.mul_lt_mul_of_pos_left (by omega) (Nat.two_pow_pos _)

theorem isNaN_eq_false (b : ℕ) :
  f.isNaN b = false ↔ b % f.signBit ≤ f.inf
  := by
  simp [isNaN]

/-- A sign and a magnitude. -/
theorem div_mod_signBit {s c : ℕ} (hc : c ≤ f.inf) :
  (s * f.signBit + c) / f.signBit = s ∧ (s * f.signBit + c) % f.signBit = c
  := by
  have hlt : c < f.signBit := lt_of_le_of_lt hc f.inf_lt_signBit
  have hpos : 0 < f.signBit := by omega
  rw [add_comm, Nat.add_mul_div_right _ _ hpos, Nat.add_mul_mod_self_right, Nat.div_eq_of_lt hlt,
    Nat.mod_eq_of_lt hlt, zero_add]
  exact ⟨rfl, rfl⟩

/-- A number converted to a format that holds it is the same number there. -/
theorem convert_eq (hb : b % f.signBit < f.inf) (ha : a < g.inf)
    (hvalue : g.value a = f.value (b % f.signBit)) :
  f.convert g b = b / f.signBit * g.signBit + a
  := by
  rw [convert, if_pos hb, round_eq ha hvalue.symm]

theorem convert_inf (hb : b % f.signBit = f.inf) :
  f.convert g b = b / f.signBit * g.signBit + g.inf
  := by
  rw [convert, if_neg (by omega), if_pos hb]

/-- What is not a NaN is not converted to more than infinity. -/
theorem convert_le (hb : f.isNaN b = false) :
  f.convert g b ≤ b / f.signBit * g.signBit + g.inf
  := by
  rw [isNaN_eq_false] at hb
  refine Nat.add_le_add_left ?_ _
  split_ifs with hlt heq
  · rw [round]
    split
    · exact Nat.zero_le _
    · exact Nat.min_le_left _ _
  · exact le_rfl
  · omega

/-- Converting to a wider format does not make what is a number into what is not. -/
theorem Within.isNaN_convert (hfg : f.Within g) (hb : f.isNaN b = false) :
  g.isNaN (f.convert g b) = false
  := by
  rw [isNaN_eq_false] at *
  rcases hb.lt_or_eq with hlt | heq
  · obtain ⟨a, ha, hvalue⟩ := hfg.exists_value hlt
    rw [convert_eq hlt ha hvalue, (div_mod_signBit ha.le).2]
    exact ha.le
  · rw [convert_inf heq, (div_mod_signBit le_rfl).2]

/-- Converting to a wider format does not make what is not a number into a number. -/
theorem Within.isNaN_convert_of_isNaN (hfg : f.Within g) (hfrac : 1 ≤ g.frac)
    (hb : f.isNaN b = true) :
  g.isNaN (f.convert g b) = true
  := by
  have hlt : f.inf < b % f.signBit := by simpa [isNaN] using hb
  have hsign : ∀ h : Format, h.signBit = h.inf + 2 ^ h.frac := by
    intro h
    have hone : 1 ≤ 2 ^ h.width := Nat.two_pow_pos _
    rw [signBit, inf, pow_add, ← Nat.succ_mul, Nat.succ_eq_add_one, Nat.sub_add_cancel hone,
      mul_comm]
  have hpayload : b % f.signBit - f.inf < 2 ^ f.frac := by
    have hf := hsign f
    rw [signBit] at *
    omega
  have hquiet : f.quiet g (b % f.signBit - f.inf) < 2 ^ g.frac := by
    rw [quiet, if_pos hfg.2.2]
    apply Nat.or_lt_two_pow
    · calc (b % f.signBit - f.inf) * 2 ^ (g.frac - f.frac)
          < 2 ^ f.frac * 2 ^ (g.frac - f.frac) :=
            Nat.mul_lt_mul_of_pos_right hpayload (Nat.two_pow_pos _)
        _ = 2 ^ g.frac := by rw [← pow_add, Nat.add_sub_cancel' hfg.2.2]
    · exact Nat.pow_lt_pow_right (by decide) (by omega)
  have hpos : 0 < f.quiet g (b % f.signBit - f.inf) :=
    lt_of_lt_of_le (Nat.two_pow_pos (g.frac - 1)) Nat.right_le_or
  have hmod : (b / f.signBit * g.signBit + (g.inf + f.quiet g (b % f.signBit - f.inf))) % g.signBit
      = g.inf + f.quiet g (b % f.signBit - f.inf) := by
    rw [Nat.mul_add_mod_self_right]
    exact Nat.mod_eq_of_lt (by rw [hsign g]; omega)
  rw [convert, if_neg (by omega), if_neg (by omega), isNaN, hmod]
  simpa using hpos

/-- A number converted to a wider format and from there to another format that holds it. -/
theorem Within.convert_convert (hfg : f.Within g) (hfh : f.Within h) (hb : f.isNaN b = false) :
  g.convert h (f.convert g b) = f.convert h b
  := by
  rw [isNaN_eq_false] at hb
  rcases hb.lt_or_eq with hlt | heq
  · obtain ⟨a, ha, hvalue⟩ := hfg.exists_value hlt
    obtain ⟨c, hc, hvalue'⟩ := hfh.exists_value hlt
    obtain ⟨hdiv, hmod⟩ := div_mod_signBit ha.le
    rw [convert_eq hlt ha hvalue, convert_eq hlt hc hvalue',
      convert_eq (by rwa [hmod]) hc (by rw [hmod, hvalue, hvalue']), hdiv]
  · obtain ⟨hdiv, hmod⟩ := div_mod_signBit le_rfl
    rw [convert_inf heq, convert_inf heq, convert_inf hmod, hdiv]

theorem convert_self (hb : f.isNaN b = false) :
  f.convert f b = b
  := by
  rw [isNaN_eq_false] at hb
  rcases hb.lt_or_eq with hlt | heq
  · rw [convert_eq hlt hlt rfl, mul_comm, Nat.div_add_mod]
  · rw [convert_inf heq, ← heq, mul_comm, Nat.div_add_mod]

theorem Within.refl (hwidth : 2 ≤ f.width) :
  f.Within f
  := ⟨hwidth, le_rfl, le_rfl⟩

/-- A number converted to a wider format and back. -/
theorem Within.convert_back (hfg : f.Within g) (hb : f.isNaN b = false) :
  g.convert f (f.convert g b) = b
  := by
  rw [hfg.convert_convert (Within.refl hfg.1) hb, convert_self hb]

theorem same_self (hb : f.isNaN b = false) :
  f.same b b = true
  := by
  simp [same, hb]

end Format

end Ieee
