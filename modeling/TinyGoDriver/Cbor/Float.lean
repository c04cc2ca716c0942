import TinyGoDriver.Cbor.Types
import TinyGoDriver.Lib.Ieee

/-!
# Floats

A `float64` is the number of its bits, as `math.Float64bits` gives it.  `float16` reads half
precision, and `appendFloat` writes the shortest of the three precisions that holds a value;
`exactHalf` decides whether half precision does.
-/

namespace Cbor

open GoRt Ieee Format Nat

/-- `float64(math.Float32frombits(b))` -/
def float64OfSingle (b : ℕ) : ℕ := Format.single.convert Format.double b

/-- `math.Float32bits(float32(v))` -/
def singleOfFloat64 (v : ℕ) : ℕ := Format.double.convert Format.single v

/-- `math.IsNaN` -/
def isNaN (v : ℕ) : Bool := Format.double.isNaN v

/-- `math.NaN` -/
def nan : ℕ := 0x7ff8000000000001

/-- `math.Ldexp(float64(frac), exp)` for an integer that a `float64` holds. -/
def ldexp (frac : ℕ) (exp : ℤ) : ℕ := Format.double.round frac exp

def float16 (h : ℕ) : ℕ :=
  let sign := h / 2 ^ 15 * 2 ^ 63
  let exp := h / 2 ^ 10 % 2 ^ 5
  let frac := h % 2 ^ 10
  if exp = 0 then
    if frac = 0 then sign else sign + ldexp frac (-24)
  else if exp = 31 then
    if frac = 0 then sign + 0x7ff0000000000000 else nan
  else
    sign + (exp + 1008) * 2 ^ 52 + frac * 2 ^ 42

/-- `exactHalf`, with `none` where the second result is `false`. -/
def exactHalf (v : ℕ) : Option ℕ :=
  if isNaN v then
    some 0x7e00
  else
    let b := singleOfFloat64 v
    if Format.double.same (float64OfSingle b) v then
      let sign := b / 2 ^ 31 * 2 ^ 15
      let exp := b / 2 ^ 23 % 2 ^ 8
      let mant := b % 2 ^ 23
      if exp = 255 then
        if mant = 0 then some (sign + 0x7c00) else some (sign + 0x7e00)
      else if exp = 0 then
        if mant = 0 then some sign else none
      else if 113 ≤ exp ∧ exp ≤ 142 then
        if mant % 2 ^ 13 = 0 then
          checked v (sign + (exp - 112) * 2 ^ 10 + mant / 2 ^ 13)
        else
          none
      else if 103 ≤ exp ∧ exp < 113 then
        if (mant + 2 ^ 23) % 2 ^ (126 - exp) = 0 then
          checked v (sign + (mant + 2 ^ 23) / 2 ^ (126 - exp))
        else
          none
      else
        none
    else
      none
where
  /-- `return h, float16(h) == v` -/
  checked (v h : ℕ) : Option ℕ := if Format.double.same (float16 h) v then some h else none

def appendFloat (dst : List UInt8) (v : ℕ) : List UInt8 :=
  if isNaN v then
    dst ++ [0xf9, 0x7e, 0x00]
  else
    match exactHalf v with
    | some h => dst ++ 0xf9 :: beBytes 2 h
    | none =>
      if Format.double.same (float64OfSingle (singleOfFloat64 v)) v then
        dst ++ 0xfa :: beBytes 4 (singleOfFloat64 v)
      else
        dst ++ 0xfb :: beBytes 8 v

/-! ### Halves among the doubles -/

theorem half_within_double :
  Format.half.Within Format.double
  := by decide

theorem half_within_single :
  Format.half.Within Format.single
  := by decide

theorem single_within_double :
  Format.single.Within Format.double
  := by decide

/-- The magnitude of a half that is not small, in a format with `k` more bits of fraction. -/
theorem value_of_half {f : Format} {k b exp frac : ℕ} (hwidth : f.frac = 10 + k)
    (hemin : f.emin + k + b = -25) (hfrac : frac < 2 ^ 10) :
  f.value ((exp + (b + 1)) * 2 ^ (10 + k) + frac * 2 ^ k)
    = (frac + 2 ^ 10 : ℕ) * 2 ^ ((exp : ℤ) - 25)
  := by
  have hpattern : (exp + (b + 1)) * 2 ^ (10 + k) + frac * 2 ^ k
      = (exp + b) * 2 ^ f.frac + (frac + 2 ^ 10) * 2 ^ k := by
    rw [hwidth]
    ring
  have hexponent : (k : ℤ) + (f.emin + ((exp + b : ℕ) : ℤ)) = exp - 25 := by omega
  have hlow : 2 ^ f.frac ≤ (frac + 2 ^ 10) * 2 ^ k := by
    rw [hwidth, pow_add]
    exact mul_le_mul_right _ (le_add_left _ _)
  have hhigh : (frac + 2 ^ 10) * 2 ^ k < 2 ^ (f.frac + 1) := by
    rw [hwidth, show 10 + k + 1 = 11 + k by omega, pow_add]
    exact Nat.mul_lt_mul_of_pos_right (by omega) (Nat.two_pow_pos k)
  rw [hpattern, value_pattern hhigh (.inr hlow), cast_mul, cast_pow, cast_ofNat,
    mul_assoc, ← zpow_natCast, ← zpow_add₀ two_ne_zero, hexponent]

/-- The magnitude of a half that is not small. -/
theorem half_value {exp frac : ℕ} (hexp : 1 ≤ exp) (hfrac : frac < 2 ^ 10) :
  Format.half.value (exp * 2 ^ 10 + frac) = (frac + 2 ^ 10 : ℕ) * 2 ^ ((exp : ℤ) - 25)
  := by
  have hpattern : exp * 2 ^ 10 + frac = (exp - 1) * 2 ^ half.frac + (frac + 2 ^ 10) := by
    change _ = (exp - 1) * 2 ^ 10 + _
    omega
  have hemin : half.emin = -24 := rfl
  rw [hpattern, value_pattern (by change _ < 2 ^ 11; omega) (.inr (by
    change 2 ^ 10 ≤ _; omega))]
  congr 2
  omega

/-- `float16` converts a half to double precision. -/
theorem float16_eq {h : ℕ} (hn : Format.half.isNaN h = false) :
  float16 h = Format.half.convert Format.double h
  := by
  have hsign : half.signBit = 2 ^ 15 := rfl
  have hinf : half.inf = 31 * 2 ^ 10 := rfl
  have hdsign : double.signBit = 2 ^ 63 := rfl
  rw [isNaN_eq_false, hsign] at hn
  rw [float16]
  by_cases hlast : h % 2 ^ 15 = 31 * 2 ^ 10
  · rw [convert_inf (by rw [hsign, hinf, hlast]), if_neg (by omega), if_pos (by omega),
      if_pos (by omega)]
    rfl
  have hlt : h % half.signBit < half.inf := by
    rw [hsign]
    omega
  by_cases hsmall : h / 2 ^ 10 % 2 ^ 5 = 0
  · rw [if_pos hsmall, convert, if_pos hlt, hsign, hdsign]
    have hfrac : h % 2 ^ 15 = h % 2 ^ 10 := by omega
    have hsig : half.significand (h % 2 ^ 15) = h % 2 ^ 10 := by
      rw [significand, if_pos (by change _ / 2 ^ 10 = 0; omega), hfrac]
    have hexp : half.exponent (h % 2 ^ 15) = -24 := by
      have hdiv : h % 2 ^ 15 / 2 ^ half.frac = 0 := by
        change _ / 2 ^ 10 = 0
        omega
      rw [exponent, hdiv]
      rfl
    rw [hsig, hexp]
    split
    · rename_i hzero
      rw [hzero, Format.round, if_pos rfl, add_zero]
    · rfl
  · rw [if_neg hsmall, if_neg (by omega)]
    have hsplit : h % half.signBit = h / 2 ^ 10 % 2 ^ 5 * 2 ^ 10 + h % 2 ^ 10 := by
      rw [hsign]
      omega
    rw [convert_eq hlt, hsign, hdsign, add_assoc]
    · change _ < 2047 * 2 ^ 52
      omega
    · rw [hsplit, half_value (by omega) (by omega)]
      exact value_of_half (k := 42) rfl rfl (by omega)

theorem isNaN_float16 (h : ℕ) :
  isNaN (float16 h) = Format.half.isNaN h
  := by
  cases hn : half.isNaN h with
  | false =>
    rw [float16_eq hn]
    exact half_within_double.isNaN_convert hn
  | true =>
    have hlt : 31 * 2 ^ 10 < h % 2 ^ 15 := by
      have : Format.half.inf < h % Format.half.signBit := by simpa [Format.isNaN] using hn
      exact this
    rw [float16, if_neg (by omega), if_pos (by omega), if_neg (by omega)]
    decide

theorem isNaN_float64OfSingle (v : ℕ) :
  isNaN (float64OfSingle v) = Format.single.isNaN v
  := by
  cases hn : single.isNaN v with
  | false => exact single_within_double.isNaN_convert hn
  | true => exact single_within_double.isNaN_convert_of_isNaN (by decide) hn

/-! ### Which doubles are halves -/

/-- The magnitude of a small half, in single precision. -/
theorem single_value_of_small_half {m : ℕ} (hpos : 0 < m) (hlt : m < 2 ^ 10) :
  ∃ exp mant, (103 ≤ exp ∧ exp < 113) ∧ mant < 2 ^ 23
    ∧ ((mant + 2 ^ 23) % 2 ^ (126 - exp) = 0 ∧ m = (mant + 2 ^ 23) / 2 ^ (126 - exp))
    ∧ Format.single.value (exp * 2 ^ 23 + mant) = Format.half.value m
  := by
  obtain ⟨k, hk⟩ : ∃ k, k = Nat.log 2 m := ⟨_, rfl⟩
  have hk9 : k < 10 := hk ▸ Nat.log_lt_of_lt_pow hpos.ne' hlt
  have hlow : 2 ^ k ≤ m := hk ▸ Nat.pow_log_le_self 2 hpos.ne'
  have hhigh : m < 2 ^ (k + 1) := hk ▸ Nat.lt_pow_succ_log_self (by decide) m
  have hfull : 2 ^ 23 ≤ m * 2 ^ (23 - k) := by
    calc 2 ^ 23 = 2 ^ k * 2 ^ (23 - k) := by rw [← pow_add]; congr 1; omega
      _ ≤ m * 2 ^ (23 - k) := Nat.mul_le_mul_right _ hlow
  have hshort : m * 2 ^ (23 - k) < 2 ^ 24 := by
    calc m * 2 ^ (23 - k) < 2 ^ (k + 1) * 2 ^ (23 - k) :=
          Nat.mul_lt_mul_of_pos_right hhigh (Nat.two_pow_pos _)
      _ = 2 ^ 24 := by rw [← pow_add]; congr 1; omega
  have hshift : 126 - (k + 103) = 23 - k := by omega
  have hmant : m * 2 ^ (23 - k) - 2 ^ 23 + 2 ^ 23 = m * 2 ^ (23 - k) := Nat.sub_add_cancel hfull
  refine ⟨k + 103, m * 2 ^ (23 - k) - 2 ^ 23, ⟨by omega, by omega⟩, by omega, ?_, ?_⟩
  · rw [hshift, hmant, Nat.mul_mod_left, Nat.mul_div_cancel _ (Nat.two_pow_pos _)]
    exact ⟨rfl, rfl⟩
  have hwidth : single.frac = 23 := rfl
  have hemin : single.emin = -149 := rfl
  have hpattern : (k + 103) * 2 ^ 23 + (m * 2 ^ (23 - k) - 2 ^ 23)
      = (k + 102) * 2 ^ single.frac + m * 2 ^ (23 - k) := by
    rw [hwidth]
    omega
  have hhalf : half.value m = m * 2 ^ (-24 : ℤ) := by
    have hvalue := value_pattern (f := half)
      (by change m < 2 ^ 11; omega) (.inl rfl)
    rwa [zero_mul, zero_add, Nat.cast_zero] at hvalue
  have hexponent : ((23 - k : ℕ) : ℤ) + (-149 + ((k + 102 : ℕ) : ℤ)) = -24 := by omega
  rw [hpattern, value_pattern (by rw [hwidth]; exact hshort) (.inr (by
    rw [hwidth]; exact hfull)), hemin, hhalf, Nat.cast_mul, Nat.cast_pow, Nat.cast_ofNat,
    mul_assoc, ← zpow_natCast, ← zpow_add₀ two_ne_zero, hexponent]

/-- A half in single precision, by the size of its magnitude. -/
theorem half_convert_single {v : ℕ} (hn : Format.half.isNaN v = false) :
  ∃ exp mant, Format.half.convert Format.single v = v / 2 ^ 15 * 2 ^ 31 + (exp * 2 ^ 23 + mant)
    ∧ mant < 2 ^ 23
    ∧ ((exp = 255 ∧ mant = 0 ∧ v % 2 ^ 15 = 31 * 2 ^ 10) ∨ (exp = 0 ∧ mant = 0 ∧ v % 2 ^ 15 = 0)
      ∨ (113 ≤ exp ∧ exp ≤ 142 ∧ mant % 2 ^ 13 = 0
        ∧ v % 2 ^ 15 = (exp - 112) * 2 ^ 10 + mant / 2 ^ 13)
      ∨ (103 ≤ exp ∧ exp < 113 ∧ (mant + 2 ^ 23) % 2 ^ (126 - exp) = 0
        ∧ v % 2 ^ 15 = (mant + 2 ^ 23) / 2 ^ (126 - exp)))
  := by
  have hsign : half.signBit = 2 ^ 15 := rfl
  have hinf : half.inf = 31 * 2 ^ 10 := rfl
  have hssign : single.signBit = 2 ^ 31 := rfl
  have hsinf : single.inf = 255 * 2 ^ 23 := rfl
  rw [isNaN_eq_false, hsign, hinf] at hn
  rcases hn.lt_or_eq with hlt | heq
  · have hlt' : v % half.signBit < half.inf := by rwa [hinf]
    rcases Nat.eq_zero_or_pos (v % 2 ^ 15) with hzero | hpos
    · refine ⟨0, 0, ?_, by decide, .inr (.inl ⟨rfl, rfl, hzero⟩)⟩
      have hvalue : single.value 0 = half.value (v % half.signBit) := by
        rw [hsign, hzero]
        simp [value, significand]
      rw [convert_eq hlt' (by decide) hvalue, hsign, hssign, Nat.zero_mul]
    by_cases hsmall : v % 2 ^ 15 / 2 ^ 10 = 0
    · -- a small half is not a small single: its leading bit moves to the front
      obtain ⟨exp, mant, hexp, hmant, hle, hvalue⟩ := single_value_of_small_half hpos (by omega)
      refine ⟨exp, mant, ?_, hmant, .inr (.inr (.inr ⟨hexp.1, hexp.2, hle⟩))⟩
      rw [convert_eq hlt' (by rw [hsinf]; omega) hvalue, hsign, hssign]
    have hsplit : v % 2 ^ 15 = v % 2 ^ 15 / 2 ^ 10 * 2 ^ 10 + v % 2 ^ 10 := by omega
    have hvalue : single.value ((v % 2 ^ 15 / 2 ^ 10 + 112) * 2 ^ 23 + v % 2 ^ 10 * 2 ^ 13)
        = half.value (v % half.signBit) := by
      rw [hsign, hsplit, half_value (by omega) (by omega), ← hsplit]
      exact value_of_half (k := 13) rfl rfl (by omega)
    refine ⟨v % 2 ^ 15 / 2 ^ 10 + 112, v % 2 ^ 10 * 2 ^ 13, ?_, by omega,
      .inr (.inr (.inl ⟨by omega, by omega, Nat.mul_mod_left _ _, ?_⟩))⟩
    swap
    · rw [Nat.add_sub_cancel, Nat.mul_div_cancel _ (Nat.two_pow_pos 13), ← hsplit]
    rw [convert_eq hlt' (by rw [hsinf]; omega) hvalue, hsign, hssign]
  · refine ⟨255, 0, ?_, by decide, .inl ⟨rfl, rfl, heq⟩⟩
    rw [convert_inf (by rw [hsign, hinf, heq]), hsign, hssign, hsinf, Nat.add_zero]

/-- Every half is recognised. -/
theorem exactHalf_float16 {v : ℕ} (hn : Format.half.isNaN v = false) :
  exactHalf (float16 v) = some v
  := by
  have hsingle : singleOfFloat64 (float16 v) = half.convert single v := by
    rw [float16_eq hn]
    exact half_within_double.convert_convert half_within_single hn
  have hback : float64OfSingle (half.convert single v) = float16 v := by
    rw [float16_eq hn]
    exact half_within_single.convert_convert half_within_double hn
  have hnan : isNaN (float16 v) = false := by rw [isNaN_float16, hn]
  have hsame : double.same (float16 v) (float16 v) = true := same_self hnan
  have hchecked : exactHalf.checked (float16 v) v = some v := by
    rw [exactHalf.checked, if_pos hsame]
  rw [exactHalf, hnan, if_neg (by simp), hsingle]
  dsimp only
  rw [hback, if_pos hsame]
  obtain ⟨exp, mant, hconvert, hmant, hcases⟩ := half_convert_single hn
  have h₁ : (v / 2 ^ 15 * 2 ^ 31 + (exp * 2 ^ 23 + mant)) / 2 ^ 31 = v / 2 ^ 15 := by omega
  have h₂ : (v / 2 ^ 15 * 2 ^ 31 + (exp * 2 ^ 23 + mant)) / 2 ^ 23 % 2 ^ 8 = exp := by omega
  have h₃ : (v / 2 ^ 15 * 2 ^ 31 + (exp * 2 ^ 23 + mant)) % 2 ^ 23 = mant := by omega
  rw [hconvert, h₁, h₂, h₃]
  rcases hcases with ⟨hexp, hmant, hv⟩ | ⟨hexp, hmant, hv⟩ | ⟨hlo, hhi, hmod, hv⟩
    | ⟨hlo, hhi, hmod, hv⟩
  · rw [if_pos hexp, if_pos hmant]
    exact congrArg some (by omega)
  · rw [if_neg (by omega), if_pos hexp, if_pos hmant]
    exact congrArg some (by omega)
  · rw [if_neg (by omega), if_neg (by omega), if_pos ⟨hlo, hhi⟩, if_pos hmod]
    rw [show v / 2 ^ 15 * 2 ^ 15 + (exp - 112) * 2 ^ 10 + mant / 2 ^ 13 = v by omega, hchecked]
  · rw [if_neg (by omega), if_neg (by omega), if_neg (by omega), if_pos ⟨hlo, hhi⟩, if_pos hmod,
      ← hv]
    rw [show v / 2 ^ 15 * 2 ^ 15 + v % 2 ^ 15 = v by omega, hchecked]

end Cbor
