import Mathlib.Tactic.Ring
import Mathlib.Tactic.Linarith

/-!
# `time.Time`

A time is a number of seconds since the first of January of year 1, which is an `int64`, and
nanoseconds within the second.  `time.Unix` adds the distance of the two epochs and wraps;
`Time.Add` stops at the bounds instead.

A reading of the monotonic clock is left out: it plays a part only in comparisons of two times that
both have one, and what `time.Unix` returns has none.
-/

namespace GoRt

/-- `time.Time` -/
structure Time where
  ext : Int64
  nsec : ℤ
  nonneg : 0 ≤ nsec
  lt_second : nsec < 1000000000

namespace Time

/-- The seconds from year 1 to 1970. -/
def unixToInternal : Int64 := 62135596800

/-- `time.Unix(sec, 0)` -/
def unix (sec : Int64) : Time := ⟨sec + unixToInternal, 0, by decide, by decide⟩

def addSec (ext d : Int64) : Int64 :=
  let sum := ext + d
  if ext < sum ↔ 0 < d then sum else if 0 < d then Int64.maxValue else -Int64.maxValue

/-- `Time.Add` -/
def add (t : Time) (d : Int64) : Time :=
  have := Int.lt_tmod_of_pos d.toInt (b := 1000000000) (by decide)
  have := Int.tmod_lt_of_pos d.toInt (b := 1000000000) (by decide)
  have := t.nonneg
  have := t.lt_second
  let dsec := d / 1000000000
  let nsec := t.nsec + d.toInt.tmod 1000000000
  if h : 1000000000 ≤ nsec then
    ⟨addSec t.ext (dsec + 1), nsec - 1000000000, by omega, by omega⟩
  else if h' : nsec < 0 then
    ⟨addSec t.ext (dsec - 1), nsec + 1000000000, by omega, by omega⟩
  else
    ⟨addSec t.ext dsec, nsec, by omega, by omega⟩

/-- `Time.Before` -/
def before (t u : Time) : Bool := t.ext < u.ext || (t.ext == u.ext && t.nsec < u.nsec)

/-- The nanoseconds since year 1. -/
def instant (t : Time) : ℤ := t.ext.toInt * 1000000000 + t.nsec

/-- The nanoseconds since 1970, before or after. -/
def unixNano (t : Time) : ℤ := t.instant - unixToInternal.toInt * 1000000000

variable {t u : Time} {d : Int64}

theorem before_iff :
  t.before u ↔ t.instant < u.instant
  := by
  have := t.nonneg
  have := t.lt_second
  have := u.nonneg
  have := u.lt_second
  simp only [before, instant, Bool.or_eq_true, Bool.and_eq_true, decide_eq_true_eq, beq_iff_eq,
    Int64.lt_iff_toInt_lt, ← Int64.toInt_inj]
  omega

theorem toInt_add_eq {a b : Int64} (hlo : -2 ^ 63 ≤ a.toInt + b.toInt)
    (hhi : a.toInt + b.toInt < 2 ^ 63) :
  (a + b).toInt = a.toInt + b.toInt
  := by
  rw [Int64.toInt_add]
  apply Int.bmod_eq_of_le <;> omega

/-- `time.Unix` is exact below the end, and beyond it leads back. -/
theorem instant_unix (sec : Int64) :
  (unix sec).instant = (sec.toInt + unixToInternal.toInt
    - if 2 ^ 63 ≤ sec.toInt + unixToInternal.toInt then 2 ^ 64 else 0) * 1000000000
  := by
  have hlo := sec.le_toInt
  have hhi := sec.toInt_lt
  have hepoch : unixToInternal.toInt = 62135596800 := by decide
  rw [instant, unix, Int64.toInt_add, add_zero]
  congr 1
  split
  · rw [← Int.sub_bmod_right]
    apply Int.bmod_eq_of_le <;> omega
  · rw [sub_zero]
    apply Int.bmod_eq_of_le <;> omega

theorem toInt_addSec (ext : Int64) (hd : 0 ≤ d.toInt) :
  (addSec ext d).toInt = min (ext.toInt + d.toInt) (2 ^ 63 - 1)
  := by
  have hlo := ext.le_toInt
  have hhi := ext.toInt_lt
  have hd' := d.toInt_lt
  simp only [addSec, Int64.lt_iff_toInt_lt, Int64.toInt_zero]
  by_cases h : ext.toInt + d.toInt < 2 ^ 63
  · rw [toInt_add_eq (by omega) h, if_pos (by omega), toInt_add_eq (by omega) h]
    omega
  -- The sum is past the end and comes back below `ext`.
  · have hsum : (ext + d).toInt = ext.toInt + d.toInt - 2 ^ 64 := by
      rw [Int64.toInt_add, ← Int.sub_bmod_right]
      apply Int.bmod_eq_of_le <;> omega
    rw [hsum, if_neg (by omega), if_pos (by omega), Int64.toInt_maxValue]
    omega

/-- What is added is the duration, up to the last second there is. -/
theorem add_spec (t : Time) (hd : 0 ≤ d) :
  (t.add d).ext.toInt = min ((t.instant + d.toInt) / 1000000000) (2 ^ 63 - 1)
    ∧ (t.add d).nsec = (t.instant + d.toInt) % 1000000000
  := by
  have hd' : 0 ≤ d.toInt := Int64.le_iff_toInt_le.mp hd
  have hlt := d.toInt_lt
  have := t.nonneg
  have := t.lt_second
  have hdiv : (d / 1000000000).toInt = d.toInt / 1000000000 := by
    rw [Int64.toInt_div_of_ne_right _ _ (by decide), Int.tdiv_eq_ediv_of_nonneg hd']
    rfl
  have hone : (d / 1000000000 + 1).toInt = d.toInt / 1000000000 + 1 := by
    rw [toInt_add_eq, hdiv, Int64.toInt_one] <;> rw [hdiv, Int64.toInt_one] <;> omega
  simp only [add, instant, Int.tmod_eq_emod_of_nonneg hd']
  split
  · dsimp only
    rw [toInt_addSec _ (by omega), hone]
    omega
  · rw [dif_neg (by omega)]
    dsimp only
    rw [toInt_addSec _ (by omega), hdiv]
    omega

end Time

end GoRt
