import Mathlib.Data.List.GetD
import TinyGoDriver.Go.Bits

/-!
# Splitting a block at its runs

`splitRuns` cuts a block at the runs that are worth a block of their own.  It looks for a byte that
is like its successor with words: a word against itself one byte over has a zero byte there, and the
lowest flag of the zero-byte test is the first such byte.  What it passes over are runs of one byte,
so the spans are those of a scan that looks at one maximal run after the other (`naive`).
-/

namespace Zstd

open GoRt List

structure Span where
  start : ℕ
  stop : ℕ
  run : Bool
  deriving DecidableEq, Repr

/-- A word of `n` bytes `b`: `ones` and `high`. -/
def repeated (n : ℕ) (b : UInt8) : ℕ := leNat (List.replicate n b)

/-- `(x - ones) &^ x & high`, over `n` bytes -/
def zeroFlags (n x : ℕ) : ℕ :=
  (x + (2 ^ (8 * n) - repeated n 1)) % 2 ^ (8 * n) &&& (2 ^ (8 * n) - 1 - x) &&& repeated n 0x80

/-- `bits.TrailingZeros`, over `w` bits -/
def trailingZeros : ℕ → ℕ → ℕ
  | 0, _ => 0
  | w + 1, m => if m % 2 = 1 then 0 else trailingZeros w (m / 2) + 1

/-- `binary.LittleEndian.Uint64(p[i:])` -/
def word (p : List UInt8) (i : ℕ) : ℕ := leNat ((p.drop i).take 8)

/-- The loop over two words at a time. -/
def skipPairs (p : List UInt8) (start : ℕ) : ℕ :=
  if start + 17 ≤ p.length then
    let w₀ := word p start
    let w₁ := word p (start + 8)
    let x₀ := w₀ ^^^ (w₀ >>> 8 ||| w₁ <<< 56 % 2 ^ 64)
    let x₁ := w₁ ^^^ (w₁ >>> 8 ||| (p.getD (start + 16) 0).toNat <<< 56 % 2 ^ 64)
    let m₀ := zeroFlags 8 x₀
    let m₁ := zeroFlags 8 x₁
    if m₀ ||| m₁ ≠ 0 then
      if m₀ ≠ 0 then start + trailingZeros 64 m₀ >>> 3
      else start + (8 + trailingZeros 64 m₁ >>> 3)
    else
      skipPairs p (start + 16)
  else
    start
termination_by p.length - start

/-- The loop over one word at a time. -/
def skipWords (p : List UInt8) (start : ℕ) : ℕ :=
  if start + 9 ≤ p.length then
    let m := zeroFlags 8 (word p start ^^^ word p (start + 1))
    if m ≠ 0 then start + trailingZeros 64 m >>> 3 else skipWords p (start + 8)
  else
    start
termination_by p.length - start

/-- No byte from `s` on and before `t` is like its successor. -/
structure Skips (p : List UInt8) (s t : ℕ) : Prop where
  le : s ≤ t
  lt : t < p.length
  ne : ∀ i, s ≤ i → i < t → p[i]? ≠ p[i + 1]?

variable {p l : List UInt8} {s t : ℕ}

/-! ### The zero-byte test -/

/-- An operation on bits, by the lowest byte and the others. -/
theorem bytes_of {f : ℕ → ℕ → ℕ} (hdiv : ∀ {a b n : ℕ}, f a b / 2 ^ n = f (a / 2 ^ n) (b / 2 ^ n))
    (hmod : ∀ {a b n : ℕ}, f a b % 2 ^ n = f (a % 2 ^ n) (b % 2 ^ n)) {a b : ℕ} (ha : a < 2 ^ 8)
    (hb : b < 2 ^ 8) (x y : ℕ) :
  f (a + 256 * x) (b + 256 * y) = f a b + 256 * f x y
  := by
  have h := Nat.mod_add_div (f (a + 256 * x) (b + 256 * y)) (2 ^ 8)
  rw [hdiv, hmod, show (a + 256 * x) / 2 ^ 8 = x by omega, show (b + 256 * y) / 2 ^ 8 = y by omega,
    show (a + 256 * x) % 2 ^ 8 = a by omega, show (b + 256 * y) % 2 ^ 8 = b by omega] at h
  exact h.symm

theorem leNat_xor {l m : List UInt8} (h : l.length = m.length) :
  leNat l ^^^ leNat m = leNat (l.zipWith (· ^^^ ·) m)
  := by
  induction l generalizing m with
  | nil =>
    cases m with
    | nil => rfl
    | cons => cases h
  | cons a l ih =>
    cases m with
    | nil => cases h
    | cons b m =>
      rw [leNat_cons, leNat_cons, bytes_of (f := HXor.hXor) Nat.xor_div_two_pow
        Nat.xor_mod_two_pow a.toNat_lt b.toNat_lt, ih (by simpa using h)]
      simp

/-- The flags of a word, by its lowest byte and the others. -/
theorem zeroFlags_succ {n x : ℕ} (b : UInt8) (hx : x < 2 ^ (8 * n)) :
  ∃ q, zeroFlags (n + 1) (b.toNat + 256 * x) = (if b = 0 then 128 else 0) + 256 * q
    ∧ (b ≠ 0 → q = zeroFlags n x)
  := by
  have hb := b.toNat_lt
  have hzero : b = 0 ↔ b.toNat = 0 := by rw [← UInt8.toNat_inj, UInt8.toNat_zero]
  have hones : repeated n 1 < 2 ^ (8 * n) := by
    have := leNat_lt (replicate n 1)
    rwa [length_replicate] at this
  have hpow : 2 ^ (8 * (n + 1)) = 256 * 2 ^ (8 * n) := by ring
  have hone : repeated (n + 1) 1 = 1 + 256 * repeated n 1 := rfl
  have hhigh : repeated (n + 1) 0x80 = 128 + 256 * repeated n 0x80 := rfl
  have hlow : ∀ b < 256, ((b + 255) % 256 &&& (255 - b)) &&& 128 = if b = 0 then 128 else 0 := by
    decide +kernel
  have hand := @bytes_of HAnd.hAnd Nat.and_div_two_pow Nat.and_mod_two_pow
  have hnot : 2 ^ (8 * (n + 1)) - 1 - (b.toNat + 256 * x)
      = (255 - b.toNat) + 256 * (2 ^ (8 * n) - 1 - x) := by omega
  have hdiff : b.toNat + 256 * x + (2 ^ (8 * (n + 1)) - repeated (n + 1) 1)
      = (b.toNat + 255) % 256
        + 256 * (x + (2 ^ (8 * n) - repeated n 1) - if b.toNat = 0 then 1 else 0) := by
    split <;> omega
  have hmod : ∀ y, ((b.toNat + 255) % 256 + 256 * y) % 2 ^ (8 * (n + 1))
      = (b.toNat + 255) % 256 + 256 * (y % 2 ^ (8 * n)) := by
    intro y
    rw [hpow, Nat.mod_mul, Nat.add_mul_mod_self_left, Nat.mod_mod,
      Nat.add_mul_div_left _ _ (by decide), Nat.div_eq_of_lt (by omega), Nat.zero_add]
  rw [zeroFlags, hnot, hhigh, hdiff, hmod, hand (by omega) (by omega),
    hand (Nat.and_lt_two_pow _ (by omega)) (by decide), hlow _ hb]
  simp only [hzero, ne_eq]
  refine ⟨_, rfl, fun hne => ?_⟩
  rw [if_neg hne, Nat.sub_zero, zeroFlags]

/-- The lowest flag is that of the first zero byte. -/
theorem zeroFlags_first (h : 0 ∉ l) (m : List UInt8) :
  ∃ q, zeroFlags (l ++ 0 :: m).length (leNat (l ++ 0 :: m)) = 2 ^ (8 * l.length + 7) * (2 * q + 1)
  := by
  induction l with
  | nil =>
    obtain ⟨q, hq, -⟩ := zeroFlags_succ 0 (leNat_lt m)
    exact ⟨q, hq.trans (by simp; ring)⟩
  | cons b l ih =>
    simp only [mem_cons, not_or] at h
    obtain ⟨q, hq⟩ := ih h.2
    obtain ⟨q', hq', hflags⟩ := zeroFlags_succ b (leNat_lt (l ++ 0 :: m))
    refine ⟨q, hq'.trans ?_⟩
    rw [if_neg (Ne.symm h.1), hflags (Ne.symm h.1), hq, length_cons]
    ring

theorem zeroFlags_none (h : 0 ∉ l) :
  zeroFlags l.length (leNat l) = 0
  := by
  induction l with
  | nil => rfl
  | cons b l ih =>
    simp only [mem_cons, not_or] at h
    obtain ⟨q, hq, hflags⟩ := zeroFlags_succ b (leNat_lt l)
    refine hq.trans ?_
    rw [if_neg (Ne.symm h.1), hflags (Ne.symm h.1), ih h.2]

theorem trailingZeros_eq {k w : ℕ} (h : k < w) (q : ℕ) :
  trailingZeros w (2 ^ k * (2 * q + 1)) = k
  := by
  induction k generalizing w with
  | zero =>
    obtain ⟨w, rfl⟩ := Nat.exists_eq_add_of_lt h
    rw [trailingZeros, if_pos (by omega)]
  | succ k ih =>
    cases w with
    | zero => omega
    | succ w =>
      have hdouble : 2 ^ (k + 1) * (2 * q + 1) = 2 * (2 ^ k * (2 * q + 1)) := by ring
      rw [trailingZeros, hdouble, if_neg (by omega), Nat.mul_div_cancel_left _ two_pos,
        ih (by omega)]

/-! ### What is passed over -/

/-- A word one byte further on, from the word and the byte after it. -/
theorem word_shift (h : s + 9 ≤ p.length) {w : ℕ} (hw : w % 256 = (p.getD (s + 8) 0).toNat) :
  word p s >>> 8 ||| w <<< 56 % 2 ^ 64 = word p (s + 1)
  := by
  have hl : (p.drop s).take 8 = p[s] :: (p.drop (s + 1)).take 7 := by
    rw [drop_eq_getElem_cons (by omega), take_succ_cons]
  have hr : (p.drop (s + 1)).take 8 = (p.drop (s + 1)).take 7 ++ [p[s + 8]] := by
    rw [take_succ_eq_append_getElem (by simp; omega), getElem_drop]
  have hlen : ((p.drop (s + 1)).take 7).length = 7 := by simp; omega
  have hlt := leNat_lt ((p.drop (s + 1)).take 7)
  have hmod : w <<< 56 % 2 ^ 64 = (w % 256) <<< 56 := by
    omega
  have hb := p[s].toNat_lt
  rw [getD_eq_getElem p _ (by omega)] at hw
  rw [hlen] at hlt
  rw [word, word, hl, hr, leNat_cons, leNat_append, hlen, hmod, hw, Nat.shiftRight_eq_div_pow,
    show (p[s].toNat + 256 * leNat ((p.drop (s + 1)).take 7)) / 2 ^ 8
      = leNat ((p.drop (s + 1)).take 7) by omega, or_shiftLeft hlt]
  rfl

/-- What the flags of a word against itself one byte over say. -/
theorem word_skips (h : s + 9 ≤ p.length) {m : ℕ}
    (hm : zeroFlags 8 (word p s ^^^ word p (s + 1)) = m) :
  Skips p s (if m = 0 then s + 8 else s + trailingZeros 64 m >>> 3)
  := by
  have hlen : ((p.drop s).take 8).length = 8 ∧ ((p.drop (s + 1)).take 8).length = 8 := by
    simp
    omega
  rw [word, word, leNat_xor (hlen.1.trans hlen.2.symm)] at hm
  generalize hd : ((p.drop s).take 8).zipWith (· ^^^ ·) ((p.drop (s + 1)).take 8) = d at hm
  have hlend : d.length = 8 := by rw [← hd, length_zipWith, hlen.1, hlen.2, min_self]
  have hskips : ∀ k ≤ 8, 0 ∉ d.take k → Skips p s (s + k) := by
    intro k hk hnot
    refine ⟨by omega, by omega, fun i hi hik heq => hnot ?_⟩
    obtain ⟨i, rfl⟩ := Nat.exists_eq_add_of_le hi
    rw [getElem?_eq_getElem (by omega), getElem?_eq_getElem (by omega), Option.some_inj] at heq
    refine mem_take_iff_getElem.mpr ⟨i, by omega, ?_⟩
    subst hd
    simp [heq, Nat.add_right_comm s 1]
  by_cases hzero : 0 ∈ d
  · obtain ⟨a, c, rfl, ha⟩ := eq_append_cons_of_mem hzero
    obtain ⟨q, hq⟩ := zeroFlags_first ha c
    rw [hlend, hm] at hq
    rw [length_append, length_cons] at hlend
    rw [if_neg (by rw [hq]; positivity), hq, trailingZeros_eq (by omega),
      Nat.shiftRight_eq_div_pow, show (8 * a.length + 7) / 2 ^ 3 = a.length by omega]
    exact hskips _ (by omega) (by rwa [take_left])
  · rw [← hlend, zeroFlags_none hzero] at hm
    rw [if_pos hm.symm]
    exact hskips 8 le_rfl (fun h => hzero (mem_of_mem_take h))

theorem Skips.trans {u : ℕ} (h : Skips p s t) (h' : Skips p t u) :
  Skips p s u
  := by
  refine ⟨h.le.trans h'.le, h'.lt, fun i hi hu => ?_⟩
  by_cases hit : i < t
  · exact h.ne i hi hit
  · exact h'.ne i (by omega) hu

theorem skipWords_skips {s : ℕ} (h : s < p.length) :
  Skips p s (skipWords p s)
  := by
  rw [skipWords]
  split
  · rename_i hs
    have hskips := word_skips hs rfl
    simp only
    split
    · rename_i hm
      rwa [if_neg hm] at hskips
    · rename_i hm
      rw [if_pos (not_not.mp hm)] at hskips
      exact hskips.trans (skipWords_skips (by omega))
  · exact ⟨le_rfl, h, by omega⟩
termination_by p.length - s

theorem skipPairs_skips {s : ℕ} (h : s < p.length) :
  Skips p s (skipPairs p s)
  := by
  rw [skipPairs]
  split
  · rename_i hs
    have hw : word p (s + 8) % 256 = (p.getD (s + 8) 0).toNat := by
      rw [word, drop_eq_getElem_cons (by omega), take_succ_cons, leNat_cons,
        getD_eq_getElem p _ (by omega)]
      have := p[s + 8].toNat_lt
      omega
    have hb := (p.getD (s + 8 + 8) 0).toNat_lt
    have hskips := @word_skips p s (by omega) _ rfl
    have hskips' := @word_skips p (s + 8) (by omega) _ rfl
    simp only [word_shift (by omega) hw, @word_shift p (s + 8) (by omega) _ (Nat.mod_eq_of_lt hb)]
    generalize zeroFlags 8 (word p s ^^^ word p (s + 1)) = m₀ at hskips ⊢
    generalize zeroFlags 8 (word p (s + 8) ^^^ word p (s + 8 + 1)) = m₁ at hskips' ⊢
    by_cases h₀ : m₀ = 0
    · rw [if_pos h₀] at hskips
      by_cases h₁ : m₁ = 0
      · rw [if_pos h₁] at hskips'
        rw [h₀, h₁, if_neg (by decide)]
        exact (hskips.trans hskips').trans (skipPairs_skips (by omega))
      · rw [if_neg h₁] at hskips'
        rw [h₀, Nat.zero_or, if_pos h₁, if_neg (by decide), ← Nat.add_assoc]
        exact hskips.trans hskips'
    · rw [if_neg h₀] at hskips
      rwa [if_pos (fun h => h₀ (Nat.or_eq_zero_iff.mp h).1), if_pos h₀]
  · exact ⟨le_rfl, h, by omega⟩
termination_by p.length - s

theorem skips_start (h : s < p.length) :
  Skips p s (skipWords p (skipPairs p s))
  := (skipPairs_skips h).trans (skipWords_skips (skipPairs_skips h).lt)

/-! ### Spans -/

/-- The end of the run at `start`. -/
def runEnd (p : List UInt8) (start : ℕ) : ℕ :=
  start + 1 + ((p.drop (start + 1)).takeWhile (· == p.getD start 0)).length

def minRun (n start stop : ℕ) : ℕ := if start = 0 ∨ stop = n then 5 else 8

/-- The raw stretch before a run or before the end, and its size. -/
def rawSpan (rawStart start : ℕ) : List Span × ℕ :=
  if rawStart ≠ start then ([⟨rawStart, start, false⟩], 3 + (start - rawStart)) else ([], 0)

/-- The loop of `splitRuns`. -/
def splitLoop (p : List UInt8) (spans : List Span) (size rawStart start : ℕ) :
    List Span × ℕ × Bool :=
  if start < p.length then
    let start' := skipWords p (skipPairs p start)
    let stop := runEnd p start'
    if start' = 0 ∧ stop = p.length then
      (spans, 4, true)
    else if minRun p.length start' stop ≤ stop - start' then
      let (raw, n) := rawSpan rawStart start'
      splitLoop p (spans ++ raw ++ [⟨start', stop, true⟩]) (size + n + 4) stop stop
    else
      splitLoop p spans size rawStart stop
  else
    let (raw, n) := rawSpan rawStart p.length
    (spans ++ raw, size + n, false)
termination_by p.length - start
decreasing_by
  all_goals
    have := (skips_start ‹_›).le
    simp only [runEnd]
    omega

def splitRuns (p : List UInt8) (spans : List Span) : List Span × ℕ × Bool :=
  splitLoop p spans 0 0 0

/-- The lengths of the maximal runs. -/
def runs : List UInt8 → List ℕ
  | [] => []
  | c :: l => (1 + (l.takeWhile (· == c)).length) :: runs (l.dropWhile (· == c))
termination_by l => l.length
decreasing_by
  have := (List.dropWhile_sublist (· == c) (l := l)).length_le
  simp only [List.length_cons]
  omega

/-- The spans of a block of `n` bytes of which the runs from `start` on are left, when every run is
looked at. -/
def naive (n : ℕ) : ℕ → ℕ → List ℕ → List Span
  | rawStart, _, [] => (rawSpan rawStart n).1
  | rawStart, start, r :: rs =>
    if minRun n start (start + r) ≤ r then
      (rawSpan rawStart start).1 ++ ⟨start, start + r, true⟩
        :: naive n (start + r) (start + r) rs
    else
      naive n rawStart (start + r) rs

/-- The spans cover what is between `a` and `b`, one after the other. -/
def Partition : ℕ → ℕ → List Span → Prop
  | a, b, [] => a = b
  | a, b, s :: l => s.start = a ∧ a < s.stop ∧ Partition s.stop b l

/-- The size of a block that is emitted for a span. -/
def Span.size (s : Span) : ℕ := if s.run then 4 else 3 + (s.stop - s.start)

def totalSize (l : List Span) : ℕ := (l.map Span.size).sum

theorem totalSize_rawSpan (a b : ℕ) :
  totalSize (rawSpan a b).1 = (rawSpan a b).2
  := by
  rw [rawSpan]
  split <;> rfl

/-- The run at `s`, and those after it. -/
theorem runs_drop (h : s < p.length) :
  runs (p.drop s) = (runEnd p s - s) :: runs (p.drop (runEnd p s))
  := by
  have hdrop : ∀ l : List UInt8,
      l.dropWhile (· == p[s]) = l.drop (l.takeWhile (· == p[s])).length := by
    intro l
    nth_rewrite 3 [← takeWhile_append_dropWhile (l := l)]
    rw [drop_left]
  rw [drop_eq_getElem_cons h, runs, hdrop, drop_drop, runEnd, getD_eq_getElem p _ h]
  congr 1
  omega

theorem Skips.runEnd_eq (h : Skips p s t) (hlt : s < t) :
  runEnd p s = s + 1
  := by
  have hne := h.ne s le_rfl hlt
  have := h.lt
  rw [getElem?_eq_getElem (by omega), getElem?_eq_getElem (by omega), ne_eq,
    Option.some_inj, eq_comm] at hne
  rw [runEnd, drop_eq_getElem_cons (by omega), getD_eq_getElem p _ (by omega),
    takeWhile_cons_of_neg (by simpa using hne)]
  rfl

/-- What is passed over are runs of one byte, which make no spans. -/
theorem Skips.naive_eq (h : Skips p s t) (n rawStart : ℕ) :
  naive n rawStart s (runs (p.drop s)) = naive n rawStart t (runs (p.drop t))
  := by
  obtain ⟨k, rfl⟩ := Nat.exists_eq_add_of_le h.le
  induction k generalizing s with
  | zero => rfl
  | succ k ih =>
    have hnext : Skips p (s + 1) (s + 1 + k) :=
      ⟨by omega, by have := h.lt; omega, fun i hi hk => h.ne i (by omega) (by omega)⟩
    have hlt := h.lt
    rw [runs_drop (by omega), h.runEnd_eq (by omega), Nat.add_sub_cancel_left, naive, if_neg,
      ih hnext, Nat.add_right_comm]
    · rfl
    · rw [minRun]
      split <;> omega

/-- Unless the block is one run, the loop makes the spans of the runs that are left. -/
theorem splitLoop_eq (p : List UInt8) (spans : List Span) (size rawStart start : ℕ)
    (h : start ≠ 0 ∨ (runs p).length ≠ 1) :
  splitLoop p spans size rawStart start
    = (spans ++ naive p.length rawStart start (runs (p.drop start)),
      size + totalSize (naive p.length rawStart start (runs (p.drop start))), false)
  := by
  rw [splitLoop]
  split
  · rename_i hlt
    have hskips := skips_start hlt
    dsimp only
    rw [hskips.naive_eq]
    generalize skipWords p (skipPairs p start) = start' at hskips ⊢
    have hruns := runs_drop hskips.lt
    have hstop : start' < runEnd p start' := by
      rw [runEnd]
      omega
    have hnot : ¬ (start' = 0 ∧ runEnd p start' = p.length) := by
      rintro ⟨rfl, hend⟩
      rw [hend, drop_length, runs, drop_zero] at hruns
      rcases h with h | h
      · have := hskips.le
        omega
      · exact h (by rw [hruns]; rfl)
    generalize runEnd p start' = stop at hruns hstop hnot ⊢
    rw [hruns, naive, show start' + (stop - start') = stop by omega, if_neg hnot]
    split
    · rw [splitLoop_eq p _ _ _ stop (.inl (by omega))]
      simp [totalSize, ← totalSize_rawSpan, Span.size]
      omega
    · exact splitLoop_eq p _ _ _ stop (.inl (by omega))
  · rename_i hge
    rw [drop_of_length_le (by omega), runs, naive, totalSize_rawSpan]
termination_by p.length - start
decreasing_by
  all_goals
    have := hskips.le
    omega

theorem runs_spec (l : List UInt8) :
  (runs l).sum = l.length ∧ ∀ r ∈ runs l, 0 < r
  := by
  fun_induction runs l with
  | case1 => simp
  | case2 c l ih =>
    have := congrArg length (@takeWhile_append_dropWhile _ (· == c) l)
    rw [length_append] at this
    refine ⟨?_, forall_mem_cons.mpr ⟨by omega, ih.2⟩⟩
    rw [sum_cons, ih.1, length_cons]
    omega

theorem runEnd_zero (h : (runs p).length = 1) :
  runEnd p 0 = p.length ∧ 0 < p.length
  := by
  obtain ⟨r, hr⟩ := length_eq_one_iff.mp h
  obtain ⟨hsum, hpos⟩ := runs_spec p
  rw [hr, sum_singleton] at hsum
  have hlt : 0 < p.length := by
    rw [← hsum]
    exact hpos r (by simp [hr])
  have hruns := runs_drop hlt
  rw [drop_zero, hr, Nat.sub_zero] at hruns
  exact ⟨(cons.inj hruns).1.symm.trans hsum, hlt⟩

theorem Partition.rawSpan_append {a b c : ℕ} {l : List Span} (h : a ≤ b) (hl : Partition b c l) :
  Partition a c ((rawSpan a b).1 ++ l)
  := by
  rw [rawSpan]
  split
  · exact ⟨rfl, by simp only; omega, hl⟩
  · rename_i heq
    rwa [not_not.mp heq]

/-- An interior run takes back what a second raw block costs. -/
theorem naive_spec {n rawStart start : ℕ} {rs : List ℕ} (hraw : rawStart ≤ start)
    (hsum : start + rs.sum = n) (hpos : ∀ r ∈ rs, 0 < r) :
  Partition rawStart n (naive n rawStart start rs)
    ∧ totalSize (naive n rawStart start rs) + rawStart ≤ n + if rawStart = n then 0 else 3
  := by
  induction rs generalizing rawStart start with
  | nil =>
    rw [sum_nil, Nat.add_zero] at hsum
    subst hsum
    rw [naive, totalSize_rawSpan, ← append_nil (rawSpan rawStart start).1]
    refine ⟨Partition.rawSpan_append hraw rfl, ?_⟩
    by_cases heq : rawStart = start
    · simp [rawSpan, heq]
    · simp only [rawSpan, ne_eq, heq, not_false_eq_true, if_true, if_false]
      omega
  | cons r rs ih =>
    have hr := hpos r (by simp)
    rw [sum_cons] at hsum
    rw [naive]
    split
    · rename_i hmin
      obtain ⟨hpart, hsize⟩ := @ih (start + r) (start + r) le_rfl (by omega)
        (fun r hr => hpos r (by simp [hr]))
      refine ⟨Partition.rawSpan_append hraw ⟨rfl, by simp only; omega, hpart⟩, ?_⟩
      rw [totalSize, map_append, sum_append, ← totalSize, totalSize_rawSpan,
        map_cons, sum_cons, ← totalSize, rawSpan]
      simp only [minRun, Span.size, if_true] at hmin ⊢
      split at hmin <;> split at hsize <;> split <;> split <;> simp only <;> omega
    · obtain ⟨hpart, hsize⟩ := @ih rawStart (start + r) (by omega) (by omega)
        (fun r hr => hpos r (by simp [hr]))
      exact ⟨hpart, hsize⟩

/-- The loop returns from its first run. -/
theorem splitRuns_of_one (h : (runs p).length = 1) (spans : List Span) :
  splitRuns p spans = (spans, 4, true)
  := by
  obtain ⟨hend, hlt⟩ := runEnd_zero h
  have hskips := skips_start hlt
  have hzero : skipWords p (skipPairs p 0) = 0 := by
    by_contra hne
    have := hskips.runEnd_eq (Nat.pos_of_ne_zero hne)
    have := hskips.lt
    omega
  rw [splitRuns, splitLoop, if_pos hlt]
  rw [hzero, if_pos ⟨rfl, hend⟩]

/-- The spans of a block are those of a scan that looks at every maximal run, they cut the block
into pieces, and their size is what they say and at most three more than the block.  A block that is
one run is left to the caller. -/
theorem splitRuns_eq_naive (p : List UInt8) (spans : List Span) :
  splitRuns p spans
      = (if (runs p).length = 1 then (spans, 4, true)
        else (spans ++ naive p.length 0 0 (runs p), totalSize (naive p.length 0 0 (runs p)), false))
    ∧ Partition 0 p.length (naive p.length 0 0 (runs p))
    ∧ (splitRuns p spans).2.1 ≤ p.length + 3
  := by
  obtain ⟨hpart, hsize⟩ := @naive_spec p.length 0 0 (runs p) le_rfl
    (by rw [(runs_spec p).1, Nat.zero_add]) (runs_spec p).2
  by_cases hone : (runs p).length = 1
  · have := (runEnd_zero hone).2
    rw [if_pos hone, splitRuns_of_one hone]
    exact ⟨rfl, hpart, by simp only; omega⟩
  · rw [if_neg hone, splitRuns, splitLoop_eq p spans 0 0 0 (.inr hone), drop_zero, Nat.zero_add]
    exact ⟨rfl, hpart, by split at hsize <;> simp only <;> omega⟩

/-- A block of two equal bytes has no span that cuts it, and the size of a run that is below every
threshold. -/
theorem splitRuns_one_run :
  splitRuns [0, 0] [] = ([], 4, true) ∧ ¬ Partition 0 2 []
    ∧ naive 2 0 0 (runs [0, 0]) = [⟨0, 2, false⟩] ∧ totalSize [⟨0, 2, false⟩] = 5
  := by
  have hruns : runs [0, 0] = [2] := by simp [runs]
  rw [hruns]
  exact ⟨splitRuns_of_one (by rw [hruns]; rfl) [], by simp [Partition], by decide, by decide⟩

end Zstd
