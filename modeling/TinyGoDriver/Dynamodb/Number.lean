import TinyGoDriver.Go.UrlPath
import TinyGoDriver.Lib.Ieee

/-!
# Numbers as attributes

`N` finds the type of its argument by a type switch, which a defined type such as `type F float64`
does not match, whereas `marshalValue` goes by the kind.  A defined type is left to the verb `%d`,
which is meant for integers, and which a type may replace by a method `Format` of its own.

The main result is `n_eq_marshalValue_iff`: the two agree where the verb does apply, or where the
method happens to write the same, and there the text is that of the number.
-/

namespace Dynamodb

open GoRt Ieee.Format

/-- A value of a type that `Number` admits.  The sizes of integers are not told apart, as `int64(n)`
and `uint64(n)` are the same number; floats are given by their bits. -/
inductive Value where
  | int (n : Int64)
  | uint (n : UInt64)
  | float32 (bits : UInt32)
  | float64 (bits : UInt64)

/-- A defined type. -/
structure Defined where
  /-- as `reflect` writes it -/
  name : List UInt8
  /-- what the method `Format`, if there is one, writes for `%d` -/
  format : Option (Value → List UInt8) := none

/-! ### Decimal numerals -/

/-- The text of digits, of which the last one comes first. -/
def ofDigits (ds : List ℕ) : List UInt8 := ds.reverse.map fun d => UInt8.ofNat (0x30 + d)

/-- `strconv.FormatUint` with base 10 -/
def formatUint (n : ℕ) : List UInt8 := ofDigits (if n = 0 then [0] else Nat.digits 10 n)

/-- `strconv.FormatInt` with base 10 -/
def formatInt (n : ℤ) : List UInt8 :=
  if n < 0 then 0x2d :: formatUint n.natAbs else formatUint n.natAbs

/-- The text is a decimal numeral for the number. -/
def Numeral (text : List UInt8) (n : ℤ) : Prop :=
  ∃ ds : List ℕ, ds ≠ [] ∧ (∀ d ∈ ds, d < 10) ∧ n.natAbs = Nat.ofDigits 10 ds
    ∧ text = if n < 0 then 0x2d :: ofDigits ds else ofDigits ds

theorem numeral_formatInt (n : ℤ) :
  Numeral (formatInt n) n
  := by
  refine ⟨if n.natAbs = 0 then [0] else Nat.digits 10 n.natAbs, ?_, ?_, ?_, rfl⟩
  all_goals split
  · simp
  · rwa [Ne, Nat.digits_eq_nil_iff_eq_zero]
  · simp
  · exact fun d => Nat.digits_lt_base (by decide)
  · rwa [Nat.ofDigits_singleton]
  · exact (Nat.ofDigits_digits 10 _).symm

/-! ### `N` and `marshalValue` -/

/-- The value of a `float32` as a `float64`. -/
def widen (bits : UInt32) : ℕ := single.convert double bits.toNat

def Value.Finite : Value → Prop
  | .int _ | .uint _ => True
  | .float32 bits => bits.toNat % single.signBit < single.inf
  | .float64 bits => bits.toNat % double.signBit < double.inf

/-- `strconv.FormatFloat(f, 'g', -1, bitSize)` and `strconv.ParseFloat(text, bitSize)`: the former
writes as many digits as the latter needs to return the number. -/
structure Strconv where
  formatFloat : ℕ → ℕ → List UInt8
  parseFloat : List UInt8 → ℕ → Option ℕ
  exact32 : ∀ bits, (Value.float32 bits).Finite →
    parseFloat (formatFloat (widen bits) 32) 32 = some (widen bits)
  exact64 : ∀ bits, (Value.float64 bits).Finite →
    parseFloat (formatFloat bits.toNat 64) 64 = some bits.toNat

variable (c : Strconv)

/-- The text denotes the number. -/
def Denotes (text : List UInt8) : Value → Prop
  | .int n => Numeral text n.toInt
  | .uint n => Numeral text n.toNat
  | .float32 bits => c.parseFloat text 32 = some (widen bits)
  | .float64 bits => c.parseFloat text 64 = some bits.toNat

/-- What `strconv` makes of a number. -/
def Strconv.text : Value → List UInt8
  | .int n => formatInt n.toInt
  | .uint n => formatUint n.toNat
  | .float32 bits => c.formatFloat (widen bits) 32
  | .float64 bits => c.formatFloat bits.toNat 64

def Value.IsInteger : Value → Bool
  | .int _ | .uint _ => true
  | .float32 _ | .float64 _ => false

/-- `fmt.Sprintf("%d", v)` for a value of a defined type: its own method, or the decimal number, or
for a float the report that the verb is a wrong one. -/
def sprintf (d : Defined) (v : Value) : List UInt8 :=
  match d.format with
  | some format => format v
  | none =>
    if v.IsInteger then c.text v
    else lit "%!d(" ++ d.name ++ lit "=" ++ c.text v ++ lit ")"

/-- `N`: the text of the attribute, with `none` for a predeclared type. -/
def n : Option Defined → Value → List UInt8
  | none, .float32 bits => c.formatFloat (widen bits) 32
  | none, .float64 bits => c.formatFloat bits.toNat 64
  | none, .int n => formatInt n.toInt
  | none, .uint n => formatUint n.toNat
  | some d, v => sprintf c d v

/-- `marshalValue` for the kinds of `Number`: the text of the attribute. -/
def marshalValue : Value → List UInt8
  | .int n => formatInt n.toInt
  | .uint n => formatUint n.toNat
  | .float32 bits => c.formatFloat (widen bits) 32
  | .float64 bits => c.formatFloat bits.toNat 64

theorem marshalValue_eq (v : Value) :
  marshalValue c v = c.text v
  := by
  cases v <;> rfl

/-- The report about the verb is longer than the number. -/
theorem sprintf_eq_iff (d : Defined) (v : Value) :
  sprintf c d v = c.text v
    ↔ match d.format with
      | some format => format v = c.text v
      | none => v.IsInteger = true
  := by
  unfold sprintf
  cases d.format with
  | some format => rfl
  | none =>
    dsimp only
    split
    · rename_i hint
      simp [hint]
    · rename_i hint
      refine iff_of_false (fun h => ?_) hint
      have hlength := congrArg List.length h
      have hclose : (lit ")").length = 1 := rfl
      simp only [List.length_append, hclose] at hlength
      omega

/-- The two encoders agree, and the text denotes the number, if and only if the type is predeclared,
or an integer type without a method `Format`, or one whose method writes what `strconv` does. -/
theorem n_eq_marshalValue_iff (t : Option Defined) (v : Value) :
  (n c t v = marshalValue c v ∧ (v.Finite → Denotes c (n c t v) v))
    ↔ ∀ d ∈ t, match d.format with
      | some format => format v = c.text v
      | none => v.IsInteger = true
  := by
  have hdenotes : v.Finite → Denotes c (marshalValue c v) v := by
    intro hfinite
    cases v with
    | int n => exact numeral_formatInt n.toInt
    | uint n => exact numeral_formatInt n.toNat
    | float32 bits => exact c.exact32 bits hfinite
    | float64 bits => exact c.exact64 bits hfinite
  have hagree : (n c t v = marshalValue c v ∧ (v.Finite → Denotes c (n c t v) v))
      ↔ n c t v = marshalValue c v :=
    and_iff_left_of_imp fun h => h ▸ hdenotes
  rw [hagree, marshalValue_eq]
  cases t with
  | none => cases v <;> simp [n, Strconv.text]
  | some d => simpa [n] using sprintf_eq_iff c d v

/-- A defined integer type, with any two functions that are inverse to each other for floats. -/
theorem n_eq_marshalValue_iff_id :
  let c : Strconv := ⟨fun x _ => List.replicate x 0x30, fun text _ => some text.length,
    fun _ _ => by rw [List.length_replicate], fun _ _ => by rw [List.length_replicate]⟩
  let t := some ⟨lit "main.ID", none⟩
  n c t (.int (-7)) = marshalValue c (.int (-7)) ∧ Denotes c (n c t (.int (-7))) (.int (-7))
  := ((n_eq_marshalValue_iff _ _ (.int (-7))).mpr fun _ h => by cases h; rfl).imp_right
    fun h => h trivial

/-- `N(F(1.5))` is the text `%!d(main.F=1.5)`. -/
theorem n_defined_float :
  let v : Value := .float64 0x3ff8000000000000
  ¬ ∃ c : Strconv, n c (some ⟨lit "main.F", none⟩) v = marshalValue c v
  := by
  rintro v ⟨c, h⟩
  exact Bool.false_ne_true ((sprintf_eq_iff c ⟨lit "main.F", none⟩ v).mp h)

end Dynamodb
