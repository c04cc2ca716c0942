import TinyGoDriver.Go.Relational
import TinyGoDriver.Go.Bits

/-!
# The vocabulary of `encoding/cbor`

The errors of the package, its options with their defaults, the kinds of tokens, and the two
orders of map keys.  Machine integers are those of a 64-bit machine: a `uint64` is a natural
number, and an option is an `Int64`, which may be negative until `normalizeDecoderOptions` has seen
it.

The options a decoder works with (`Limits`) are the ones that `normalizeDecoderOptions` returns,
so that they carry what it has checked.
-/

namespace Cbor

open GoRt

/-- `maxSliceLen`, the largest `int`. -/
def maxSliceLen : ℕ := 2 ^ 63 - 1

inductive KeyOrder where
  /-- `LengthFirstKeyOrder` -/
  | lengthFirst
  /-- `BytewiseKeyOrder` -/
  | bytewise
  deriving DecidableEq, Repr

inductive TokenKind where
  | invalidToken
  | unsignedInteger
  | negativeInteger
  | byteString
  | textString
  | startArray
  | endArray
  | startMap
  | endMap
  | boolean
  | null
  | tag
  | float
  deriving DecidableEq, Repr

/-! ### Errors -/

/-- What an `ErrMalformed` says after the colon. -/
inductive Malformed where
  /-- `reserved additional information %d` -/
  | reserved (ai : ℕ)
  /-- `unexpected break` -/
  | unexpectedBreak
  /-- `tag without content` -/
  | tagWithoutContent
  /-- `map break after key` -/
  | mapBreakAfterKey
  /-- `invalid indefinite item` -/
  | invalidIndefinite
  /-- `invalid indefinite string chunk` -/
  | invalidChunk
  /-- `invalid UTF-8` -/
  | invalidUtf8
  /-- `container already complete` -/
  | containerComplete
  /-- `unsupported simple value %d` -/
  | unsupportedSimple (ai : ℕ)
  /-- `%d cannot begin a map key` -/
  | cannotBeginKey (ai : ℕ)
  /-- `invalid major type` -/
  | invalidMajor
  /-- `indefinite or reserved encoding` -/
  | indefiniteOrReserved
  /-- `non-minimal argument` -/
  | nonMinimal
  /-- `map keys are not in %s order` -/
  | keyOrder (o : KeyOrder)
  /-- `non-canonical NaN` -/
  | nonCanonicalNaN
  /-- `float is not shortest` -/
  | floatNotShortest
  deriving DecidableEq, Repr

/-- What an `ErrLimitExceeded` says after the colon. -/
inductive Limit where
  /-- `input bytes` -/
  | inputBytes
  /-- `raw message bytes` -/
  | rawMessageBytes
  /-- `item length` -/
  | itemLength
  /-- `string bytes` -/
  | stringBytes
  /-- `container items` -/
  | containerItems
  /-- `array items` -/
  | arrayItems
  /-- `map pairs` -/
  | mapPairs
  /-- `nesting depth` -/
  | nestingDepth
  deriving DecidableEq, Repr

/-- What a profile does not permit. -/
inductive Refusal where
  /-- `indefinite lengths` -/
  | indefiniteLengths
  /-- `maps` -/
  | maps
  /-- `tags` -/
  | tags
  /-- `text keys` -/
  | textKeys
  deriving DecidableEq, Repr

/-- What an `ErrUnexpectedToken` says after the colon. -/
inductive Unexpected where
  /-- `got major type %d, want %s` -/
  | major (got : ℕ) (want : TokenKind)
  /-- `got major type %d, want integer` -/
  | notInteger (got : ℕ)
  /-- `want boolean` -/
  | notBoolean
  /-- `want null` -/
  | notNull
  /-- `want float` -/
  | notFloat
  /-- `want break` -/
  | notBreak
  /-- `indefinite string cannot be borrowed` -/
  | notContiguous
  deriving DecidableEq, Repr

/-- The errors of the package. -/
inductive Err where
  /-- `io.EOF` -/
  | eof
  /-- `ErrMalformed` -/
  | malformed (why : Malformed)
  /-- `ErrTruncated` -/
  | truncated
  /-- `ErrLimitExceeded` -/
  | limitExceeded (what : Limit)
  /-- `ErrDuplicateMapKey` -/
  | duplicateMapKey
  /-- `ErrExtraneousData` -/
  | extraneousData
  /-- `ErrUnexpectedToken` -/
  | unexpectedToken (why : Unexpected)
  /-- `ErrIntegerOverflow`, of a sized read with `%d does not fit int%d` -/
  | integerOverflow (detail : Option (ℤ × ℕ))
  /-- `ErrProfileViolation`, `the %s profile does not permit %s` -/
  | profileViolation (name : List UInt8) (what : Refusal)
  /-- `ErrFloatRefused` -/
  | floatRefused
  /-- `cbor: limits must not be negative` -/
  | negativeLimits
  /-- `cbor: MaxContainerItems is too large` -/
  | containerItemsTooLarge
  /-- `cbor: ReadRaw cannot follow a partial token stream` -/
  | partialTokenStream
  deriving DecidableEq, Repr

/-- `Error`, an error with the offset where the failing item began.  The route to it is left out. -/
structure Failure where
  offset : Option ℕ
  err : Err
  deriving DecidableEq, Repr

/-- An error without a position. -/
def Failure.plain (e : Err) : Failure := ⟨none, e⟩

def Failure.at (offset : ℕ) (f : Failure) : Failure :=
  match f.offset with
  | some _ => f
  | none => ⟨some offset, f.err⟩

/-! ### Options -/

structure DecoderOptions where
  maxInputBytes : Int64
  maxNestedLevels : Int64
  maxContainerItems : Int64
  maxStringBytes : Int64
  maxRawMessageBytes : Int64
  rejectDuplicateMapKeys : Bool
  sequence : Bool
  rejectFloats : Bool
  deriving DecidableEq, Repr

/-- `DecoderOptions{}` -/
def DecoderOptions.zero : DecoderOptions :=
  ⟨0, 0, 0, 0, 0, false, false, false⟩

/-- `DecoderOptions` as `normalizeDecoderOptions` leaves them. -/
structure Limits where
  maxInputBytes : ℕ
  maxNestedLevels : ℕ
  maxContainerItems : ℕ
  maxStringBytes : ℕ
  maxRawMessageBytes : ℕ
  rejectDuplicateMapKeys : Bool
  sequence : Bool
  rejectFloats : Bool
  string_le : maxStringBytes ≤ maxSliceLen
  /-- A map counts keys and values separately, and its count still is an `int`. -/
  container_le : maxContainerItems ≤ maxSliceLen / 2
  deriving DecidableEq, Repr

/-- `defaultDecoderOptions` -/
def Limits.default : Limits where
  maxInputBytes := 2 ^ 20
  maxNestedLevels := 10000
  maxContainerItems := 4096
  maxStringBytes := 2 ^ 20
  maxRawMessageBytes := 2 ^ 20
  rejectDuplicateMapKeys := false
  sequence := false
  rejectFloats := false
  string_le := by decide
  container_le := by decide

/-- The default for an option that is zero. -/
def orDefault (v : Int64) (default : ℕ) : ℕ := if v = 0 then default else v.toInt.toNat

theorem orDefault_le (v : Int64) {default : ℕ} (h : default ≤ maxSliceLen) :
  orDefault v default ≤ maxSliceLen
  := by
  rw [orDefault]
  split
  · exact h
  have := v.toInt_lt
  rw [maxSliceLen]
  omega

def normalizeDecoderOptions (o : DecoderOptions) : Go Err Limits :=
  if o.maxInputBytes < 0 ∨ o.maxNestedLevels < 0 ∨ o.maxContainerItems < 0
      ∨ o.maxStringBytes < 0 ∨ o.maxRawMessageBytes < 0 then
    .error (.fail .negativeLimits)
  else if h : orDefault o.maxContainerItems 4096 ≤ maxSliceLen / 2 then
    .ok
      { maxInputBytes := orDefault o.maxInputBytes (2 ^ 20)
        maxNestedLevels := orDefault o.maxNestedLevels 10000
        maxContainerItems := orDefault o.maxContainerItems 4096
        maxStringBytes := orDefault o.maxStringBytes (2 ^ 20)
        maxRawMessageBytes := orDefault o.maxRawMessageBytes (2 ^ 20)
        rejectDuplicateMapKeys := o.rejectDuplicateMapKeys
        sequence := o.sequence
        rejectFloats := o.rejectFloats
        string_le := orDefault_le _ (by decide)
        container_le := h }
  else
    .error (.fail .containerItemsTooLarge)

/-- A `[]byte`.  Its length is an `int`, and no slice takes the whole address space. -/
structure Slice where
  bytes : List UInt8
  length_lt : bytes.length < maxSliceLen
  deriving DecidableEq, Repr

/-! ### The order of keys -/

/-- `KeyOrder.compare` -/
def KeyOrder.compare (o : KeyOrder) (a b : List UInt8) : Ordering :=
  match o with
  | .lengthFirst => (Ord.compare a.length b.length).then (Ord.compare a b)
  | .bytewise => Ord.compare a b

/-- `a` stands strictly before `b`. -/
def KeyOrder.Before (o : KeyOrder) (a b : List UInt8) : Prop := o.compare a b = .lt

instance decidableBefore (o : KeyOrder) (a b : List UInt8) : Decidable (o.Before a b) :=
  inferInstanceAs (Decidable (_ = _))

theorem before_bytewise (a b : List UInt8) :
  KeyOrder.bytewise.Before a b ↔ Ord.compare a b = .lt
  := Iff.rfl

theorem before_lengthFirst (a b : List UInt8) :
  KeyOrder.lengthFirst.Before a b
    ↔ a.length < b.length ∨ (a.length = b.length ∧ Ord.compare a b = .lt)
  := by
  rw [KeyOrder.Before, KeyOrder.compare, Ordering.then_eq_lt, Nat.compare_eq_lt, Nat.compare_eq_eq]

theorem KeyOrder.Before.irrefl (o : KeyOrder) (a : List UInt8) :
  ¬ o.Before a a
  := by
  cases o with
  | lengthFirst => simp [before_lengthFirst]
  | bytewise => simp [before_bytewise]

theorem KeyOrder.Before.trans {o : KeyOrder} {a b c : List UInt8} (hab : o.Before a b)
    (hbc : o.Before b c) :
  o.Before a c
  := by
  cases o with
  | lengthFirst =>
    rw [before_lengthFirst] at *
    rcases hab with hab | ⟨hab, hab'⟩ <;> rcases hbc with hbc | ⟨hbc, hbc'⟩
    · exact .inl (hab.trans hbc)
    · exact .inl (hbc ▸ hab)
    · exact .inl (hab ▸ hbc)
    · exact .inr ⟨hab.trans hbc, Std.TransCmp.lt_trans hab' hbc'⟩
  | bytewise =>
    rw [before_bytewise] at *
    exact Std.TransCmp.lt_trans hab hbc

theorem KeyOrder.Before.asymm {o : KeyOrder} {a b : List UInt8} (hab : o.Before a b) :
  ¬ o.Before b a
  := fun hba => KeyOrder.Before.irrefl o a (hab.trans hba)

end Cbor
