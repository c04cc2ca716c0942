import TinyGoDriver.Cbor.Types

/-!
# A position in a byte slice

`Reader`, `deterministicParser` and `canonKey` all walk a byte slice with an offset, and each has
its own `take` and `head`; these are the same functions, except that `deterministicParser` refuses
more heads.  A `Cursor` is what the three have in common.  Its offset lies within the slice.

A length read from the input is converted to an `int` and added to the offset.  The sum may
overflow; it is then negative, passes the comparison with the length of the slice, and taking the
slice panics.
-/

namespace Cbor

open GoRt

/-- A position in a byte slice. -/
structure Cursor where
  data : Slice
  off : ℕ
  off_le : off ≤ data.bytes.length
  deriving DecidableEq, Repr

/-- The bytes ahead. -/
def Cursor.rest (c : Cursor) : List UInt8 := c.data.bytes.drop c.off

/-- The beginning of a slice. -/
def Cursor.start (data : Slice) : Cursor := ⟨data, 0, Nat.zero_le _⟩

/-- `int(arg)` -/
def toInt (arg : ℕ) : ℤ := if arg < 2 ^ 63 then arg else arg - 2 ^ 64

/-- `binary.BigEndian.Uint16`, `Uint32` or `Uint64`. -/
def beNat (l : List UInt8) : ℕ := leNat l.reverse

def take (n : ℤ) : GoM Err Cursor (List UInt8) := fun c =>
  if n < 0 then
    .error (.fail .truncated) c
  else if 2 ^ 63 ≤ c.off + n then
    .error .panic c
  else if h : c.off + n.toNat ≤ c.data.bytes.length then
    .ok (c.rest.take n.toNat) ⟨c.data, c.off + n.toNat, h⟩
  else
    .error (.fail .truncated) c

/-- `data[off]` and `off++`, after the check that there is a byte; also `take(1)`. -/
def nextByte : GoM Err Cursor UInt8 := fun c =>
  if h : c.off < c.data.bytes.length then
    .ok c.data.bytes[c.off] ⟨c.data, c.off + 1, h⟩
  else
    .error (.fail .truncated) c

/-- What `head` returns; `indefinite` is whether `ai` is 31. -/
structure Head where
  major : ℕ
  ai : ℕ
  arg : ℕ
  deriving DecidableEq, Repr

def Head.indefinite (h : Head) : Bool := h.ai == 31

/-- `head` after the first byte. -/
def headArg (major ai : ℕ) : GoM Err Cursor Head :=
  if ai < 24 then
    pure ⟨major, ai, ai⟩
  else if ai ≤ 27 then do
    let v ← take (2 ^ (ai - 24) : ℕ)
    pure ⟨major, ai, beNat v⟩
  else if ai = 31 then
    pure ⟨major, ai, 0⟩
  else
    GoM.fail (.malformed (.reserved ai))

def head : GoM Err Cursor Head := do
  let b ← nextByte
  headArg (b.toNat / 32) (b.toNat % 32)

end Cbor
