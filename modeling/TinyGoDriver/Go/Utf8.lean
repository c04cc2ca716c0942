import TinyGoDriver.Go.Basic

/-!
# UTF-8

`utf8.Valid` and `utf8.AppendRune`.  A character is a first byte that says how many bytes follow it
and in which range the next one lies, and these bytes.
-/

namespace GoRt

/-- The bytes that may follow the first byte of a character: how many, and the range of the next. -/
def utf8First (b : ℕ) : Option (ℕ × ℕ × ℕ) :=
  if b < 0x80 then some (0, 0, 0)
  else if b < 0xc2 then none
  else if b < 0xe0 then some (1, 0x80, 0xbf)
  else if b = 0xe0 then some (2, 0xa0, 0xbf)
  else if b = 0xed then some (2, 0x80, 0x9f)
  else if b < 0xf0 then some (2, 0x80, 0xbf)
  else if b = 0xf0 then some (3, 0x90, 0xbf)
  else if b < 0xf4 then some (3, 0x80, 0xbf)
  else if b = 0xf4 then some (3, 0x80, 0x8f)
  else none

/-- The continuation of a character of which `n` bytes are missing, the next between `lo` and
`hi`, and the characters after it. -/
def utf8Rest : ℕ → ℕ → ℕ → List UInt8 → Bool
  | 0, _, _, [] => true
  | 0, _, _, b :: l =>
    match utf8First b.toNat with
    | some (n, lo, hi) => utf8Rest n lo hi l
    | none => false
  | _ + 1, _, _, [] => false
  | n + 1, lo, hi, b :: l => lo ≤ b.toNat && b.toNat ≤ hi && utf8Rest n 0x80 0xbf l

/-- `utf8.Valid` -/
def utf8Valid (l : List UInt8) : Bool := utf8Rest 0 0 0 l

/-- `utf8.AppendRune`, of a character that is not a surrogate -/
def appendRune (dst : List UInt8) (r : ℕ) : List UInt8 :=
  if r < 0x80 then
    dst ++ [UInt8.ofNat r]
  else if r < 0x800 then
    dst ++ [UInt8.ofNat (0xc0 + r / 64), UInt8.ofNat (0x80 + r % 64)]
  else if r < 0x10000 then
    dst ++ [UInt8.ofNat (0xe0 + r / 4096), UInt8.ofNat (0x80 + r / 64 % 64),
      UInt8.ofNat (0x80 + r % 64)]
  else
    dst ++ [UInt8.ofNat (0xf0 + r / 262144), UInt8.ofNat (0x80 + r / 4096 % 64),
      UInt8.ofNat (0x80 + r / 64 % 64), UInt8.ofNat (0x80 + r % 64)]

end GoRt
