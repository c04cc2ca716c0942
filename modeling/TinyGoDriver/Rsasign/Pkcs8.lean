import TinyGoDriver.Go.Basic

/-!
# Elements of a key file

A key file is read as a few nested elements, each a tag, a length and that many bytes.  The length
is added to the size of its header in an `int`, so the check that the element fits holds what it
promises only where this sum does not wrap.

With 64 bits it cannot, since a length has at most four bytes.  With 32 bits a length just below
`2 ^ 31` passes the check, and slicing panics.  A file is read without a panic, and the parts of an
element lie inside it, if and only if no header that is reached declares such a length
(`pkcs8_safe_iff`).
-/

namespace Rsasign

open GoRt

/-- `ErrBadKey` -/
inductive Err where
  | badKey
  deriving DecidableEq, Repr

def tagInteger : UInt8 := 0x02
def tagOctet : UInt8 := 0x04
def tagSequence : UInt8 := 0x30
def minKeyBits : ℤ := 2048
def maxKeyBits : ℤ := 8192

/-- A value of an `int` of `w` bits. -/
def int (w : ℕ) (x : ℤ) : ℤ := x.bmod (2 ^ w)

variable (w : ℕ)

/-- The loop of `derElement` over the bytes of a length. -/
def lengthBytes (b : List UInt8) : ℕ → Go Err ℤ
  | 0 => .ok 0
  | j + 1 => do
    let n ← lengthBytes b j
    let c ← idx b (2 + j)
    .ok (int w (n * 256 + c.toNat))

/-- The size of the header of an element, and the length that it declares. -/
def declared (b : List UInt8) (n : UInt8) : Go Err (ℕ × ℤ) :=
  if n &&& 0x80 ≠ 0 then
    let count := (n &&& 0x7f).toNat
    if count = 0 ∨ 4 < count ∨ b.length < 2 + count then .error (.fail .badKey)
    else do
      let n ← lengthBytes w b count
      .ok (2 + count, n)
  else .ok (2, n.toNat)

def derElement (b : List UInt8) : Go Err (UInt8 × List UInt8 × List UInt8) :=
  if b.length < 2 then .error (.fail .badKey)
  else do
    let tag ← idx b 0
    let n ← idx b 1
    let (i, n) ← declared w b n
    if n < 0 ∨ b.length < int w (i + n) then .error (.fail .badKey)
    else
      let body ← slice b i (int w (i + n))
      let rest ← slice b (int w (i + n)) b.length
      .ok (tag, body, rest)

/-- An element that must have this tag: its contents, and what follows it. -/
def element (tag : UInt8) (b : List UInt8) : Go Err (List UInt8 × List UInt8) := do
  let (got, body, rest) ← derElement w b
  if got ≠ tag then .error (.fail .badKey) else .ok (body, rest)

def pkcs1FromPKCS8 (der : List UInt8) : Go Err (List UInt8) := do
  let (body, _) ← element w tagSequence der
  let (_, rest) ← element w tagInteger body
  let (_, rest) ← element w tagSequence rest
  let (key, _) ← element w tagOctet rest
  .ok key

def bitLen (b : ℕ) : ℕ := if b = 0 then 0 else bitLen (b >>> 1) + 1
  termination_by b
  decreasing_by
    rw [Nat.shiftRight_one]
    omega

def rsaModulusBits (pkcs1 : List UInt8) : Go Err ℤ := do
  let (body, _) ← element w tagSequence pkcs1
  let (_, rest) ← element w tagInteger body
  let (modulus, _) ← element w tagInteger rest
  match modulus.dropWhile (· = 0) with
  | [] => .error (.fail .badKey)
  | b :: modulus =>
    let bits := int w (modulus.length * 8 + bitLen b.toNat)
    if bits < minKeyBits ∨ maxKeyBits < bits then .error (.fail .badKey) else .ok bits

/-! ### Lengths that do not wrap -/

/-- A big-endian number. -/
def number (l : List UInt8) : ℕ := l.foldl (fun n c => n * 256 + c.toNat) 0

/-- The size of a header and the length that it declares, as numbers of any size. -/
def header : List UInt8 → Option (ℕ × ℕ)
  | _ :: n :: b =>
    let count := (n &&& 0x7f).toNat
    if n &&& 0x80 = 0 then some (2, n.toNat)
    else if count = 0 ∨ 4 < count ∨ b.length < count then none
    else some (2 + count, number (b.take count))
  | _ => none

/-- A length that is an `int`, while its sum with the size of the header is not. -/
def Wraps (b : List UInt8) : Prop :=
  ∃ i n, header b = some (i, n) ∧ n < 2 ^ (w - 1) ∧ 2 ^ (w - 1) ≤ i + n

/-- The contents of an element and what follows it. -/
def parts (b : List UInt8) : Option (List UInt8 × List UInt8) :=
  (header b).bind fun (i, n) =>
    if 2 ^ (w - 1) ≤ n ∨ b.length < i + n then none
    else some ((b.take (i + n)).drop i, b.drop (i + n))

/-- A header wraps on a path through the file, each step of which goes into an element with the
given tag or to what follows it. -/
def WrapsOn : List (UInt8 × Bool) → List UInt8 → Prop
  | [], _ => False
  | (tag, into) :: path, b => Wraps w b ∨ ∃ body rest,
    b.head? = some tag ∧ parts w b = some (body, rest) ∧ WrapsOn path (if into then body else rest)

variable {w : ℕ} {b : List UInt8}

theorem number_lt (l : List UInt8) :
  number l < 256 ^ l.length
  := by
  induction l using List.reverseRecOn with
  | nil => decide
  | append_singleton l c ih =>
    have hbyte := c.toNat_lt
    rw [number, List.foldl_append, List.length_append, pow_add]
    change number l * 256 + c.toNat < 256 ^ l.length * 256
    omega

theorem lengthBytes_eq {l : List UInt8} {tag n : UInt8} {count : ℕ} (h : count ≤ l.length) :
  lengthBytes w (tag :: n :: l) count = .ok (int w (number (l.take count)))
  := by
  induction count with
  | zero => simp [lengthBytes, number, int]
  | succ count ih =>
    have hidx : idx (tag :: n :: l) (2 + count) = (.ok l[count] : Go Err UInt8) := by
      rw [idx_of_lt (by simp; omega)]
      simp [Nat.add_comm 2]
    have hnumber : number (l.take (count + 1)) = number (l.take count) * 256 + l[count].toNat := by
      rw [List.take_add_one, List.getElem?_eq_getElem h, number, List.foldl_append]
      rfl
    rw [lengthBytes, ih (by omega), ok_bind, hidx, ok_bind, hnumber, Nat.cast_add, Nat.cast_mul,
      int, int, int, ← Int.bmod_add_bmod, Int.bmod_mul_bmod, Int.bmod_add_bmod]
    rfl

theorem header_le {i n : ℕ} (h : header b = some (i, n)) :
  i ≤ 6 ∧ i ≤ b.length ∧ n < 2 ^ 32
  := by
  rw [header.eq_def] at h
  split at h
  · rename_i n b
    dsimp only at h
    split at h
    · cases h
      have hbyte := n.toNat_lt
      exact ⟨by decide, by simp, by omega⟩
    split at h
    · cases h
    · rename_i hcount
      rw [not_or, not_or, not_lt, not_lt] at hcount
      obtain ⟨-, hcount, hlen⟩ := hcount
      cases h
      have hlt := number_lt (b.take (n &&& 0x7f).toNat)
      rw [List.length_take_of_le hlen] at hlt
      have hpow : 256 ^ (n &&& 0x7f).toNat ≤ 256 ^ 4 := Nat.pow_le_pow_right (by decide) hcount
      exact ⟨by omega, by simp only [List.length_cons]; omega, by omega⟩
  · cases h

/-- The parts of an element lie inside it, one after the other. -/
theorem parts_inside {body rest : List UInt8} (h : parts w b = some (body, rest)) :
  ∃ header, b = header ++ body ++ rest
  := by
  obtain ⟨⟨i, n⟩, -, h⟩ := Option.bind_eq_some_iff.mp h
  dsimp only at h
  split at h
  · cases h
  · cases h
    have htake : b.take i = (b.take (i + n)).take i := by
      rw [List.take_take, Nat.min_eq_left (by omega)]
    exact ⟨b.take i, by rw [htake, List.take_append_drop, List.take_append_drop]⟩

section Width

variable (hw : w = 32 ∨ w = 64)
include hw

theorem int_eq {x : ℕ} (h : x < 2 ^ (w - 1)) :
  int w x = x
  := by
  rcases hw with rfl | rfl <;> exact Int.bmod_eq_of_le (by omega) (by omega)

theorem int_neg {x : ℕ} (h : 2 ^ (w - 1) ≤ x) (hx : x < 2 ^ w) :
  int w x < 0
  := by
  rcases hw with rfl | rfl <;> rw [int, Int.bmod_def] <;> split <;> omega

/-- What is read before the check is the header. -/
theorem declared_header (tag n : UInt8) (l : List UInt8) :
  declared w (tag :: n :: l) n = match header (tag :: n :: l) with
    | none => .error (.fail .badKey)
    | some (i, m) => .ok (i, int w m)
  := by
  rw [declared, header]
  dsimp only
  by_cases hlong : n &&& 0x80 = 0
  · have hbyte := n.toNat_lt
    rw [if_neg (not_not.mpr hlong), if_pos hlong]
    dsimp only
    rw [int_eq hw (by rcases hw with rfl | rfl <;> omega)]
  rw [if_pos hlong, if_neg hlong]
  by_cases hcount : (n &&& 0x7f).toNat = 0 ∨ 4 < (n &&& 0x7f).toNat ∨ l.length < (n &&& 0x7f).toNat
  · rw [if_pos hcount, if_pos (by simp only [List.length_cons]; omega)]
  · rw [if_neg hcount, if_neg (by simp only [List.length_cons]; omega),
      lengthBytes_eq (by omega)]
    rfl

/-- An element panics where its header wraps, and otherwise has the parts that it should have. -/
theorem derElement_cases (b : List UInt8) :
  (Wraps w b ∧ derElement w b = .error .panic) ∨ ¬ Wraps w b
    ∧ ((parts w b = none ∧ derElement w b = .error (.fail .badKey))
      ∨ ∃ tag body rest, b.head? = some tag ∧ parts w b = some (body, rest)
        ∧ derElement w b = .ok (tag, body, rest))
  := by
  rcases b with _ | ⟨tag, _ | ⟨n, l⟩⟩
  · exact .inr ⟨by simp [Wraps, header], .inl ⟨rfl, rfl⟩⟩
  · exact .inr ⟨by simp [Wraps, header], .inl ⟨rfl, rfl⟩⟩
  have htag : idx (tag :: n :: l) 0 = (.ok tag : Go Err UInt8) := rfl
  have hn : idx (tag :: n :: l) 1 = (.ok n : Go Err UInt8) := rfl
  rw [derElement, if_neg (by simp), htag, hn, ok_bind, ok_bind, declared_header hw]
  generalize hb : tag :: n :: l = b
  have hhead : b.head? = some tag := by rw [← hb, List.head?_cons]
  cases hheader : header b with
  | none => exact .inr ⟨by simp [Wraps, hheader], .inl ⟨by simp [parts, hheader], rfl⟩⟩
  | some r =>
    obtain ⟨i, m⟩ := r
    obtain ⟨hi, hlen, hm⟩ := header_le hheader
    have hwraps : Wraps w b ↔ m < 2 ^ (w - 1) ∧ 2 ^ (w - 1) ≤ i + m := by simp [Wraps, hheader]
    have hparts : parts w b = if 2 ^ (w - 1) ≤ m ∨ b.length < i + m then none
        else some ((b.take (i + m)).drop i, b.drop (i + m)) := by rw [parts, hheader]; rfl
    have hpow : 2 ^ w = 2 ^ (w - 1) * 2 := by rcases hw with rfl | rfl <;> rfl
    have hsix : 6 < 2 ^ (w - 1) := by rcases hw with rfl | rfl <;> decide
    rw [hwraps, hparts]
    dsimp only [ok_bind]
    by_cases hbig : 2 ^ (w - 1) ≤ m
    · have hneg := int_neg hw hbig (by rcases hw with rfl | rfl <;> omega)
      rw [if_pos (.inl hneg), if_pos (.inl hbig)]
      exact .inr ⟨by omega, .inl ⟨rfl, rfl⟩⟩
    rw [int_eq hw (not_le.mp hbig), ← Nat.cast_add]
    by_cases hsum : 2 ^ (w - 1) ≤ i + m
    · have hneg := int_neg hw hsum (by omega)
      refine .inl ⟨⟨by omega, hsum⟩, ?_⟩
      rw [if_neg (by omega), slice, if_neg (by omega)]
      rfl
    rw [int_eq hw (not_le.mp hsum)]
    refine .inr ⟨by omega, ?_⟩
    by_cases hfits : b.length < i + m
    · rw [if_pos (.inr hfits), if_pos (.inr (by omega))]
      exact .inl ⟨rfl, rfl⟩
    · rw [if_neg (by omega), if_neg (by omega), slice_eq_ok (by omega) (by omega),
        slice_eq_ok (by omega) le_rfl, List.take_length]
      exact .inr ⟨tag, _, _, hhead, rfl, rfl⟩

/-- A function that reads an element and goes on in it or after it is safe if and only if nothing
wraps on the way. -/
theorem safe_element_iff {α : Type} {P : α → Prop} {f : List UInt8 × List UInt8 → Go Err α}
    {tag : UInt8} {into : Bool} {path : List (UInt8 × Bool)}
    (hf : ∀ body rest, (∃ header, b = header ++ body ++ rest) →
      (Safe (f (body, rest)) P ↔ ¬ WrapsOn w path (if into then body else rest))) :
  Safe (element w tag b >>= f) P ↔ ¬ WrapsOn w ((tag, into) :: path) b
  := by
  rw [WrapsOn, not_or, element]
  rcases derElement_cases hw b with ⟨hwraps, hder⟩ | ⟨hwraps, ⟨hparts, hder⟩ |
    ⟨got, body, rest, hgot, hparts, hder⟩⟩ <;> rw [hder]
  · exact iff_of_false id fun h => h.1 hwraps
  · exact iff_of_true trivial ⟨hwraps, by simp [hparts]⟩
  · rw [ok_bind]
    by_cases htag : got = tag
    · subst htag
      simp [hwraps, hgot, hparts, hf body rest (parts_inside hparts)]
    · simp [hwraps, hgot, hparts, htag]

end Width

/-- A key file is read without a panic, and what is returned lies inside of what it was read from,
if and only if no header wraps among those that are read; with an `int` of 64 bits none does. -/
theorem pkcs8_safe_iff (hw : w = 32 ∨ w = 64) (b : List UInt8) :
  (Safe (derElement w b) (fun r => ∃ header, b = header ++ r.2.1 ++ r.2.2) ↔ ¬ Wraps w b)
    ∧ (Safe (pkcs1FromPKCS8 w b) (fun key => key <:+: b)
      ↔ ¬ WrapsOn w [(tagSequence, true), (tagInteger, false), (tagSequence, false),
        (tagOctet, true)] b)
    ∧ (Safe (rsaModulusBits w b) (fun bits => minKeyBits ≤ bits ∧ bits ≤ maxKeyBits)
      ↔ ¬ WrapsOn w [(tagSequence, true), (tagInteger, false), (tagInteger, true)] b)
    ∧ ∀ path, ¬ WrapsOn 64 path b
  := by
  refine ⟨?_, ?_, ?_, ?_⟩
  · rcases derElement_cases hw b with ⟨hwraps, hder⟩ | ⟨hwraps, ⟨hparts, hder⟩ |
      ⟨got, body, rest, -, hparts, hder⟩⟩ <;> rw [hder]
    · exact iff_of_false id (not_not.mpr hwraps)
    · exact iff_of_true trivial hwraps
    · exact iff_of_true (parts_inside hparts) hwraps
  · refine safe_element_iff hw fun body rest ⟨_, hb⟩ => ?_
    refine safe_element_iff hw fun body' rest' ⟨_, hb'⟩ => ?_
    refine safe_element_iff hw fun body'' rest'' ⟨_, hb''⟩ => ?_
    refine safe_element_iff hw fun key _ ⟨_, hkey⟩ => ?_
    refine iff_of_true ?_ id
    have hinside : ∀ {p x q y : List UInt8}, y = p ++ x ++ q → x <:+: y ∧ q <:+: y :=
      fun h => ⟨⟨_, _, h.symm⟩, ⟨_, [], (List.append_nil _).trans h.symm⟩⟩
    exact (hinside hkey).1.trans
      ((hinside hb'').2.trans ((hinside hb').2.trans (hinside hb).1))
  · refine safe_element_iff hw fun body rest _ => ?_
    refine safe_element_iff hw fun body' rest' _ => ?_
    refine safe_element_iff hw fun modulus _ _ => iff_of_true ?_ id
    dsimp only
    split
    · exact Safe.fail
    generalize int w _ = bits
    split
    · exact Safe.fail
    · rename_i hbits
      rwa [not_or, not_lt, not_lt] at hbits
  · intro path
    induction path generalizing b with
    | nil => exact id
    | cons step path ih =>
      rintro (⟨i, n, hheader, hn, hsum⟩ | ⟨body, rest, -, -, h⟩)
      · have := header_le hheader
        omega
      · exact ih _ h

/-- With 32 bits, a length of six bytes less is refused. -/
theorem pkcs8_safe_iff_refused :
  Safe (pkcs1FromPKCS8 32 [0x30, 0x84, 0x7f, 0xff, 0xff, 0xf9])
    (· <:+: [0x30, 0x84, 0x7f, 0xff, 0xff, 0xf9])
  := by
  refine (pkcs8_safe_iff (.inl rfl) _).2.1.mpr ?_
  have hheader : header [0x30, 0x84, 0x7f, 0xff, 0xff, 0xf9] = some (6, 2 ^ 31 - 7) := by decide
  rintro (⟨i, n, h, -, hsum⟩ | ⟨body, rest, -, h, -⟩)
  · cases hheader.symm.trans h
    omega
  · simp [parts, hheader] at h

/-- An element of `2 ^ 31 - 1` bytes, with an `int` of 32 bits. -/
theorem pkcs8_wraps :
  pkcs1FromPKCS8 32 [0x30, 0x84, 0x7f, 0xff, 0xff, 0xff] = .error .panic
    ∧ rsaModulusBits 32 [0x30, 0x84, 0x7f, 0xff, 0xff, 0xff] = .error .panic
  := by
  decide +kernel

end Rsasign
