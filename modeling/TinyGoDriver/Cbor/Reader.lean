import TinyGoDriver.Cbor.Cursor
import TinyGoDriver.Cbor.Float
import TinyGoDriver.Go.Triple
import TinyGoDriver.Go.Utf8

/-!
# `Reader`

The typed reads of `Reader`, and `Skip` and `ReadRaw`.  A `Reader` is a `Cursor` with options.
A read that is refused is to leave the offset where it was.  Several do not: an integer that does
not fit is consumed, and so are a head of an integer or a tag with an indefinite length, a text
string that is not UTF-8, and whatever `Skip` and `ReadRaw` have passed before they fail.
`failed_read_moves` says exactly when.

`skipItem` is called with how many levels `MaxNestedLevels` still allows; the source counts the
depth up instead.
-/

namespace Cbor

open GoRt List GoM

/-- A call whose errors carry no position yet. -/
def unplaced {α : Type} (x : GoM Err Cursor α) : GoM Failure Cursor α := fun c =>
  match x c with
  | .ok a c' => .ok a c'
  | .error e c' => .error (e.map Failure.plain) c'

/-- `return r.at(start, err)`, where `start` is the offset of `c`. -/
def failAt {α : Type} (c : Cursor) (e : Err) : GoM Failure Cursor α :=
  GoM.fail ⟨some c.off, e⟩

/-- `r.off = start` and `return r.at(start, err)`. -/
def refuse {α : Type} (c : Cursor) (e : Err) : GoM Failure Cursor α := do
  set c
  failAt c e

/-- `if err != nil { return r.at(start, err) }` for a call that begins at `start`. -/
def located {α : Type} (x : GoM Failure Cursor α) : GoM Failure Cursor α := fun c =>
  match x c with
  | .ok a c' => .ok a c'
  | .error e c' => .error (e.map (·.at c.off)) c'

/-- `if err != nil { r.off = start; return r.at(start, err) }`. -/
def orRewind {α : Type} (c : Cursor) (x : GoM Err Cursor α) : GoM Failure Cursor α := fun c' =>
  match x c' with
  | .ok a c'' => .ok a c''
  | .error e _ => .error (e.map (fun err => ⟨some c.off, err⟩)) c

/-! ### Heads -/

def expect (want : ℕ) (kind : TokenKind) : GoM Failure Cursor Head := do
  let c ← get
  let h ← orRewind c head
  if h.major ≠ want then
    refuse c (.unexpectedToken (.major h.major kind))
  else
    pure h

/-- The kind of an item by its first byte; there is none for a simple value that is not
supported. -/
def kindOf (major ai : ℕ) : Option TokenKind :=
  match major with
  | 0 => some .unsignedInteger
  | 1 => some .negativeInteger
  | 2 => some .byteString
  | 3 => some .textString
  | 4 => some .startArray
  | 5 => some .startMap
  | 6 => some .tag
  | _ =>
    match ai with
    | 20 | 21 => some .boolean
    | 22 => some .null
    | 25 | 26 | 27 => some .float
    | _ => none

def peek : GoM Failure Cursor TokenKind := do
  let c ← get
  match c.rest with
  | [] => GoM.fail (.plain .truncated)
  | b :: _ =>
    if b = 0xff then
      pure .endArray
    else
      match kindOf (b.toNat / 32) (b.toNat % 32) with
      | some kind => pure kind
      | none => failAt c (.malformed (.unsupportedSimple (b.toNat % 32)))

/-! ### Integers -/

/-- An unsigned argument of major type `major`: `ReadUint` and `ReadTag`. -/
def readArgument (major : ℕ) (kind : TokenKind) : GoM Failure Cursor ℕ := do
  let c ← get
  let h ← expect major kind
  if h.indefinite then
    -- `r.off-1` is where the head of one byte began
    failAt c (.malformed .invalidIndefinite)
  else
    pure h.arg

def readUint : GoM Failure Cursor ℕ := readArgument 0 .unsignedInteger

def readInt : GoM Failure Cursor ℤ := do
  let c ← get
  let h ← orRewind c head
  if h.indefinite ∨ (h.major ≠ 0 ∧ h.major ≠ 1) then
    refuse c (.unexpectedToken (.notInteger h.major))
  else if 2 ^ 63 ≤ h.arg then
    failAt c (.integerOverflow none)
  else if h.major = 1 then
    pure (-1 - h.arg)
  else
    pure h.arg

def readSigned (bits : ℕ) : GoM Failure Cursor ℤ := do
  let c ← get
  let v ← readInt
  if v < -2 ^ (bits - 1) ∨ 2 ^ (bits - 1) - 1 < v then
    failAt c (.integerOverflow (some (v, bits)))
  else
    pure v

def readUnsigned (bits : ℕ) : GoM Failure Cursor ℕ := do
  let c ← get
  let v ← readUint
  if 2 ^ bits - 1 < v then
    failAt c (.integerOverflow (some ((v : ℤ), bits)))
  else
    pure v

/-! ### Strings -/

def readString (o : Limits) (major : ℕ) (kind : TokenKind) : GoM Failure Cursor (List UInt8) := do
  let c ← get
  let h ← expect major kind
  if h.indefinite then
    refuse c (.unexpectedToken .notContiguous)
  else if o.maxStringBytes < h.arg ∨ maxSliceLen < h.arg then
    refuse c (.limitExceeded .stringBytes)
  else
    orRewind c (take (toInt h.arg))

def readBytes (o : Limits) : GoM Failure Cursor (List UInt8) := readString o 2 .byteString

/-- `ReadTextBytes`, and `ReadText`, which copies what it returns. -/
def readTextBytes (o : Limits) : GoM Failure Cursor (List UInt8) := do
  let b ← readString o 3 .textString
  let c ← get
  if utf8Valid b then
    pure b
  else
    GoM.fail ⟨some (c.off - b.length), .malformed .invalidUtf8⟩

/-! ### Simple values -/

def readBool : GoM Failure Cursor Bool := do
  let c ← get
  let h ← orRewind c head
  if h.major ≠ 7 ∨ (h.ai ≠ 20 ∧ h.ai ≠ 21) then
    refuse c (.unexpectedToken .notBoolean)
  else
    pure (h.ai == 21)

def readNull : GoM Failure Cursor Unit := do
  let c ← get
  let h ← orRewind c head
  if h.major ≠ 7 ∨ h.ai ≠ 22 then
    refuse c (.unexpectedToken .notNull)
  else
    pure ()

def readTag : GoM Failure Cursor ℕ := readArgument 6 .tag

/-- `ReadFloat`; `head` has read the bits as the argument. -/
def readFloat (o : Limits) : GoM Failure Cursor ℕ := do
  let c ← get
  let h ← orRewind c head
  if h.major ≠ 7 then
    refuse c (.unexpectedToken .notFloat)
  else if o.rejectFloats then
    refuse c .floatRefused
  else if h.ai = 25 then
    pure (float16 h.arg)
  else if h.ai = 26 then
    pure (float64OfSingle h.arg)
  else if h.ai = 27 then
    pure h.arg
  else
    refuse c (.unexpectedToken .notFloat)

/-! ### Containers -/

/-- `readContainerHeader`; the length of an indefinite container is -1. -/
def readContainerHeader (o : Limits) (major : ℕ) (kind : TokenKind) (perItem : ℕ) :
    GoM Failure Cursor (ℤ × Bool) := do
  let c ← get
  let h ← expect major kind
  if h.indefinite then
    pure (-1, true)
  else if o.maxContainerItems < h.arg then
    refuse c (.limitExceeded .containerItems)
  else if maxSliceLen < h.arg * perItem % 2 ^ 64 then
    refuse c (.limitExceeded .containerItems)
  else
    pure (h.arg, false)

def readArrayHeader (o : Limits) : GoM Failure Cursor (ℤ × Bool) :=
  readContainerHeader o 4 .startArray 1

def readMapHeader (o : Limits) : GoM Failure Cursor (ℤ × Bool) :=
  readContainerHeader o 5 .startMap 2

def readBreak : GoM Failure Cursor Unit := do
  let c ← get
  match c.rest with
  | [] => failAt c .truncated
  | b :: _ =>
    if b ≠ 0xff then
      failAt c (.unexpectedToken .notBreak)
    else
      let _ ← unplaced nextByte
      pure ()

/-! ### Whole items -/

/-- A loop of `n` turns. -/
def times {ε σ : Type} (x : GoM ε σ Unit) : ℕ → GoM ε σ Unit
  | 0 => pure ()
  | n + 1 => do
    x
    times x n

/-- The bytes from one position to a later one. -/
def bytesBetween (c c' : Cursor) : List UInt8 := (c.data.bytes.take c'.off).drop c.off

/-- Whether a key may stand after the key `prev`. -/
def ordered (required : Bool) (o : KeyOrder) (prev : Option (List UInt8)) (k : List UInt8) : Bool :=
  !required || prev.all fun q => o.Before q k

/-- The loop over `n` pairs of a map, each a key and a value.  `inOrder` compares a key with the one
before it; a key that is out of order is refused with `refusal`. -/
def pairs {ε : Type} (key value : GoM ε Cursor Unit)
    (inOrder : Option (List UInt8) → List UInt8 → Bool) (refusal : Cursor → ε) :
    Option (List UInt8) → ℕ → GoM ε Cursor Unit
  | _, 0 => pure ()
  | prev, n + 1 => do
    let c ← get
    key
    let c' ← get
    if inOrder prev (bytesBetween c c') then
      value
      pairs key value inOrder refusal (some (bytesBetween c c')) n
    else
      GoM.fail (refusal c)

/-- Whether the next byte is a break, which is then taken. -/
def atBreak : GoM Err Cursor Bool := do
  let c ← get
  let b ← nextByte
  if b = 0xff then
    pure true
  else
    set c
    pure false

/-- Turns of a loop up to the break that ends it, of which `room` are allowed. -/
def untilBreak (x : GoM Failure Cursor Unit) : ℕ → GoM Failure Cursor Unit
  | 0 => do
    if ← unplaced atBreak then
      pure ()
    else
      GoM.fail (.plain (.limitExceeded .containerItems))
  | room + 1 => do
    if ← unplaced atBreak then
      pure ()
    else
      x
      untilBreak x room

/-- The loop of `skipString` over the chunks of a string, of which `total` bytes have been
passed.  Every turn takes a byte, so that `fuel` is the number of bytes ahead. -/
def skipChunks (o : Limits) (major : ℕ) : ℕ → ℕ → GoM Err Cursor Unit
  | 0, _ => fun c => .error .diverge c
  | fuel + 1, total => do
    if ← atBreak then
      pure ()
    else
      let h ← head
      if h.indefinite ∨ h.major ≠ major then
        GoM.fail (.malformed .invalidChunk)
      else if o.maxStringBytes < (total + h.arg) % 2 ^ 64 ∨ maxSliceLen < h.arg then
        GoM.fail (.limitExceeded .stringBytes)
      else
        let _ ← take (toInt h.arg)
        skipChunks o major fuel ((total + h.arg) % 2 ^ 64)

def skipString (o : Limits) (h : Head) : GoM Err Cursor Unit := do
  if h.indefinite then
    let c ← get
    skipChunks o h.major (c.rest.length + 1) 0
  else if o.maxStringBytes < h.arg ∨ maxSliceLen < h.arg then
    GoM.fail (.limitExceeded .stringBytes)
  else
    let _ ← take (toInt h.arg)
    pure ()

/-- `skipContainer`, with `item` for `skipItem(depth + 1)`. -/
def skipContainer (o : Limits) (item : GoM Failure Cursor Unit) (h : Head) (perItem : ℕ) :
    GoM Failure Cursor Unit :=
  if h.indefinite then
    untilBreak (times item perItem) o.maxContainerItems
  else if o.maxContainerItems < h.arg then
    GoM.fail (.plain (.limitExceeded .containerItems))
  else
    times item (h.arg * perItem)

/-- `skipItemAt` after the head, with `item` for `skipItem(depth + 1)`. -/
def skipBody (o : Limits) (item : GoM Failure Cursor Unit) (h : Head) : GoM Failure Cursor Unit :=
  match h.major with
  | 0 | 1 => if h.indefinite then GoM.fail (.plain (.malformed .invalidIndefinite)) else pure ()
  | 2 | 3 => unplaced (skipString o h)
  | 4 => skipContainer o item h 1
  | 5 => skipContainer o item h 2
  | 6 => if h.indefinite then GoM.fail (.plain (.malformed .invalidIndefinite)) else item
  | _ =>
    match h.ai with
    | 20 | 21 | 22 => pure ()
    | 25 | 26 | 27 => if o.rejectFloats then GoM.fail (.plain .floatRefused) else pure ()
    | ai => GoM.fail (.plain (.malformed (.unsupportedSimple ai)))

def skipItem (o : Limits) : ℕ → GoM Failure Cursor Unit
  | 0 => located (GoM.fail (.plain (.limitExceeded .nestingDepth)))
  | levels + 1 => located do
      let h ← unplaced head
      skipBody o (skipItem o levels) h

def skip (o : Limits) : GoM Failure Cursor Unit := located (skipItem o (o.maxNestedLevels + 1))

def Reader.readRaw (o : Limits) : GoM Failure Cursor (List UInt8) := do
  let c ← get
  located (skipItem o (o.maxNestedLevels + 1))
  let c' ← get
  if o.maxRawMessageBytes < (bytesBetween c c').length then
    failAt c (.limitExceeded .rawMessageBytes)
  else
    pure (bytesBetween c c')

/-! ### Where a read leaves the offset -/

/-- The reads of `Reader`; `ReadInt64` is `ReadInt`, `ReadUint64` is `ReadUint`, and `ReadText`
moves as `ReadTextBytes` does. -/
inductive Call where
  | readUint
  | readInt
  /-- `ReadInt8`, `ReadInt16`, `ReadInt32` -/
  | readSigned (bits : ℕ)
  /-- `ReadUint8`, `ReadUint16`, `ReadUint32` -/
  | readUnsigned (bits : ℕ)
  | readBytes
  | readTextBytes
  | readBool
  | readNull
  | readTag
  | readFloat
  | readArrayHeader
  | readMapHeader
  | readBreak
  | skip
  | readRaw
  deriving DecidableEq, Repr

/-- A read without the value it returns. -/
def forget {α : Type} (x : GoM Failure Cursor α) : GoM Failure Cursor Unit := do
  let _ ← x
  pure ()

def Call.run (o : Limits) : Call → GoM Failure Cursor Unit
  | .readUint => forget Cbor.readUint
  | .readInt => forget Cbor.readInt
  | .readSigned bits => forget (Cbor.readSigned bits)
  | .readUnsigned bits => forget (Cbor.readUnsigned bits)
  | .readBytes => forget (Cbor.readBytes o)
  | .readTextBytes => forget (Cbor.readTextBytes o)
  | .readBool => forget Cbor.readBool
  | .readNull => Cbor.readNull
  | .readTag => forget Cbor.readTag
  | .readFloat => forget (Cbor.readFloat o)
  | .readArrayHeader => forget (Cbor.readArrayHeader o)
  | .readMapHeader => forget (Cbor.readMapHeader o)
  | .readBreak => Cbor.readBreak
  | .skip => Cbor.skip o
  | .readRaw => forget (Reader.readRaw o)

/-- What lies at `c` is such that the read, if it fails, rewinds. -/
def Call.Rewinds (o : Limits) (c : Cursor) : Call → Prop
  | .readUint => ∀ h c', head c = .ok h c' → h.major = 0 → h.indefinite = false
  | .readTag => ∀ h c', head c = .ok h c' → h.major = 6 → h.indefinite = false
  | .readInt => ∀ h c', head c = .ok h c' → h.major ≤ 1 → h.indefinite = false → h.arg < 2 ^ 63
  | .readSigned _ => ∀ h c', head c = .ok h c' → h.major ≤ 1 → h.indefinite = true
  | .readUnsigned _ => ∀ h c', head c = .ok h c' → h.major ≠ 0
  | .readTextBytes => ∀ h c', head c = .ok h c' → h.major = 3 → h.indefinite = false →
      h.arg ≤ o.maxStringBytes → c'.rest.length < h.arg
  | .skip => c.rest = []
  | .readRaw => c.rest = []
  | _ => True

/-- The state a call ends with. -/
def after {ε σ α : Type} : EStateM.Result ε σ α → σ
  | .ok _ s => s
  | .error _ s => s

/-- The call does not move backwards. -/
def Forward {ε α : Type} (x : GoM ε Cursor α) : Prop := ∀ c, c.off ≤ (after (x c)).off

namespace Forward

variable {ε α β : Type}

theorem pure (a : α) :
  Forward (Pure.pure a : GoM ε Cursor α)
  := fun _ => le_rfl

theorem fail (e : ε) :
  Forward (GoM.fail e : GoM ε Cursor α)
  := fun _ => le_rfl

theorem bind {x : GoM ε Cursor α} {f : α → GoM ε Cursor β} (hx : Forward x)
    (hf : ∀ a, Forward (f a)) :
  Forward (x >>= f)
  := by
  intro c
  have h := hx c
  rw [bind_apply]
  cases hxc : x c with
  | ok a c' =>
    rw [hxc] at h
    exact h.trans (hf a c')
  | error e c' =>
    rw [hxc] at h
    exact h

theorem located {x : GoM Failure Cursor α} (hx : Forward x) :
  Forward (Cbor.located x)
  := by
  intro c
  have h := hx c
  rw [Cbor.located]
  cases hxc : x c <;> (rw [hxc] at h; exact h)

theorem unplaced {x : GoM Err Cursor α} (hx : Forward x) :
  Forward (Cbor.unplaced x)
  := by
  intro c
  have h := hx c
  rw [Cbor.unplaced]
  cases hxc : x c <;> (rw [hxc] at h; exact h)

theorem nextByte :
  Forward Cbor.nextByte
  := by
  intro c
  rw [Cbor.nextByte]
  split
  · exact Nat.le_succ _
  · exact le_rfl

theorem take (n : ℤ) :
  Forward (Cbor.take n)
  := by
  intro c
  rw [Cbor.take]
  split
  · exact le_rfl
  split
  · exact le_rfl
  split
  · exact Nat.le_add_right _ _
  · exact le_rfl

theorem headArg (major ai : ℕ) :
  Forward (Cbor.headArg major ai)
  := by
  rw [Cbor.headArg]
  split
  · exact pure _
  split
  · exact (take _).bind fun _ => pure _
  split
  · exact pure _
  · exact fail _

theorem head :
  Forward Cbor.head
  := nextByte.bind fun _ => headArg _ _

theorem atBreak :
  Forward Cbor.atBreak
  := by
  intro c
  have h := nextByte c
  rw [Cbor.atBreak, get_bind, bind_apply]
  cases hb : Cbor.nextByte c with
  | ok b c' =>
    rw [hb] at h
    dsimp only
    split
    · exact h
    · exact le_rfl
  | error e c' =>
    rw [hb] at h
    exact h

theorem times {x : GoM ε Cursor Unit} (hx : Forward x) (n : ℕ) :
  Forward (Cbor.times x n)
  := by
  induction n with
  | zero => exact pure _
  | succ n ih => exact hx.bind fun _ => ih

theorem untilBreak {x : GoM Failure Cursor Unit} (hx : Forward x) (room : ℕ) :
  Forward (Cbor.untilBreak x room)
  := by
  induction room with
  | zero =>
    refine atBreak.unplaced.bind fun b => ?_
    split
    · exact pure _
    · exact fail _
  | succ room ih =>
    refine atBreak.unplaced.bind fun b => ?_
    split
    · exact pure _
    · exact hx.bind fun _ => ih

variable (o : Limits) {item : GoM Failure Cursor Unit}

theorem skipChunks (major fuel total : ℕ) :
  Forward (Cbor.skipChunks o major fuel total)
  := by
  induction fuel generalizing total with
  | zero => exact fun _ => le_rfl
  | succ fuel ih =>
    refine atBreak.bind fun b => ?_
    split
    · exact pure _
    refine head.bind fun h => ?_
    split
    · exact fail _
    split
    · exact fail _
    · exact (take _).bind fun _ => ih _

theorem skipString (h : Head) :
  Forward (Cbor.skipString o h)
  := by
  rw [Cbor.skipString]
  split
  · exact fun c => skipChunks o h.major _ 0 c
  split
  · exact fail _
  · exact (take _).bind fun _ => pure _

theorem skipContainer (hitem : Forward item) (h : Head) (perItem : ℕ) :
  Forward (Cbor.skipContainer o item h perItem)
  := by
  rw [Cbor.skipContainer]
  split
  · exact (hitem.times _).untilBreak _
  split
  · exact fail _
  · exact hitem.times _

theorem skipBody (hitem : Forward item) (h : Head) :
  Forward (Cbor.skipBody o item h)
  := by
  rw [Cbor.skipBody]
  split
  · split
    · exact fail _
    · exact pure _
  · split
    · exact fail _
    · exact pure _
  · exact (skipString o h).unplaced
  · exact (skipString o h).unplaced
  · exact skipContainer o hitem h 1
  · exact skipContainer o hitem h 2
  · split
    · exact fail _
    · exact hitem
  · split
    all_goals try exact pure _
    all_goals try exact fail _
    all_goals
      split
      · exact fail _
      · exact pure _

theorem skipItem (levels : ℕ) :
  Forward (Cbor.skipItem o levels)
  := by
  induction levels with
  | zero => exact (fail _).located
  | succ levels ih => exact (head.unplaced.bind fun h => skipBody o ih h).located

end Forward

variable {o : Limits} {c c' : Cursor}

theorem nextByte_ok {b : UInt8} (h : nextByte c = .ok b c') :
  c'.off = c.off + 1
  := by
  rw [nextByte] at h
  split at h
  · injection h with _ h
    rw [← h]
  · cases h

/-- The first byte of a head is taken even if the head is not complete. -/
theorem head_moves (h : c.rest ≠ []) :
  c.off < (after (head c)).off
  := by
  have hlt : c.off < c.data.bytes.length := by
    rwa [Cursor.rest, Ne, drop_eq_nil_iff, not_le] at h
  have hb : nextByte c = .ok c.data.bytes[c.off] ⟨c.data, c.off + 1, hlt⟩ := by
    rw [nextByte, dif_pos hlt]
  rw [head, bind_ok hb]
  apply Nat.lt_of_succ_le
  generalize c.data.bytes[c.off] = b
  have hforward : Forward (headArg (b.toNat / 32) (b.toNat % 32)) := Forward.headArg _ _
  exact hforward ⟨c.data, c.off + 1, hlt⟩

theorem head_ok {h : Head} (hh : head c = .ok h c') :
  c.off < c'.off
  := by
  have hrest : c.rest ≠ [] := by
    intro hnil
    have hge : c.data.bytes.length ≤ c.off := drop_eq_nil_iff.mp hnil
    have hb : nextByte c = .error (.fail .truncated) c := by
      rw [nextByte, dif_neg (by omega)]
    rw [head, bind_error hb] at hh
    cases hh
  have hmoves := head_moves hrest
  rwa [hh] at hmoves

theorem head_nil (h : c.rest = []) :
  head c = .error (.fail .truncated) c
  := by
  have hge : c.data.bytes.length ≤ c.off := drop_eq_nil_iff.mp h
  apply bind_error
  rw [nextByte, dif_neg (by omega)]

section Outcome

variable {α : Type} {f : Failure} {x : GoM Failure Cursor α}

theorem forget_eq_error :
  forget x c = .error (.fail f) c' ↔ x c = .error (.fail f) c'
  := by
  rw [forget, bind_apply]
  cases x c <;> simp

/-- A read that begins with a head, by whether there is one. -/
theorem orRewind_head_eq (k : Cursor → Head → GoM Failure Cursor α) (c : Cursor) :
  (do let c ← get; let h ← orRewind c head; k c h) c = match head c with
    | .ok h c' => k c h c'
    | .error e _ => .error (e.map (fun err => ⟨some c.off, err⟩)) c
  := by
  rw [get_bind, bind_apply, orRewind]
  cases head c <;> rfl

/-- A read that begins with the head of a given type, by what is there. -/
theorem get_expect_eq (want : ℕ) (kind : TokenKind) (k : Cursor → Head → GoM Failure Cursor α)
    (c : Cursor) :
  (do let c ← get; let h ← expect want kind; k c h) c = match head c with
    | .ok h c' =>
      if h.major = want then k c h c'
      else .error (.fail ⟨some c.off, .unexpectedToken (.major h.major kind)⟩) c
    | .error e _ => .error (e.map (fun err => ⟨some c.off, err⟩)) c
  := by
  rw [get_bind, bind_apply, expect, orRewind_head_eq]
  cases head c with
  | ok h c' =>
    dsimp only
    by_cases hmajor : h.major = want
    · rw [if_neg (by simpa using hmajor), if_pos hmajor]
      rfl
    · rw [if_pos hmajor, if_neg hmajor]
      rfl
  | error e c' => rfl

variable {kind : TokenKind} {e : Fault Failure} {major : ℕ} {bad : α → Prop} {err : α → Err}

/-- A read that begins with a head and either goes back or stays after the head, according to
what the head is. -/
theorem unmoved_iff {S : EStateM.Result (Fault Failure) Cursor α → Prop} {P : Head → Prop}
    {k : Head → GoM Failure Cursor α}
    (h : S (match head c with
      | .ok h c' => k h c'
      | .error e _ => .error (e.map (fun err => ⟨some c.off, err⟩)) c))
    (herror : ∀ e, S (.error e c) → c' = c)
    (hbody : ∀ hd c₁, S (k hd c₁) → P hd ∧ c' = c ∨ ¬ P hd ∧ c' = c₁) :
  c'.off = c.off ↔ ∀ h c', head c = .ok h c' → P h
  := by
  cases hh : head c with
  | error e c₁ =>
    rw [hh] at h
    simp [herror _ h]
  | ok hd c₁ =>
    have hmoved := head_ok hh
    rw [hh] at h
    simp only [EStateM.Result.ok.injEq, and_imp, forall_apply_eq_imp_iff, forall_eq']
    obtain ⟨hP, rfl⟩ | ⟨hP, rfl⟩ := hbody hd c₁ h
    · exact iff_of_true rfl hP
    · exact iff_of_false (by omega) hP

/-- Of an argument that cannot be had, only the head with an indefinite length is consumed. -/
theorem readArgument_error (h : readArgument major kind c = .error (.fail f) c') :
  c'.off = c.off ↔ ∀ h c', head c = .ok h c' → h.major = major → h.indefinite = false
  := by
  rw [readArgument, get_expect_eq] at h
  refine unmoved_iff (S := (· = .error (.fail f) c')) h (fun e h => ?_) fun hd c₁ h => ?_
  · injection h with _ h
    exact h.symm
  by_cases hmajor : hd.major = major
  · rw [if_pos hmajor] at h
    split at h
    · rename_i hindef
      injection h with _ h
      exact .inr ⟨by simp [hmajor, hindef], h.symm⟩
    · cases h
  · rw [if_neg hmajor] at h
    injection h with _ h
    exact .inl ⟨fun hm => absurd hm hmajor, h.symm⟩

theorem readInt_error (h : readInt c = .error (.fail f) c') :
  c'.off = c.off ↔ ∀ h c', head c = .ok h c' → h.major ≤ 1 → h.indefinite = false → h.arg < 2 ^ 63
  := by
  rw [readInt, orRewind_head_eq] at h
  refine unmoved_iff (S := (· = .error (.fail f) c')) h (fun e h => ?_) fun hd c₁ h => ?_
  · injection h with _ h
    exact h.symm
  split at h
  · rename_i hnot
    injection h with _ h
    refine .inl ⟨fun hmajor hindef => absurd hnot ?_, h.symm⟩
    simp [hindef]
    omega
  rename_i hinteger
  simp only [not_or, Bool.not_eq_true] at hinteger
  split at h
  · injection h with _ h
    refine .inr ⟨fun hall => ?_, h.symm⟩
    have := hall (by omega) hinteger.1
    omega
  · split at h <;> cases h

/-- A value that fails a check is consumed like one that does not. -/
theorem checked_error [DecidablePred bad]
    (h : (do let c ← get; let v ← x; if bad v then failAt c (err v) else pure v) c
      = .error (.fail f) c') :
  after (x c) = c'
  := by
  rw [get_bind, bind_apply] at h
  cases hx : x c with
  | error e c₁ =>
    rw [hx] at h
    injection h
  | ok v c₁ =>
    rw [hx] at h
    dsimp only at h
    split at h
    · injection h
    · cases h

/-- An integer that has been read and does not fit is consumed. -/
theorem readSigned_error {bits : ℕ} (h : readSigned bits c = .error (.fail f) c') :
  c'.off = c.off ↔ ∀ h c', head c = .ok h c' → h.major ≤ 1 → h.indefinite = true
  := by
  have hafter := checked_error h
  rw [readInt, orRewind_head_eq] at hafter
  refine unmoved_iff (S := (after · = c')) hafter (fun e h => h.symm) fun hd c₁ h => ?_
  split at h
  · rename_i hnot
    exact .inl ⟨fun hmajor => hnot.resolve_right (by omega), h.symm⟩
  rename_i hinteger
  simp only [not_or, Bool.not_eq_true] at hinteger
  refine .inr ⟨fun hall => ?_, ?_⟩
  · have := hall (by omega)
    rw [hinteger.1] at this
    exact absurd this (by simp)
  · split at h
    · exact h.symm
    · split at h <;> exact h.symm

theorem readUnsigned_error {bits : ℕ} (h : readUnsigned bits c = .error (.fail f) c') :
  c'.off = c.off ↔ ∀ h c', head c = .ok h c' → h.major ≠ 0
  := by
  have hafter := checked_error h
  rw [readUint, readArgument, get_expect_eq] at hafter
  refine unmoved_iff (S := (after · = c')) hafter (fun e h => h.symm) fun hd c₁ h => ?_
  by_cases hmajor : hd.major = 0
  · rw [if_pos hmajor] at h
    refine .inr ⟨fun hne => hne hmajor, ?_⟩
    split at h <;> exact h.symm
  · rw [if_neg hmajor] at h
    exact .inl ⟨hmajor, h.symm⟩

/-- The error names the place `c`, to which the reader has gone back. -/
def Refused (c : Cursor) (f : Failure) (c' : Cursor) : Prop := f.offset = some c.off ∧ c' = c

theorem Refused.iff (h : Refused c f c') :
  c'.off = c.off ↔ True
  := iff_of_true (by rw [h.2]) trivial

theorem fails_refuse {c₀ : Cursor} {e : Err} :
  Fails (Refused c₀) (refuse c₀ e : GoM Failure Cursor α) c
  := by
  rintro _ _ ⟨⟩
  exact ⟨rfl, rfl⟩

theorem fails_orRewind {c₀ : Cursor} {x : GoM Err Cursor α} :
  Fails (Refused c₀) (orRewind c₀ x) c
  := by
  intro f c' h
  rw [orRewind] at h
  cases hx : x c with
  | ok a c₁ => simp [hx] at h
  | error e c₁ =>
    rw [hx] at h
    cases e <;> cases h
    exact ⟨rfl, rfl⟩

theorem fails_expect {want : ℕ} :
  Fails (Refused c) (expect want kind) c
  := by
  refine .get_bind (fails_orRewind.bind fun h c' _ => ?_)
  split
  · exact fails_refuse
  · exact .pure _

/-- A string that is refused is not consumed. -/
theorem fails_readString :
  Fails (Refused c) (readString o major kind) c
  := by
  refine .get_bind (fails_expect.bind fun h c' _ => ?_)
  split_ifs
  · exact fails_refuse
  · exact fails_refuse
  · exact fails_orRewind

theorem take_ok {n : ℤ} {l : List UInt8} (h : take n c = .ok l c') :
  c'.off = c.off + l.length ∧ l.length = n.toNat ∧ n.toNat ≤ c.rest.length
  := by
  rw [take] at h
  split at h
  · cases h
  split at h
  · cases h
  split at h
  · cases h
    simp only [Cursor.rest, length_take, length_drop]
    omega
  · cases h

theorem toInt_of_le {n : ℕ} (h : n ≤ maxSliceLen) :
  toInt n = n
  := by
  rw [maxSliceLen] at h
  rw [toInt, if_pos (by omega)]

/-- A string that is read lies there whole, and within the limits. -/
theorem readString_ok {l : List UInt8} (h : readString o major kind c = .ok l c') :
  ∃ hd c₁, head c = .ok hd c₁ ∧ hd.major = major ∧ hd.indefinite = false
    ∧ hd.arg ≤ o.maxStringBytes ∧ hd.arg ≤ c₁.rest.length ∧ c'.off = c₁.off + l.length
  := by
  rw [readString, get_expect_eq] at h
  split at h
  · rename_i hd c₁ hh
    split at h
    · rename_i hmajor
      split at h
      · exact absurd h (by simp [refuse, failAt, bind_apply])
      rename_i hindef
      split at h
      · exact absurd h (by simp [refuse, failAt, bind_apply])
      rw [orRewind] at h
      split at h
      · rename_i l' c₂ htake
        cases h
        obtain ⟨hoff, -, hle⟩ := take_ok htake
        rw [toInt_of_le (by omega)] at hle
        exact ⟨hd, c₁, hh, hmajor, by simpa using hindef, by omega, hle, hoff⟩
      · cases h
    · cases h
  · cases h

theorem rest_length_le (c : Cursor) :
  c.off + c.rest.length = c.data.bytes.length
  := by
  have := c.off_le
  rw [Cursor.rest, length_drop]
  omega

theorem rest_length_lt (c : Cursor) :
  c.off + c.rest.length < maxSliceLen
  := by
  rw [rest_length_le]
  exact c.data.length_lt

theorem take_of_le {n : ℕ} (h : n ≤ c.rest.length) :
  ∃ c', take n c = .ok (c.rest.take n) c'
  := by
  have hlen := rest_length_le c
  have hlt := rest_length_lt c
  rw [maxSliceLen] at hlt
  rw [take, if_neg (by omega), if_neg (by omega), dif_pos (by omega)]
  exact ⟨_, rfl⟩

theorem readString_of_le (kind : TokenKind) {hd : Head} {c₁ : Cursor} (hh : head c = .ok hd c₁)
    (hmajor : hd.major = major) (hindef : hd.indefinite = false)
    (hlimit : hd.arg ≤ o.maxStringBytes) (hle : hd.arg ≤ c₁.rest.length) :
  ∃ l c', readString o major kind c = .ok l c'
  := by
  have hlt := rest_length_lt c₁
  obtain ⟨c', htake⟩ := take_of_le hle
  refine ⟨c₁.rest.take hd.arg, c', ?_⟩
  rw [readString, get_expect_eq, hh]
  dsimp only
  rw [if_pos hmajor, if_neg (by simp [hindef]), if_neg (by omega), orRewind,
    toInt_of_le (by omega), htake]

/-- A text string that lies there whole can only fail for its encoding, and is consumed. -/
theorem readTextBytes_error (h : readTextBytes o c = .error (.fail f) c') :
  c'.off = c.off ↔ ∀ h c', head c = .ok h c' → h.major = 3 → h.indefinite = false →
    h.arg ≤ o.maxStringBytes → c'.rest.length < h.arg
  := by
  rw [readTextBytes, bind_apply] at h
  cases hs : readString o 3 .textString c with
  | error e c₁ =>
    rw [hs] at h
    cases h
    obtain ⟨-, rfl⟩ := fails_readString _ _ hs
    refine iff_of_true rfl fun hd c₁ hh hmajor hindef hlimit => ?_
    by_contra hle
    obtain ⟨l, c₂, hok⟩ :=
      readString_of_le .textString hh hmajor hindef hlimit (not_lt.mp hle)
    rw [hs] at hok
    cases hok
  | ok l c₁ =>
    rw [hs] at h
    dsimp only at h
    split at h
    · cases h
    injection h with _ h
    subst h
    obtain ⟨hd, c₂, hh, hmajor, hindef, hlimit, hle, hoff⟩ := readString_ok hs
    have hmoved := head_ok hh
    refine iff_of_false (by omega) fun hall => ?_
    exact absurd (hall hd c₂ hh hmajor hindef hlimit) (by omega)

/-- A text string that is not UTF-8 is reported where its bytes begin. -/
theorem readTextBytes_offset (h : readTextBytes o c = .error (.fail f) c') :
  f.offset = some c.off ↔ ¬ ∃ b c₁, readString o 3 .textString c = .ok b c₁ ∧ utf8Valid b = false
  := by
  rw [readTextBytes, bind_apply] at h
  cases hs : readString o 3 .textString c with
  | error e c₁ =>
    rw [hs] at h
    cases h
    exact iff_of_true (fails_readString _ _ hs).1 (by simp)
  | ok b c₁ =>
    rw [hs] at h
    dsimp only at h
    split at h
    · cases h
    rename_i hutf
    cases h
    obtain ⟨hd, c₂, hh, -, -, -, -, hoff⟩ := readString_ok hs
    have hmoved := head_ok hh
    refine iff_of_false (fun heq => ?_) (not_not.mpr ⟨b, c', rfl, by simpa using hutf⟩)
    have := Option.some.inj heq
    omega

theorem fails_readArgument :
  Fails (fun f _ => f.offset = some c.off) (readArgument major kind) c
  := by
  refine .get_bind ((fails_expect.mono fun _ _ h => h.1).bind fun h c' _ => ?_)
  split
  · exact .fail rfl
  · exact .pure _

theorem fails_readInt :
  Fails (fun f _ => f.offset = some c.off) readInt c
  := by
  refine .get_bind ((fails_orRewind.mono fun _ _ h => h.1).bind fun h c' _ => ?_)
  split_ifs
  · exact fails_refuse.mono fun _ _ h => h.1
  · exact .fail rfl
  · exact .pure _
  · exact .pure _

/-- A value that fails a check is named like one that cannot be read. -/
theorem fails_checked [DecidablePred bad] (hx : Fails (fun f _ => f.offset = some c.off) x c) :
  Fails (fun f _ => f.offset = some c.off)
    (do let c ← get; let v ← x; if bad v then failAt c (err v) else pure v) c
  := by
  refine .get_bind (hx.bind fun v c' _ => ?_)
  split
  · exact .fail rfl
  · exact .pure _

theorem fails_readBool :
  Fails (Refused c) readBool c
  := by
  refine .get_bind (fails_orRewind.bind fun h c' _ => ?_)
  split
  · exact fails_refuse
  · exact .pure _

theorem fails_readNull :
  Fails (Refused c) readNull c
  := by
  refine .get_bind (fails_orRewind.bind fun h c' _ => ?_)
  split
  · exact fails_refuse
  · exact .pure _

theorem fails_readFloat :
  Fails (Refused c) (readFloat o) c
  := by
  refine .get_bind (fails_orRewind.bind fun h c' _ => ?_)
  split_ifs
  · exact fails_refuse
  · exact fails_refuse
  · exact .pure _
  · exact .pure _
  · exact .pure _
  · exact fails_refuse

theorem fails_readContainerHeader {major perItem : ℕ} :
  Fails (Refused c) (readContainerHeader o major kind perItem) c
  := by
  refine .get_bind (fails_expect.bind fun h c' _ => ?_)
  split_ifs
  · exact .pure _
  · exact fails_refuse
  · exact fails_refuse
  · exact .pure _

theorem fails_readBreak :
  Fails (Refused c) readBreak c
  := by
  refine .get_bind ?_
  split
  · exact .fail ⟨rfl, rfl⟩
  rename_i b l hrest
  split
  · exact .fail ⟨rfl, rfl⟩
  have hlt : c.off < c.data.bytes.length := by
    have := rest_length_le c
    rw [hrest, length_cons] at this
    omega
  have hb : unplaced nextByte c = .ok c.data.bytes[c.off] ⟨c.data, c.off + 1, hlt⟩ := by
    rw [unplaced, nextByte, dif_pos hlt]
  refine .bind (fun f c' h => ?_) fun _ _ _ => .pure _
  simp [hb] at h

theorem after_located (x : GoM Failure Cursor α) :
  after (located x c) = after (x c)
  := by
  rw [located]
  cases x c <;> rfl

theorem after_unplaced (x : GoM Err Cursor α) :
  after (unplaced x c) = after (x c)
  := by
  rw [unplaced]
  cases x c <;> rfl

/-- Whatever `skipItem` ends with, it has moved if there was a byte. -/
theorem skipItem_moves (o : Limits) (levels : ℕ) (h : c.rest ≠ []) :
  c.off < (after (skipItem o (levels + 1) c)).off
  := by
  have hmoves := head_moves h
  rw [skipItem, after_located, bind_apply]
  rw [← after_unplaced] at hmoves
  cases hh : unplaced head c with
  | ok hd c₁ =>
    rw [hh] at hmoves
    exact lt_of_lt_of_le hmoves (Forward.skipBody o (Forward.skipItem o levels) hd c₁)
  | error e c₁ =>
    rw [hh] at hmoves
    exact hmoves

theorem skipItem_nil {levels : ℕ} (h : c.rest = []) :
  after (skipItem o (levels + 1) c) = c
  := by
  have hh : unplaced head c = .error (.fail (.plain .truncated)) c := by
    rw [unplaced, head_nil h]
    rfl
  rw [skipItem, after_located, bind_error hh]
  rfl

theorem skipItem_off_iff :
  (after (skipItem o (o.maxNestedLevels + 1) c)).off = c.off ↔ c.rest = []
  := by
  by_cases hrest : c.rest = []
  · exact iff_of_true (by rw [skipItem_nil hrest]) hrest
  · have := skipItem_moves o o.maxNestedLevels hrest
    exact iff_of_false (by omega) hrest

theorem skip_error (h : skip o c = .error (.fail f) c') :
  c'.off = c.off ↔ c.rest = []
  := by
  have hafter : after (skip o c) = c' := by rw [h]; rfl
  rw [skip, after_located] at hafter
  rw [← hafter, skipItem_off_iff]

theorem readRaw_error (h : Reader.readRaw o c = .error (.fail f) c') :
  c'.off = c.off ↔ c.rest = []
  := by
  have hafter : after (Reader.readRaw o c) = after (skipItem o (o.maxNestedLevels + 1) c) := by
    rw [← after_located (skipItem o _), Reader.readRaw, get_bind, bind_apply]
    cases located (skipItem o (o.maxNestedLevels + 1)) c with
    | error e c₁ => rfl
    | ok u c₁ =>
      dsimp only
      rw [get_bind]
      split <;> rfl
  rw [← skipItem_off_iff, ← hafter, h]
  rfl

end Outcome

/-- A read that fails leaves the offset where it was exactly if what lies there is not among the
things that are consumed before they are refused. -/
theorem failed_read_moves (o : Limits) (call : Call) (c c' : Cursor) (f : Failure)
    (h : call.run o c = .error (.fail f) c') :
  c'.off = c.off ↔ call.Rewinds o c
  := by
  cases call with
  | readUint | readTag => exact readArgument_error (forget_eq_error.mp h)
  | readInt => exact readInt_error (forget_eq_error.mp h)
  | readSigned bits => exact readSigned_error (forget_eq_error.mp h)
  | readUnsigned bits => exact readUnsigned_error (forget_eq_error.mp h)
  | readTextBytes => exact readTextBytes_error (forget_eq_error.mp h)
  | skip => exact skip_error h
  | readRaw => exact readRaw_error (forget_eq_error.mp h)
  | readBytes => exact (fails_readString _ _ (forget_eq_error.mp h)).iff
  | readBool => exact (fails_readBool _ _ (forget_eq_error.mp h)).iff
  | readNull => exact (fails_readNull _ _ h).iff
  | readFloat => exact (fails_readFloat _ _ (forget_eq_error.mp h)).iff
  | readArrayHeader | readMapHeader =>
    exact (fails_readContainerHeader _ _ (forget_eq_error.mp h)).iff
  | readBreak => exact (fails_readBreak _ _ h).iff

/-- A read that fails names the place where its item begins, unless it has found a text string that
is not UTF-8. -/
theorem failed_read_offset (o : Limits) (call : Call) (c c' : Cursor) (f : Failure)
    (htyped : call ≠ .skip ∧ call ≠ .readRaw) (h : call.run o c = .error (.fail f) c') :
  f.offset = some c.off
    ↔ ¬ (call = .readTextBytes
      ∧ ∃ b c₁, readString o 3 .textString c = .ok b c₁ ∧ utf8Valid b = false)
  := by
  cases call with
  | skip => exact absurd rfl htyped.1
  | readRaw => exact absurd rfl htyped.2
  | readTextBytes => exact (readTextBytes_offset (forget_eq_error.mp h)).trans (by simp)
  | readUint | readTag =>
    exact iff_of_true (fails_readArgument _ _ (forget_eq_error.mp h)) (by simp)
  | readInt => exact iff_of_true (fails_readInt _ _ (forget_eq_error.mp h)) (by simp)
  | readSigned bits =>
    exact iff_of_true (fails_checked fails_readInt _ _ (forget_eq_error.mp h)) (by simp)
  | readUnsigned bits =>
    exact iff_of_true (fails_checked fails_readArgument _ _ (forget_eq_error.mp h)) (by simp)
  | readBytes => exact iff_of_true (fails_readString _ _ (forget_eq_error.mp h)).1 (by simp)
  | readBool => exact iff_of_true (fails_readBool _ _ (forget_eq_error.mp h)).1 (by simp)
  | readNull => exact iff_of_true (fails_readNull _ _ h).1 (by simp)
  | readFloat => exact iff_of_true (fails_readFloat _ _ (forget_eq_error.mp h)).1 (by simp)
  | readArrayHeader | readMapHeader =>
    exact iff_of_true (fails_readContainerHeader _ _ (forget_eq_error.mp h)).1 (by simp)
  | readBreak => exact iff_of_true (fails_readBreak _ _ h).1 (by simp)

theorem failed_read_offset_boolean :
  ∃ f c', Call.readBool.run .default (Cursor.start ⟨[0x05], by decide⟩) = .error (.fail f) c'
    ∧ f.offset = some 0
  := ⟨_, _, rfl, (failed_read_offset .default .readBool (Cursor.start ⟨[0x05], by decide⟩) _ _
    (by decide) rfl).mpr (by simp)⟩

/-- A text string of one byte that is not UTF-8 is reported at its second byte. -/
theorem readTextBytes_misplaced :
  ∃ f c', Call.readTextBytes.run .default (Cursor.start ⟨[0x61, 0xff], by decide⟩)
      = .error (.fail f) c' ∧ f.offset = some 1
  := ⟨_, _, rfl, rfl⟩

theorem failed_read_moves_boolean :
  (Cursor.start ⟨[0x05], by decide⟩).off = 0
    ↔ Call.readBool.Rewinds .default (Cursor.start ⟨[0x05], by decide⟩)
  := failed_read_moves .default .readBool (Cursor.start ⟨[0x05], by decide⟩)
    (Cursor.start ⟨[0x05], by decide⟩) ⟨some 0, .unexpectedToken .notBoolean⟩ rfl

/-- `ReadInt` refuses -2⁶⁴ and has consumed it. -/
theorem readInt_lowest_consumed :
  ¬ ∀ (o : Limits) (call : Call) (c c' : Cursor) (f : Failure),
    call.run o c = .error (.fail f) c' → c'.off = c.off
  := by
  intro h
  have hmoved := h .default .readInt
    (Cursor.start ⟨[0x3b, 0xff, 0xff, 0xff, 0xff, 0xff, 0xff, 0xff, 0xff], by decide⟩)
    ⟨⟨[0x3b, 0xff, 0xff, 0xff, 0xff, 0xff, 0xff, 0xff, 0xff], by decide⟩, 9, by decide⟩
    ⟨some 0, .integerOverflow none⟩ rfl
  cases hmoved

end Cbor
