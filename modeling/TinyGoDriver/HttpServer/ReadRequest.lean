import TinyGoDriver.Lib.Search

/-!
# Request heads as `http.ReadRequest` reads them

A head is the request line and the header lines up to the first empty line.  Lines end in LF,
with or without a CR before it.  A header line that starts with a space or a tab continues the
one before it: the lines are trimmed of spaces and tabs and joined by one space, and the field
is then split at its first colon.

The model takes from `net/textproto` what decides which bytes belong to the head and what the
fields are, and which fields it refuses.  What else `http.ReadRequest` looks at (the parts of
the request line, the framing headers) is left open, as `Library`.
-/

namespace HttpServer

open Search

/-! ### Bytes -/

def tab : UInt8 := 0x09
def lf : UInt8 := 0x0a
def cr : UInt8 := 0x0d
def sp : UInt8 := 0x20
def comma : UInt8 := 0x2c
def colon : UInt8 := 0x3a

/-- A string, as its bytes.  For strings of ASCII characters. -/
def ascii (s : String) : List UInt8 := s.toList.map fun c => UInt8.ofNat c.toNat

/-- What `textproto` trims. -/
def isBlank (b : UInt8) : Bool := b = sp ∨ b = tab

def lowerASCII (b : UInt8) : UInt8 := if 0x41 ≤ b ∧ b ≤ 0x5a then b + (0x61 - 0x41) else b

/-! ### Lines -/

/-- A line without the CR before its LF. -/
def dropCR (line : List UInt8) : List UInt8 :=
  if line.getLast? = some cr then line.dropLast else line

/-- The lines before the first empty line, and what comes after it.  `cur` is what has been
read of the current line. -/
def headLines (cur : List UInt8) : List UInt8 → Option (List (List UInt8) × List UInt8)
  | [] => none
  | b :: s =>
    if b = lf then
      if dropCR cur = [] then some ([], s)
      else (headLines [] s).map fun p => (dropCR cur :: p.1, p.2)
    else headLines (cur ++ [b]) s

/-- What `http.ReadRequest` leaves of a stream: all that comes after the empty line that ends
the head. -/
def headRest (s : List UInt8) : Option (List UInt8) :=
  match cut lf s with
  | some (_, s) => (headLines [] s).map (·.2)
  | none => none

/-- The lines, read one at a time. -/
theorem headLines_eq (cur s : List UInt8) :
  headLines cur s =
    match cut lf s with
    | some (line, s) =>
      if dropCR (cur ++ line) = [] then some ([], s)
      else (headLines [] s).map fun p => (dropCR (cur ++ line) :: p.1, p.2)
    | none => none
  := by
  induction s generalizing cur with
  | nil => rfl
  | cons b s ih =>
    rw [headLines, cut]
    split
    · simp
    rw [ih]
    cases cut lf s with
    | none => rfl
    | some p => simp

/-- A stream has its first line read, which is then the empty line or a header line. -/
theorem headLines_eq_some {s rest : List UInt8} {ls : List (List UInt8)}
    (h : headLines [] s = some (ls, rest)) :
  ∃ line s', cut lf s = some (line, s') ∧
    (dropCR line = [] ∧ ls = [] ∧ rest = s'
      ∨ dropCR line ≠ [] ∧ ∃ ls', ls = dropCR line :: ls' ∧ headLines [] s' = some (ls', rest))
  := by
  rw [headLines_eq] at h
  split at h
  · rename_i line s' hcut
    refine ⟨line, s', hcut, ?_⟩
    split at h
    · rename_i hblank
      cases h
      exact .inl ⟨hblank, rfl, rfl⟩
    · rename_i hline
      obtain ⟨⟨ls', rest'⟩, hlines, heq⟩ := Option.map_eq_some_iff.mp h
      cases heq
      exact .inr ⟨hline, ls', rfl, hlines⟩
  · cases h

/-! ### Fields -/

/-- A field: its key, in canonical form, and its value. -/
structure Field where
  key : List UInt8
  value : List UInt8
  deriving DecidableEq, Repr

/-- `validHeaderFieldByte`: the characters of a token. -/
def validHeaderFieldByte (b : UInt8) : Bool :=
  0x30 ≤ b ∧ b ≤ 0x39 ∨ 0x41 ≤ b ∧ b ≤ 0x5a ∨ 0x61 ≤ b ∧ b ≤ 0x7a ∨ b ∈ ascii "!#$%&'*+-.^_|~"
    ∨ b = 0x60

/-- `validHeaderValueByte`: visible characters, spaces, tabs and the bytes above ASCII. -/
def validHeaderValueByte (b : UInt8) : Bool := b = tab ∨ 0x20 ≤ b ∧ b ≠ 0x7f

/-- Upper case for the first letter and after each dash, lower case for the others. -/
def canonicalLetters (upper : Bool) : List UInt8 → List UInt8
  | [] => []
  | b :: s =>
    let c := if upper ∧ 0x61 ≤ b ∧ b ≤ 0x7a then b - 0x20
      else if ¬ upper ∧ 0x41 ≤ b ∧ b ≤ 0x5a then b + 0x20
      else b
    c :: canonicalLetters (c = 0x2d) s

/-- `canonicalMIMEHeaderKey`.  A key with a space in it is kept as it is. -/
def canonicalMIMEHeaderKey (key : List UInt8) : Option (List UInt8) :=
  if key = [] ∨ ¬ key.all fun b => validHeaderFieldByte b ∨ b = sp then none
  else if sp ∈ key then some key
  else some (canonicalLetters true key)

/-- A field whose first line is `first` and which reads `kv` with its continuations. -/
def readField (first kv : List UInt8) : Option Field :=
  -- the colon has to be in the first line
  if colon ∉ first then none
  else
    match cut colon kv with
    | some (k, v) =>
      match canonicalMIMEHeaderKey k with
      | some key =>
        if v.all validHeaderValueByte then some ⟨key, v.dropWhile isBlank⟩ else none
      | none => none
    | none => none

/-- Whether a line continues the one before it. -/
def isFold (line : List UInt8) : Bool :=
  match line with
  | b :: _ => isBlank b
  | [] => false

/-- The fields of the lines, after a field that has been read as far as `kv`. -/
def readFields (first kv : List UInt8) : List (List UInt8) → Option (List Field)
  | [] => (readField first kv).map fun f => [f]
  | line :: ls =>
    if isFold line then readFields first (kv ++ sp :: trim isBlank line) ls
    else
      match readField first kv with
      | some f => (readFields line (trim isBlank line) ls).map (f :: ·)
      | none => none

/-- `ReadMIMEHeader`.  The first line cannot be a continuation. -/
def readMIMEHeader : List (List UInt8) → Option (List Field)
  | [] => some []
  | line :: ls => if isFold line then none else readFields line (trim isBlank line) ls

/-! ### Requests -/

structure Request where
  line : List UInt8
  header : List Field
  deriving DecidableEq, Repr

/-- What `http.ReadRequest` accepts beyond what the model says. -/
structure Library where
  accepts : Request → Bool

/-- `http.ReadRequest` -/
def readRequest (lib : Library) (head : List UInt8) : Option Request :=
  match cut lf head with
  | some (line, s) =>
    match headLines [] s with
    | some (ls, _) =>
      match readMIMEHeader ls with
      | some header =>
        let req := ⟨dropCR line, header⟩
        if lib.accepts req then some req else none
      | none => none
    | none => none
  | none => none

/-- `Header.Values` -/
def Request.values (req : Request) (key : List UInt8) : List (List UInt8) :=
  (req.header.filter fun f => f.key = key).map (·.value)

/-- What an accepted head is made of. -/
theorem readRequest_eq_some {lib : Library} {head : List UInt8} {req : Request}
    (h : readRequest lib head = some req) :
  ∃ line s ls rest, cut lf head = some (line, s) ∧ headLines [] s = some (ls, rest)
    ∧ readMIMEHeader ls = some req.header
  := by
  rw [readRequest] at h
  split at h
  · rename_i line s hcut
    split at h
    · rename_i ls rest hlines
      split at h
      · rename_i header hheader
        refine ⟨line, s, ls, rest, hcut, hlines, ?_⟩
        rw [hheader]
        rw [Option.ite_none_right_eq_some] at h
        cases h.2
        rfl
      · cases h
    · cases h
  · cases h

end HttpServer
