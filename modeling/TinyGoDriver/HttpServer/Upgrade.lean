import TinyGoDriver.HttpServer.ReadRequest

/-!
# Finding the upgrade token

`isUpgrade` asks a parsed request whether one of its `Connection` values lists the token
`upgrade`.  `rawHeadHasUpgrade` answers the same question from the bytes of the head, with a
scanner that takes them one at a time.

The scanner trims the elements of a list of white space in ASCII, and `isUpgrade` of white
space in Unicode.  That is where they differ.
-/

namespace HttpServer

open Search List

/-- The `upgradeToken`. -/
def upgradeToken : List UInt8 := ascii "upgrade"

/-! ### On parsed requests -/

/-- White space in ASCII. -/
def asciiSpace (b : UInt8) : Bool :=
  b = tab ∨ b = lf ∨ b = 0x0b ∨ b = 0x0c ∨ b = cr ∨ b = sp

/-- White space in Unicode, as UTF-8. -/
def whiteSpace : List (List UInt8) :=
  [[tab], [lf], [0x0b], [0x0c], [cr], [sp],
    -- U+0085, U+00A0, U+1680
    [0xc2, 0x85], [0xc2, 0xa0], [0xe1, 0x9a, 0x80],
    -- U+2000 to U+200A
    [0xe2, 0x80, 0x80], [0xe2, 0x80, 0x81], [0xe2, 0x80, 0x82], [0xe2, 0x80, 0x83],
    [0xe2, 0x80, 0x84], [0xe2, 0x80, 0x85], [0xe2, 0x80, 0x86], [0xe2, 0x80, 0x87],
    [0xe2, 0x80, 0x88], [0xe2, 0x80, 0x89], [0xe2, 0x80, 0x8a],
    -- U+2028, U+2029, U+202F, U+205F, U+3000
    [0xe2, 0x80, 0xa8], [0xe2, 0x80, 0xa9], [0xe2, 0x80, 0xaf], [0xe2, 0x81, 0x9f],
    [0xe3, 0x80, 0x80]]

/-- Strips up to `n` of the strings `ws` from the front. -/
def strip (ws : List (List UInt8)) : ℕ → List UInt8 → List UInt8
  | 0, s => s
  | n + 1, s =>
    match ws.find? fun w => w <+: s with
    | some w => strip ws n (s.drop w.length)
    | none => s

/-- `strings.TrimSpace` -/
def trimSpace (s : List UInt8) : List UInt8 :=
  let s := strip whiteSpace s.length s
  (strip (whiteSpace.map List.reverse) s.length s.reverse).reverse

/-- `strings.EqualFold(s, token)`, for a token of lower case letters other than `k` and `s`.
For these, folding goes no further than ASCII. -/
def equalFold (s token : List UInt8) : Bool := s.map lowerASCII = token

def commaListHasToken (value token : List UInt8) : Bool :=
  (value.splitOn comma).any fun part => equalFold (trimSpace part) token

def headerHasToken (req : Request) (name token : List UInt8) : Bool :=
  (req.values name).any fun value => commaListHasToken value token

def isUpgrade (req : Request) : Bool := headerHasToken req (ascii "Connection") upgradeToken

/-! ### On the bytes of a head -/

structure UpgradeTokenScanner where
  matched : ℕ
  valid : Bool
  started : Bool
  trailing : Bool
  deriving DecidableEq, Repr

namespace UpgradeTokenScanner

/-- The zero value. -/
def zero : UpgradeTokenScanner := ⟨0, false, false, false⟩

/-- The scanner after `reset`. -/
def reset : UpgradeTokenScanner := ⟨0, true, false, false⟩

def space (s : UpgradeTokenScanner) : UpgradeTokenScanner :=
  if s.started then { s with trailing := true } else s

/-- `close`: whether the value ended on a matching token. -/
def close (s : UpgradeTokenScanner) : Bool := s.valid && s.matched = upgradeToken.length

/-- A byte that is neither white space nor a comma. -/
def letter (s : UpgradeTokenScanner) (b : UInt8) : UpgradeTokenScanner :=
  let s := { s with valid := s.valid && !s.trailing, started := true }
  if s.valid then
    if upgradeToken[s.matched]? = some (lowerASCII b) then { s with matched := s.matched + 1 }
    else { s with valid := false }
  else s

/-- `feed`: whether a comma just closed a token that matched, and the scanner after it. -/
def feed (s : UpgradeTokenScanner) (b : UInt8) : Bool × UpgradeTokenScanner :=
  if asciiSpace b then (false, s.space)
  else if b = comma then (s.close, reset)
  else (false, s.letter b)

/-- Feeds all bytes, unless one of them closes a token that matches. -/
def feedAll (s : UpgradeTokenScanner) : List UInt8 → Option UpgradeTokenScanner
  | [] => some s
  | b :: v => if (s.feed b).1 then none else (s.feed b).2.feedAll v

end UpgradeTokenScanner

def asciiEqualFold (b lower : List UInt8) : Bool := b.map lowerASCII = lower

/-- The variables of the loop of `rawHeadHasUpgrade`. -/
structure Raw where
  scan : UpgradeTokenScanner
  inConnection : Bool
  deriving DecidableEq, Repr

/-- What the loop returns when it ends by itself. -/
def Raw.exit (st : Raw) : Bool := st.inConnection && st.scan.close

/-- What a round of the loop does with a line that is not empty.  `none` is a return of
`true`. -/
def rawLine (st : Raw) (line : List UInt8) : Option Raw :=
  if isFold line then
    if st.inConnection then
      (st.scan.space.feedAll line).map fun scan => { st with scan := scan }
    else some st
  else if st.exit then none
  else
    match cut colon line with
    | some (key, value) =>
      if asciiEqualFold key (ascii "connection") then
        (UpgradeTokenScanner.reset.feedAll value).map fun scan => ⟨scan, true⟩
      else some { st with inConnection := false }
    | none => some { st with inConnection := false }

/-- The loop of `rawHeadHasUpgrade`.  A round takes at least one byte, so it ends within as many
rounds as there are bytes. -/
def rawLoop : ℕ → List UInt8 → Raw → Bool
  | 0, _, st => st.exit
  | n + 1, head, st =>
    if head = [] then st.exit
    else
      let (line, head) := (cut lf head).getD (head, [])
      if dropCR line = [] then st.exit
      else
        match rawLine st (dropCR line) with
        | some st => rawLoop n head st
        | none => true

def headTerminator : List UInt8 := [cr, lf, cr, lf]

/-- The head up to the line end before the empty line, if its lines end in CRLF. -/
def cutHead (head : List UInt8) : List UInt8 :=
  match index headTerminator head with
  | some i => head.take (i + 2)
  | none => head

def rawHeadHasUpgrade (head : List UInt8) : Bool :=
  match cut lf (cutHead head) with
  | some (_, head) => rawLoop head.length head ⟨.zero, false⟩
  | none => false

/-! ### Elements -/

/-- Whether a list has the token as an element, if elements are trimmed of white space in ASCII
only. -/
def asciiListHasToken (value token : List UInt8) : Bool :=
  (value.splitOn comma).any fun part => equalFold (trim asciiSpace part) token

variable {b : UInt8} {k kv v line : List UInt8} {ls : List (List UInt8)} {fs : List Field}

namespace UpgradeTokenScanner

theorem space_idem (s : UpgradeTokenScanner) :
  s.space.space = s.space
  := by
  unfold space
  split <;> simp_all

@[simp]
theorem close_space (s : UpgradeTokenScanner) :
  s.space.close = s.close
  := by
  unfold space
  split <;> rfl

/-- The scanner that has seen `x` of the current element. -/
structure Seen (x : List UInt8) (s : UpgradeTokenScanner) : Prop where
  started : s.started = true ↔ x.dropWhile asciiSpace ≠ []
  trailing : s.valid = true → (s.trailing = true ↔ x.dropWhile asciiSpace ≠ trim asciiSpace x)
  valid : s.valid = true ↔ (trim asciiSpace x).map lowerASCII <+: upgradeToken
  matched : s.valid = true → s.matched = (trim asciiSpace x).length

theorem Seen.reset :
  Seen [] reset
  := ⟨by simp [UpgradeTokenScanner.reset], by simp [UpgradeTokenScanner.reset, trim],
    by simp [UpgradeTokenScanner.reset, trim], by simp [UpgradeTokenScanner.reset, trim]⟩

variable {x : List UInt8} {s : UpgradeTokenScanner}

theorem Seen.space (hs : Seen x s) (hb : asciiSpace b = true) :
  Seen (x ++ [b]) s.space
  := by
  have htrim : trim asciiSpace (x ++ [b]) = trim asciiSpace x := trim_concat_of_pos hb
  by_cases hx : x.dropWhile asciiSpace = []
  · have hdrop : (x ++ [b]).dropWhile asciiSpace = x.dropWhile asciiSpace := by
      rw [dropWhile_concat_of_nil hb hx, hx]
    rw [UpgradeTokenScanner.space, if_neg fun h => hs.started.mp h hx]
    exact ⟨by rw [hdrop]; exact hs.started, by rw [hdrop, htrim]; exact hs.trailing,
      by rw [htrim]; exact hs.valid, by rw [htrim]; exact hs.matched⟩
  have hdrop := dropWhile_concat_of_ne_nil (a := b) hx
  have hstarted := hs.started.mpr hx
  rw [UpgradeTokenScanner.space, if_pos hstarted]
  refine ⟨by simp [hdrop, hstarted], ?_, by rw [htrim]; exact hs.valid,
    by rw [htrim]; exact hs.matched⟩
  have hshort := length_trim_le (p := asciiSpace) (l := x)
  simp only [true_iff, hdrop, htrim]
  intro _ heq
  rw [← heq, length_append, length_singleton] at hshort
  omega

theorem letter_started (s : UpgradeTokenScanner) (b : UInt8) :
  (s.letter b).started = true
  := by
  unfold letter
  dsimp only
  split <;> [split; skip] <;> rfl

theorem letter_trailing (s : UpgradeTokenScanner) (b : UInt8) :
  (s.letter b).trailing = s.trailing
  := by
  unfold letter
  dsimp only
  split <;> [split; skip] <;> rfl

theorem letter_valid (s : UpgradeTokenScanner) (b : UInt8) :
  (s.letter b).valid = true
    ↔ s.valid = true ∧ s.trailing = false ∧ upgradeToken[s.matched]? = some (lowerASCII b)
  := by
  unfold letter
  dsimp only
  split
  · split <;> simp_all
  · simp_all

theorem letter_matched (h : (s.letter b).valid = true) :
  (s.letter b).matched = s.matched + 1
  := by
  unfold letter at h ⊢
  dsimp only at h ⊢
  split at h
  · rename_i h₁
    split at h
    · rename_i h₂
      rw [if_pos h₁, if_pos h₂]
    · cases h
  · rename_i h₁
    exact absurd h h₁

theorem concat_isPrefix_iff {l m : List UInt8} {a : UInt8} :
  l ++ [a] <+: m ↔ l <+: m ∧ m[l.length]? = some a
  := by
  constructor
  · rintro ⟨t, rfl⟩
    simp
  rintro ⟨⟨t, rfl⟩, h⟩
  cases t with
  | nil => simp at h
  | cons b t =>
    simp at h
    simp [h]

/-- White space inside an element keeps it from being the token. -/
theorem not_isPrefix_of_space {l : List UInt8} (hb : b ∈ l) (hspace : asciiSpace b = true) :
  ¬ l.map lowerASCII <+: upgradeToken
  := by
  intro hpre
  have hmem : lowerASCII b ∈ upgradeToken := hpre.subset (mem_map_of_mem hb)
  simp only [asciiSpace, decide_eq_true_eq] at hspace
  rcases hspace with rfl | rfl | rfl | rfl | rfl | rfl <;> revert hmem <;> decide

theorem Seen.letter (hs : Seen x s) (hb : ¬ asciiSpace b = true) :
  Seen (x ++ [b]) (s.letter b)
  := by
  have hdrop : (x ++ [b]).dropWhile asciiSpace = x.dropWhile asciiSpace ++ [b] :=
    dropWhile_concat_of_neg hb
  have htrim : trim asciiSpace (x ++ [b]) = x.dropWhile asciiSpace ++ [b] := by
    rw [trim, hdrop, rdropWhile_concat_neg _ _ _ hb]
  -- a letter counts only if no white space came between
  have hclosed : s.valid = true → s.trailing = false →
      x.dropWhile asciiSpace = trim asciiSpace x := by
    intro hvalid htrailing
    by_contra hne
    simp [(hs.trailing hvalid).mpr hne] at htrailing
  refine ⟨by simp [letter_started, hdrop], fun hvalid => ?_, ?_, fun hvalid => ?_⟩
  · rw [letter_trailing, hdrop, htrim]
    simp [((letter_valid s b).mp hvalid).2.1]
  · rw [letter_valid, htrim, map_append, map_singleton, concat_isPrefix_iff, length_map]
    constructor
    · rintro ⟨hvalid, htrailing, hnext⟩
      rw [hclosed hvalid htrailing, ← hs.matched hvalid]
      exact ⟨hs.valid.mp hvalid, hnext⟩
    rintro ⟨hpre, hnext⟩
    obtain ⟨tail, htail, hspaces⟩ := exists_trim_append
    have hnil : tail = [] := by
      by_contra hne
      refine not_isPrefix_of_space ?_ (hspaces _ (head_mem hne)) hpre
      rw [htail]
      exact mem_append_right _ (head_mem hne)
    rw [hnil, append_nil] at htail
    have hvalid : s.valid = true := hs.valid.mpr (htail ▸ hpre)
    refine ⟨hvalid, ?_, ?_⟩
    · simpa [htail] using hs.trailing hvalid
    · rw [hs.matched hvalid, ← htail]
      exact hnext
  · obtain ⟨hvalid', htrailing, -⟩ := (letter_valid s b).mp hvalid
    rw [letter_matched hvalid, htrim, hclosed hvalid' htrailing, hs.matched hvalid',
      length_append, length_singleton]

theorem Seen.close_iff (hs : Seen x s) :
  s.close = true ↔ equalFold (trim asciiSpace x) upgradeToken = true
  := by
  simp only [close, equalFold, Bool.and_eq_true, decide_eq_true_eq]
  constructor
  · rintro ⟨hvalid, hmatched⟩
    apply (hs.valid.mp hvalid).eq_of_length
    rw [length_map, ← hs.matched hvalid, hmatched]
  · intro heq
    have hvalid : s.valid = true := hs.valid.mpr (by rw [heq])
    exact ⟨hvalid, by rw [hs.matched hvalid, ← heq, length_map]⟩

theorem modifyHead_nil_append (l : List (List UInt8)) :
  l.modifyHead ([] ++ ·) = l
  := by
  cases l <;> rfl

/-- Whether a value has the token, as the scanner sees it. -/
def accepts (s : UpgradeTokenScanner) (v : List UInt8) : Bool :=
  match s.feedAll v with
  | some s => s.close
  | none => true

theorem Seen.accepts_iff (hs : Seen x s) (v : List UInt8) :
  s.accepts v = true ↔
    ∃ part ∈ (v.splitOn comma).modifyHead (x ++ ·),
      equalFold (trim asciiSpace part) upgradeToken = true
  := by
  induction v generalizing x s with
  | nil => simpa [accepts, feedAll] using hs.close_iff
  | cons b v ih =>
    rw [splitOn, splitOnP_cons_eq_if_modifyHead, ← splitOn]
    by_cases hcomma : b = comma
    · subst hcomma
      have hfeed : s.feed comma = (s.close, .reset) := rfl
      rw [accepts, feedAll, hfeed]
      simp only [beq_self_eq_true, if_true, modifyHead_cons, append_nil,
        mem_cons, exists_eq_or_imp, ← hs.close_iff]
      cases hclose : s.close with
      | true => simp
      | false =>
        have hrest := ih Seen.reset
        rw [accepts, modifyHead_nil_append] at hrest
        simpa using hrest
    have hnext : s.accepts (b :: v) = (s.feed b).2.accepts v ∧ Seen (x ++ [b]) (s.feed b).2 := by
      rw [accepts, accepts, feedAll, feed]
      by_cases hspace : asciiSpace b = true
      · rw [if_pos hspace]
        exact ⟨rfl, hs.space hspace⟩
      · rw [if_neg hspace, if_neg hcomma]
        exact ⟨rfl, hs.letter hspace⟩
    rw [hnext.1, ih hnext.2, if_neg (by simpa using hcomma), modifyHead_modifyHead]
    have hcomp : (fun l => x ++ l) ∘ cons b = fun l => x ++ [b] ++ l := by
      funext l
      simp
    rw [hcomp]

theorem reset_accepts (v : List UInt8) :
  reset.accepts v = asciiListHasToken v upgradeToken
  := by
  rw [Bool.eq_iff_iff, Seen.reset.accepts_iff, modifyHead_nil_append, asciiListHasToken,
    any_eq_true]

/-! ### White space between lines -/

theorem feedAll_append (s : UpgradeTokenScanner) (v w : List UInt8) :
  s.feedAll (v ++ w) = (s.feedAll v).bind fun q => q.feedAll w
  := by
  induction v generalizing s with
  | nil => rfl
  | cons b v ih =>
    rw [cons_append, feedAll, feedAll, ih]
    split <;> rfl

theorem feedAll_spaces {ws : List UInt8} (hws : ∀ b ∈ ws, asciiSpace b = true) :
  s.feedAll ws = some (if ws = [] then s else s.space)
  := by
  induction ws generalizing s with
  | nil => rfl
  | cons b ws ih =>
    have hfeed : s.feed b = (false, s.space) := if_pos (hws b mem_cons_self)
    rw [feedAll, hfeed]
    simp only [Bool.false_eq_true, if_false, reduceCtorEq]
    rw [ih fun c hc => hws c (mem_cons_of_mem b hc)]
    split
    · rfl
    · rw [space_idem]

/-- White space in front does not matter to a scanner that has just met some, or that has not
started. -/
theorem feedAll_dropWhile (hs : s.space = s) (v : List UInt8) :
  s.feedAll (v.dropWhile isBlank) = s.feedAll v
  := by
  have hblank : ∀ b ∈ v.takeWhile isBlank, asciiSpace b = true := by
    intro b hb
    have := mem_takeWhile_imp hb
    simp only [isBlank, decide_eq_true_eq] at this
    rcases this with rfl | rfl <;> rfl
  conv_rhs => rw [← takeWhile_append_dropWhile (p := isBlank) (l := v)]
  rw [feedAll_append, feedAll_spaces hblank, hs, ite_self]
  rfl

/-- `r` is `q`, or `q` after white space. -/
def Near (q r : UpgradeTokenScanner) : Prop := r = q ∨ r = q.space

variable {q r : UpgradeTokenScanner}

theorem Near.space_eq (h : Near q r) :
  r.space = q.space
  := by
  rcases h with rfl | rfl
  · rfl
  · exact space_idem q

theorem Near.close_eq (h : Near q r) :
  r.close = q.close
  := by
  rcases h with rfl | rfl
  · rfl
  · exact close_space q

/-- White space at the end of a value is seen, but changes little. -/
theorem feedAll_rdropWhile (s : UpgradeTokenScanner) (v : List UInt8) :
  s.feedAll v = none ∧ s.feedAll (v.rdropWhile isBlank) = none
    ∨ ∃ q r, s.feedAll (v.rdropWhile isBlank) = some q ∧ s.feedAll v = some r ∧ Near q r
  := by
  have hblank : ∀ b ∈ v.rtakeWhile isBlank, asciiSpace b = true := by
    intro b hb
    have := mem_rtakeWhile_imp hb
    simp only [isBlank, decide_eq_true_eq] at this
    rcases this with rfl | rfl <;> rfl
  have hsplit : s.feedAll v =
      (s.feedAll (v.rdropWhile isBlank)).bind fun q => q.feedAll (v.rtakeWhile isBlank) := by
    rw [← feedAll_append, rdropWhile_append_rtakeWhile]
  cases hq : s.feedAll (v.rdropWhile isBlank) with
  | none => exact .inl ⟨by rw [hsplit, hq]; rfl, rfl⟩
  | some q =>
    refine .inr ⟨q, _, rfl, by rw [hsplit, hq, Option.bind_some, feedAll_spaces hblank], ?_⟩
    split
    · exact .inl rfl
    · exact .inr rfl

/-- The white space around a continuation line counts as the one space it is joined with. -/
theorem Near.fold (h : Near q r) (line : List UInt8) :
  r.space.feedAll line = none ∧ q.feedAll (sp :: trim isBlank line) = none
    ∨ ∃ q' r', q.feedAll (sp :: trim isBlank line) = some q' ∧ r.space.feedAll line = some r'
      ∧ Near q' r'
  := by
  have hq : q.feedAll (sp :: trim isBlank line) = r.space.feedAll (trim isBlank line) := by
    rw [h.space_eq]
    rfl
  rw [hq, ← feedAll_dropWhile (space_idem r) line]
  apply feedAll_rdropWhile

end UpgradeTokenScanner

open UpgradeTokenScanner (reset Near)

/-! ### Keys -/

theorem canonicalLetters_lower (upper : Bool) (k : List UInt8) :
  canonicalLetters upper (k.map lowerASCII) = canonicalLetters upper k
  := by
  induction k generalizing upper with
  | nil => rfl
  | cons b k ih =>
    have hb : (if upper ∧ 0x61 ≤ lowerASCII b ∧ lowerASCII b ≤ 0x7a then lowerASCII b - 0x20
          else if ¬ upper ∧ 0x41 ≤ lowerASCII b ∧ lowerASCII b ≤ 0x5a then lowerASCII b + 0x20
          else lowerASCII b)
        = if upper ∧ 0x61 ≤ b ∧ b ≤ 0x7a then b - 0x20
          else if ¬ upper ∧ 0x41 ≤ b ∧ b ≤ 0x5a then b + 0x20
          else b := by
      unfold lowerASCII
      cases upper <;> grind
    rw [map_cons, canonicalLetters, canonicalLetters, hb, ih]

theorem lower_canonicalLetters (upper : Bool) (k : List UInt8) :
  (canonicalLetters upper k).map lowerASCII = k.map lowerASCII
  := by
  induction k generalizing upper with
  | nil => rfl
  | cons b k ih =>
    rw [canonicalLetters, map_cons, map_cons, ih]
    congr 1
    unfold lowerASCII
    cases upper <;> grind

/-- The field `Connection` is recognised whatever the case of its letters. -/
theorem canonicalMIMEHeaderKey_connection {key : List UInt8}
    (h : canonicalMIMEHeaderKey k = some key) :
  key = ascii "Connection" ↔ asciiEqualFold k (ascii "connection") = true
  := by
  rw [asciiEqualFold, decide_eq_true_eq]
  rw [canonicalMIMEHeaderKey] at h
  split at h
  · cases h
  split at h <;> cases h
  · rename_i hsp
    constructor
    · rintro rfl
      decide
    intro heq
    have hmem : lowerASCII sp ∈ k.map lowerASCII := mem_map_of_mem hsp
    rw [heq] at hmem
    exact absurd hmem (by decide)
  · constructor
    · intro heq
      rw [← lower_canonicalLetters true, heq]
      decide
    · intro heq
      rw [← canonicalLetters_lower, heq]
      decide

/-! ### Fields -/

/-- A `Connection` field with the token, if elements are trimmed of white space in ASCII only. -/
def Field.Hit (f : Field) : Prop :=
  f.key = ascii "Connection" ∧ asciiListHasToken f.value upgradeToken = true

variable {f : Field} {s first : List UInt8} {ws : List (List UInt8)} {req : Request}

theorem readField_eq_some (h : readField first kv = some f) :
  colon ∈ first ∧ ∃ k v, cut colon kv = some (k, v) ∧ canonicalMIMEHeaderKey k = some f.key
    ∧ f.value = v.dropWhile isBlank
  := by
  rw [readField] at h
  split at h
  · cases h
  rename_i hcolon
  refine ⟨not_not.mp hcolon, ?_⟩
  split at h
  · rename_i k v hcut
    split at h
    · rename_i key hkey
      rw [Option.ite_none_right_eq_some] at h
      cases h.2
      exact ⟨k, v, hcut, hkey, rfl⟩
    · cases h
  · cases h

theorem readField_hit_iff (h : readField first kv = some f) (hcut : cut colon kv = some (k, v)) :
  f.Hit ↔ asciiEqualFold k (ascii "connection") = true ∧ reset.accepts v = true
  := by
  obtain ⟨-, k', v', hcut', hkey, hvalue⟩ := readField_eq_some h
  rw [hcut] at hcut'
  cases hcut'
  rw [Field.Hit, canonicalMIMEHeaderKey_connection hkey, hvalue,
    ← UpgradeTokenScanner.reset_accepts, UpgradeTokenScanner.accepts,
    UpgradeTokenScanner.feedAll_dropWhile rfl, ← UpgradeTokenScanner.accepts]

theorem colon_mem_of_readFields (h : readFields first kv ls = some fs) :
  colon ∈ first
  := by
  induction ls generalizing kv with
  | nil =>
    obtain ⟨f, hf, -⟩ := Option.map_eq_some_iff.mp h
    exact (readField_eq_some hf).1
  | cons line ls ih =>
    rw [readFields] at h
    split at h
    · exact ih h
    split at h
    · rename_i f hf
      exact (readField_eq_some hf).1
    · cases h

theorem cut_fold (hcut : cut colon kv = some (k, v)) (t : List UInt8) :
  cut colon (kv ++ t) = some (k, v ++ t)
  := by
  obtain ⟨rfl, hk⟩ := cut_eq_some_iff.mp hcut
  rw [append_assoc, cons_append, cut_append hk]

/-- A field whose value has the token so far has it in the end. -/
theorem hit_of_readFields (h : readFields first kv ls = some fs)
    (hcut : cut colon kv = some (k, v)) (hk : asciiEqualFold k (ascii "connection") = true)
    (hv : reset.feedAll v = none) :
  ∃ f ∈ fs, f.Hit
  := by
  have haccepts : ∀ {v}, reset.feedAll v = none → reset.accepts v = true := by
    intro v hv
    rw [UpgradeTokenScanner.accepts, hv]
  induction ls generalizing kv v with
  | nil =>
    obtain ⟨f, hf, rfl⟩ := Option.map_eq_some_iff.mp h
    exact ⟨f, mem_singleton_self f, (readField_hit_iff hf hcut).mpr ⟨hk, haccepts hv⟩⟩
  | cons line ls ih =>
    rw [readFields] at h
    split at h
    · apply ih h (cut_fold hcut _)
      rw [UpgradeTokenScanner.feedAll_append, hv]
      rfl
    · split at h
      · rename_i f hf
        obtain ⟨fs', -, rfl⟩ := Option.map_eq_some_iff.mp h
        exact ⟨f, mem_cons_self, (readField_hit_iff hf hcut).mpr ⟨hk, haccepts hv⟩⟩
      · cases h

/-! ### The loop over lines -/

/-- The rounds of the loop over the lines of a head. -/
def rawLines : List (List UInt8) → Raw → Bool
  | [], st => st.exit
  | line :: ls, st =>
    match rawLine st line with
    | some st => rawLines ls st
    | none => true

/-- The loop has seen the field `kv` as far as it has been read. -/
structure Follows (kv : List UInt8) (st : Raw) (k v : List UInt8) : Prop where
  cut_eq : cut colon kv = some (k, v)
  inConnection : st.inConnection = asciiEqualFold k (ascii "connection")
  scan : st.inConnection = true → ∃ q, reset.feedAll v = some q ∧ Near q st.scan

theorem Follows.exit_iff {st : Raw} (hst : Follows kv st k v) (hf : readField first kv = some f) :
  st.exit = true ↔ f.Hit
  := by
  rw [readField_hit_iff hf hst.cut_eq, ← hst.inConnection, Raw.exit, Bool.and_eq_true]
  apply and_congr_right
  intro hin
  obtain ⟨q, hq, hnear⟩ := hst.scan hin
  rw [UpgradeTokenScanner.accepts, hq, hnear.close_eq]

theorem isFold_eq_false_dropWhile (h : isFold line = false) :
  line.dropWhile isBlank = line
  := by
  cases line with
  | nil => rfl
  | cons b line =>
    have hb : isBlank b = false := h
    simp [hb]

theorem cut_trim (hfold : isFold line = false) (hcut : cut colon line = some (k, v)) :
  cut colon (trim isBlank line) = some (k, v.rdropWhile isBlank)
  := by
  obtain ⟨rfl, hk⟩ := cut_eq_some_iff.mp hcut
  rw [trim, isFold_eq_false_dropWhile hfold, rdropWhile_append_cons (by decide), cut_append hk]

/-- What the loop makes of the lines that follow, after a field of which it has seen a part. -/
def LinesSpec (ls : List (List UInt8)) : Prop :=
  ∀ {first kv k v : List UInt8} {st : Raw} {fs : List Field}, Follows kv st k v →
    readFields first kv ls = some fs → (rawLines ls st = true ↔ ∃ f ∈ fs, f.Hit)

/-- A line that starts a field. -/
theorem LinesSpec.start (hls : LinesSpec ls) {st : Raw} (hfold : isFold line = false)
    (hexit : st.exit = false) (h : readFields line (trim isBlank line) ls = some fs) :
  rawLines (line :: ls) st = true ↔ ∃ f ∈ fs, f.Hit
  := by
  obtain ⟨⟨k, v⟩, hcut⟩ : ∃ p, cut colon line = some p := by
    rw [← Option.ne_none_iff_exists', ne_eq, cut_eq_none_iff, not_not]
    exact colon_mem_of_readFields h
  have hcut' := cut_trim hfold hcut
  rw [rawLines, rawLine, if_neg (by simp [hfold]), if_neg (by simp [hexit]), hcut]
  by_cases hk : asciiEqualFold k (ascii "connection") = true
  · simp only [hk, if_true]
    rcases reset.feedAll_rdropWhile v with ⟨hnone, hnone'⟩ | ⟨q, r, hq, hr, hnear⟩
    · simp only [hnone, Option.map_none, true_iff]
      exact hit_of_readFields h hcut' hk hnone'
    · simp only [hr, Option.map_some]
      exact hls ⟨hcut', hk.symm, fun _ => ⟨q, hq, hnear⟩⟩ h
  · simp only [hk]
    exact hls ⟨hcut', by simpa using hk, nofun⟩ h

theorem linesSpec (ls : List (List UInt8)) :
  LinesSpec ls
  := by
  induction ls with
  | nil =>
    intro first kv k v st fs hst h
    obtain ⟨f, hf, rfl⟩ := Option.map_eq_some_iff.mp h
    simpa [rawLines] using hst.exit_iff hf
  | cons line ls ih =>
    intro first kv k v st fs hst h
    rw [readFields] at h
    split at h
    · rename_i hfold
      have hcut' := cut_fold hst.cut_eq (sp :: trim isBlank line)
      rw [rawLines, rawLine, if_pos hfold]
      by_cases hin : st.inConnection = true
      · obtain ⟨q, hq, hnear⟩ := hst.scan hin
        have hjoin : reset.feedAll (v ++ sp :: trim isBlank line)
            = q.feedAll (sp :: trim isBlank line) := by
          rw [UpgradeTokenScanner.feedAll_append, hq]
          rfl
        rw [if_pos hin]
        rcases hnear.fold line with ⟨hnone, hnone'⟩ | ⟨q', r', hq', hr', hnear'⟩
        · simp only [hnone, Option.map_none, true_iff]
          exact hit_of_readFields h hcut' (by rw [← hst.inConnection, hin]) (by rw [hjoin, hnone'])
        · simp only [hr', Option.map_some]
          exact ih ⟨hcut', hst.inConnection, fun _ => ⟨q', by rw [hjoin, hq'], hnear'⟩⟩ h
      · rw [if_neg hin]
        exact ih ⟨hcut', hst.inConnection, fun h => absurd h hin⟩ h
    · rename_i hfold
      split at h
      · rename_i f hf
        obtain ⟨fs', hfs', rfl⟩ := Option.map_eq_some_iff.mp h
        simp only [mem_cons, exists_eq_or_imp, ← hst.exit_iff hf]
        cases hexit : st.exit with
        | true =>
          rw [rawLines, rawLine, if_neg hfold, if_pos hexit]
          simp
        | false =>
          simp only [Bool.false_eq_true, false_or]
          exact LinesSpec.start ih (by simpa using hfold) hexit hfs'
      · cases h

theorem rawLines_iff (h : readMIMEHeader ls = some fs) :
  rawLines ls ⟨.zero, false⟩ = true ↔ ∃ f ∈ fs, f.Hit
  := by
  cases ls with
  | nil =>
    cases h
    simp [rawLines, Raw.exit]
  | cons line ls =>
    rw [readMIMEHeader, Option.ite_none_left_eq_some] at h
    exact LinesSpec.start (linesSpec ls) (by simpa using h.1) rfl h.2

/-! ### The loop over bytes -/

/-- What the scanner is given of a head: all of it, or all up to a line end with another right
behind it. -/
def Clipped (s s' : List UInt8) : Prop :=
  s' = s ∨ [cr, lf] <+: s ∧ s' = []
    ∨ ∃ k, s' = s.take (k + 1) ∧ [cr, lf] <+: s.drop (k + 1) ∧ s[k]? = some lf

theorem clipped_cutHead (head : List UInt8) :
  Clipped head (cutHead head)
  := by
  rw [cutHead]
  split
  · rename_i i hi
    obtain ⟨-, ⟨t, ht⟩, -⟩ := index_eq_some_iff.mp hi
    refine .inr (.inr ⟨i + 1, rfl, ?_, ?_⟩)
    · rw [← drop_drop, ← drop_drop, ← ht]
      exact ⟨t, rfl⟩
    · rw [← getElem?_drop, ← ht]
      rfl
  · exact .inl rfl

theorem cutHead_eq_nil {head : List UInt8} (h : cutHead head = []) :
  head = []
  := by
  rw [cutHead] at h
  split at h
  · simpa using h
  · exact h

variable {s' rest : List UInt8}

/-- A line of a head that is clipped later. -/
theorem Clipped.cut (h : Clipped s s') (hcut : cut lf s = some (line, rest)) :
  s' = [] ∧ dropCR line = [] ∨ ∃ rest', cut lf s' = some (line, rest') ∧ Clipped rest rest'
  := by
  obtain ⟨rfl, hline⟩ := cut_eq_some_iff.mp hcut
  rcases h with rfl | ⟨⟨t, ht⟩, rfl⟩ | ⟨k, rfl, hafter, hk⟩
  · exact .inr ⟨rest, hcut, .inl rfl⟩
  · -- the line is the empty one
    rw [← ht] at hcut
    have hfirst : Search.cut lf ([cr, lf] ++ t) = some ([cr], t) := rfl
    rw [hcut] at hfirst
    cases hfirst
    exact .inl ⟨rfl, rfl⟩
  right
  have hle : line.length ≤ k := by
    by_contra hlt
    rw [getElem?_append_left (by omega)] at hk
    exact hline (mem_of_getElem? hk)
  obtain ⟨j, rfl⟩ := Nat.exists_eq_add_of_le hle
  have hsplit : line ++ lf :: rest = (line ++ [lf]) ++ rest := by simp
  have hshift : line.length + j + 1 = (line ++ [lf]).length + j := by
    simp only [length_append, length_singleton]
    omega
  rw [hsplit, hshift, drop_length_add_append] at hafter
  refine ⟨rest.take j, ?_, ?_⟩
  · rw [hsplit, hshift, take_length_add_append, append_assoc, singleton_append, cut_append hline]
  cases j with
  | zero => exact .inr (.inl ⟨hafter, rfl⟩)
  | succ j =>
    refine .inr (.inr ⟨j, rfl, hafter, ?_⟩)
    rwa [hsplit, show line.length + (j + 1) = (line ++ [lf]).length + j by simp; omega,
      getElem?_append_right (by omega), Nat.add_sub_cancel_left] at hk

theorem rawLoop_eq {n : ℕ} (st : Raw) (hlines : headLines [] s = some (ls, rest))
    (h : Clipped s s') (hn : s'.length ≤ n) :
  rawLoop n s' st = rawLines ls st
  := by
  induction ls generalizing n s s' st with
  | nil =>
    obtain ⟨line, t, hcut, hend⟩ := headLines_eq_some hlines
    have hblank : dropCR line = [] := by
      rcases hend with ⟨hblank, -⟩ | ⟨-, ls', hls, -⟩
      · exact hblank
      · cases hls
    rw [rawLines]
    cases n with
    | zero => rfl
    | succ n =>
      rw [rawLoop]
      rcases h.cut hcut with ⟨rfl, -⟩ | ⟨t', hcut', -⟩
      · rfl
      split
      · rfl
      · simp [hcut', hblank]
  | cons line ls ih =>
    obtain ⟨line', t, hcut, hend⟩ := headLines_eq_some hlines
    rcases hend with ⟨-, hls, -⟩ | ⟨hline, ls', hls, ht⟩
    · cases hls
    cases hls
    rcases h.cut hcut with ⟨-, hblank⟩ | ⟨t', hcut', hclip⟩
    · exact absurd hblank hline
    obtain ⟨rfl, -⟩ := cut_eq_some_iff.mp hcut'
    cases n with
    | zero => simp at hn
    | succ n =>
      rw [rawLoop, if_neg (by simp), hcut', rawLines]
      simp only [Option.getD_some, if_neg hline]
      cases rawLine st (dropCR line') with
      | none => rfl
      | some st' =>
        apply ih st' ht hclip
        simp only [length_append, length_cons] at hn
        omega

/-- Some element of a `Connection` value is the token, if elements are trimmed of white space in
ASCII only. -/
def asciiIsUpgrade (req : Request) : Bool :=
  (req.values (ascii "Connection")).any fun value => asciiListHasToken value upgradeToken

theorem asciiIsUpgrade_iff (req : Request) :
  asciiIsUpgrade req = true ↔ ∃ f ∈ req.header, f.Hit
  := by
  simp only [asciiIsUpgrade, Request.values, any_map, any_filter, any_eq_true,
    Field.Hit, Function.comp_apply, Bool.and_eq_true, decide_eq_true_eq]

theorem rawHeadHasUpgrade_eq {lib : Library} {head : List UInt8}
    (h : readRequest lib head = some req) :
  rawHeadHasUpgrade head = asciiIsUpgrade req
  := by
  obtain ⟨line, s, ls, rest, hcut, hlines, hheader⟩ := readRequest_eq_some h
  rw [Bool.eq_iff_iff, asciiIsUpgrade_iff, ← rawLines_iff hheader, rawHeadHasUpgrade]
  rcases (clipped_cutHead head).cut hcut with ⟨hnil, -⟩ | ⟨s', hcut', hclip⟩
  · rw [cutHead_eq_nil hnil] at hcut
    cases hcut
  · rw [hcut']
    simp only [rawLoop_eq _ hlines hclip le_rfl]

/-! ### White space in ASCII and in Unicode -/

/-- White space strings of which those that start in ASCII are the single characters. -/
structure Spaces (ws : List (List UInt8)) : Prop where
  find_space : ∀ {b : UInt8} (s : List UInt8), asciiSpace b = true →
    (ws.find? fun w => w <+: b :: s) = some [b]
  starts : ∀ w ∈ ws, (w.head?.any fun b => asciiSpace b || 0x80 ≤ b) = true

theorem Spaces.find_letter (hws : Spaces ws) (s : List UInt8) (hspace : asciiSpace b = false)
    (hb : b < 0x80) :
  (ws.find? fun w => w <+: b :: s) = none
  := by
  simp only [find?_eq_none, decide_eq_true_eq]
  intro w hw hpre
  have hstart := hws.starts w hw
  cases w with
  | nil => cases hstart
  | cons c t =>
    obtain ⟨rfl, -⟩ := cons_prefix_cons.mp hpre
    simp only [head?_cons, Option.any_some, hspace, Bool.false_or, decide_eq_true_eq] at hstart
    exact absurd hb (UInt8.not_lt.mpr hstart)

theorem spaces_whiteSpace :
  Spaces whiteSpace
  := by
  constructor
  · intro b s hb
    simp only [asciiSpace, decide_eq_true_eq] at hb
    rcases hb with rfl | rfl | rfl | rfl | rfl | rfl <;> rfl
  · decide

theorem spaces_reverse_whiteSpace :
  Spaces (whiteSpace.map List.reverse)
  := by
  constructor
  · intro b s hb
    simp only [asciiSpace, decide_eq_true_eq] at hb
    rcases hb with rfl | rfl | rfl | rfl | rfl | rfl <;> rfl
  · decide

/-- White space in ASCII is stripped up to the first letter. -/
theorem Spaces.strip_append (hws : Spaces ws) {n : ℕ} {space : List UInt8}
    (hspace : ∀ c ∈ space, asciiSpace c = true) (hn : space.length ≤ n)
    (hletter : asciiSpace b = false) (hb : b < 0x80) :
  strip ws n (space ++ b :: s) = b :: s
  := by
  induction space generalizing n with
  | nil =>
    cases n with
    | zero => rfl
    | succ n => rw [nil_append, strip, hws.find_letter s hletter hb]
  | cons c space ih =>
    cases n with
    | zero => simp at hn
    | succ n =>
      rw [cons_append, strip, hws.find_space _ (hspace c mem_cons_self)]
      apply ih (fun d hd => hspace d (mem_cons_of_mem c hd))
      simpa using hn

theorem letter_of_mem_upgradeToken (h : lowerASCII b ∈ upgradeToken) :
  asciiSpace b = false ∧ b < 0x80
  := by
  have hlower : (upgradeToken.all fun c => 0x61 ≤ c ∧ c ≤ 0x7a) = true := by decide
  have hb : 0x41 ≤ b ∧ b ≤ 0x7a := by
    have hrange := of_decide_eq_true (all_eq_true.mp hlower _ h)
    unfold lowerASCII at hrange
    grind
  unfold asciiSpace tab lf cr sp
  grind

/-- An element that is the token with white space in ASCII around it. -/
theorem equalFold_trimSpace {part : List UInt8}
    (h : equalFold (trim asciiSpace part) upgradeToken = true) :
  equalFold (trimSpace part) upgradeToken = true
  := by
  suffices htrim : trimSpace part = trim asciiSpace part by rwa [htrim]
  rw [equalFold, decide_eq_true_eq] at h
  obtain ⟨tail, htail, hspaces⟩ := exists_trim_append
  generalize trim asciiSpace part = w at h htail ⊢
  have hletter : ∀ b ∈ w, asciiSpace b = false ∧ b < 0x80 := fun b hb =>
    letter_of_mem_upgradeToken (h ▸ mem_map_of_mem hb)
  have hne : w ≠ [] := by
    rintro rfl
    cases h
  have hpart : part = part.takeWhile asciiSpace ++ (w ++ tail) := by
    rw [← htail, takeWhile_append_dropWhile]
  have hfront : strip whiteSpace part.length part = w ++ tail := by
    obtain ⟨c, w', rfl⟩ := exists_cons_of_ne_nil hne
    obtain ⟨hc, hlt⟩ := hletter c mem_cons_self
    conv_lhs => rw [hpart]
    refine spaces_whiteSpace.strip_append (fun b => mem_takeWhile_imp) ?_ hc hlt
    simp
  have hback : strip (whiteSpace.map reverse) (w ++ tail).length (w ++ tail).reverse
      = w.reverse := by
    obtain ⟨w', e, rfl⟩ := (eq_nil_or_concat' w).resolve_left hne
    obtain ⟨he, hlt⟩ := hletter e (by simp)
    rw [reverse_append, reverse_append, reverse_singleton, singleton_append]
    refine spaces_reverse_whiteSpace.strip_append (fun b hb => ?_) ?_ he hlt
    · exact hspaces b (mem_reverse.mp hb)
    · simp
      omega
  rw [trimSpace]
  simp only [hfront, hback, reverse_reverse]

theorem isUpgrade_of_asciiIsUpgrade (h : asciiIsUpgrade req = true) :
  isUpgrade req = true
  := by
  simp only [asciiIsUpgrade, asciiListHasToken, any_eq_true] at h
  obtain ⟨value, hvalue, part, hpart, heq⟩ := h
  simp only [isUpgrade, headerHasToken, commaListHasToken, any_eq_true]
  exact ⟨value, hvalue, part, hpart, equalFold_trimSpace heq⟩

/-- The scan of an accepted head agrees with the parsed request, unless white space outside
ASCII is all that keeps an element of a `Connection` value from being the token. -/
theorem rawHeadHasUpgrade_eq_isUpgrade_iff {lib : Library} {head : List UInt8} {req : Request}
    (h : readRequest lib head = some req) :
  rawHeadHasUpgrade head = isUpgrade req ↔ (isUpgrade req = true → asciiIsUpgrade req = true)
  := by
  rw [rawHeadHasUpgrade_eq h]
  constructor
  · intro heq hup
    rw [heq, hup]
  · intro hcond
    rw [Bool.eq_iff_iff]
    exact ⟨isUpgrade_of_asciiIsUpgrade, hcond⟩

/-- A library that takes every head whose fields can be read. -/
def lenient : Library := ⟨fun _ => true⟩

/-- A request with folded and repeated `Connection` fields. -/
def upgradeHead : List UInt8 :=
  ascii "GET / HTTP/1.1\r\nConnection: keep-alive\r\ncoNNection: a,\r\n\t UPgrade ,b\r\n\r\n"

theorem rawHeadHasUpgrade_eq_isUpgrade_iff_folded :
  ∃ req, readRequest lenient upgradeHead = some req ∧ isUpgrade req = true ∧
    (rawHeadHasUpgrade upgradeHead = isUpgrade req ↔
      (isUpgrade req = true → asciiIsUpgrade req = true))
  := ⟨_, rfl, by decide, @rawHeadHasUpgrade_eq_isUpgrade_iff lenient upgradeHead _ rfl⟩

/-- A request whose `Connection` value has a no-break space before the token. -/
def noBreakHead : List UInt8 :=
  ascii "GET / HTTP/1.1\r\nConnection: " ++ [0xc2, 0xa0] ++ ascii "upgrade\r\n\r\n"

/-- The parsed request asks for an upgrade, and the scan of its head does not see it. -/
theorem rawHeadHasUpgrade_ne_isUpgrade_noBreak :
  ∃ req, readRequest lenient noBreakHead = some req ∧ isUpgrade req = true ∧
    rawHeadHasUpgrade noBreakHead = false
  := ⟨_, rfl, by decide, by decide⟩

end HttpServer
