import TinyGoDriver.Go.UrlPath
import TinyGoDriver.Lib.Search

/-!
# Patterns

A pattern is `[METHOD ][HOST]/[PATH]`, and its path is a list of segments: literals, wildcards for
one segment, and at the end possibly a wildcard for all that remain or the marker `{$}` for the end.
A slash at the end stands for an anonymous wildcard of the second kind.

`parsePattern` reads patterns.  Whatever it accepts has the shape `WellFormed`: there is a segment,
only the last may take all that remain, and the last is not an empty literal.

The loop of `parsePattern` cuts off one segment at a time; here the path is cut at its slashes
first.
-/

namespace HttpMux

open GoRt Search

structure Segment where
  s : List UInt8
  wild : Bool
  multi : Bool
  deriving DecidableEq, Repr

structure Pattern where
  str : List UInt8
  method : List UInt8
  host : List UInt8
  segments : List Segment
  deriving DecidableEq, Repr

/-- What wildcard names are read with: the runes of a string, and the tables of `unicode`. -/
structure Unicode where
  runes : List UInt8 → List ℕ
  isLetter : ℕ → Bool
  isDigit : ℕ → Bool

/-- What is wrong with a pattern. -/
inductive PatternErr where
  /-- `empty pattern` -/
  | empty
  /-- `invalid method %q` -/
  | invalidMethod (method : List UInt8)
  /-- `host/path missing /` -/
  | missingSlash
  /-- `host contains '{' (missing initial '/'?)` -/
  | hostBrace
  /-- `non-CONNECT pattern with unclean path can never match` -/
  | unclean
  /-- `bad wildcard segment (must start with '{')` -/
  | wildcardStart
  /-- `bad wildcard segment (must end with '}')` -/
  | wildcardEnd
  /-- `{$} not at end` -/
  | dollarNotAtEnd
  /-- `{...} wildcard not at end` -/
  | multiNotAtEnd
  /-- `empty wildcard` -/
  | emptyWildcard
  /-- `bad wildcard name %q` -/
  | badName (name : List UInt8)
  /-- `duplicate wildcard name %q` -/
  | duplicateName (name : List UInt8)
  deriving DecidableEq, Repr

/-- `at offset %d: %w`, but for the empty pattern. -/
structure ParseErr where
  off : Option ℕ
  err : PatternErr
  deriving DecidableEq, Repr

def openBrace : UInt8 := 0x7b
def closeBrace : UInt8 := 0x7d

def connect : List UInt8 := lit "CONNECT"

/-- A space or a tab. -/
def isBlank (b : UInt8) : Bool := b = 0x20 ∨ b = 0x09

def validMethod (method : List UInt8) : Bool :=
  method ≠ [] ∧ method.all fun c =>
    0x20 < c ∧ c < 0x7f ∧ c ∉ lit "()<>@,;:\\\"/[]?=" ∧ c ≠ openBrace ∧ c ≠ closeBrace

def isValidWildcardName (u : Unicode) (s : List UInt8) : Bool :=
  if s = [] then false
  else
    match u.runes s with
    | [] => true
    | c :: cs =>
      (u.isLetter c || c = 0x5f) && cs.all fun c => u.isLetter c || c = 0x5f || u.isDigit c

def pathUnescape (s : List UInt8) : List UInt8 := (unescape s).getD s

def cleanPath (p : List UInt8) : List UInt8 :=
  if p = [] then [slash]
  else
    let p := if p.head? = some slash then p else slash :: p
    let np := clean p
    if p.getLast? = some slash ∧ np ≠ [slash] then
      if p.length = np.length + 1 ∧ np.isPrefixOf p then p else np ++ [slash]
    else np

/-- The segment that stands for a slash at the end. -/
def subtree : Segment := ⟨[], true, true⟩

/-- The segment of `{$}`. -/
def endMarker : Segment := ⟨[slash], false, false⟩

/-- `strings.CutSuffix`, of the dots that follow the name of a wildcard. -/
def cutDots (name : List UInt8) : List UInt8 × Bool :=
  if (lit "...").isSuffixOf name then (name.take (name.length - 3), true) else (name, false)

/-- A segment in braces, and the names seen with it. -/
def parseWildcard (u : Unicode) (seg : List UInt8) (last : Bool) (seen : List (List UInt8)) :
    Except PatternErr (Segment × List (List UInt8)) :=
  if seg.getLast? ≠ some closeBrace then .error .wildcardEnd
  else
    let name := (seg.drop 1).dropLast
    if name = lit "$" then
      if last then .ok (endMarker, seen) else .error .dollarNotAtEnd
    else
      let (name, multi) := cutDots name
      if multi ∧ ¬ last then .error .multiNotAtEnd
      else if name = [] then .error .emptyWildcard
      else if ¬ isValidWildcardName u name then .error (.badName name)
      else if name ∈ seen then .error (.duplicateName name)
      else .ok (⟨name, true, multi⟩, name :: seen)

/-- One segment, and the names seen with it. -/
def parseSegment (u : Unicode) (seg : List UInt8) (last : Bool) (seen : List (List UInt8)) :
    Except PatternErr (Segment × List (List UInt8)) :=
  if last ∧ seg = [] then .ok (subtree, seen)
  else
    match cut openBrace seg with
    | none => .ok (⟨pathUnescape seg, false, false⟩, seen)
    | some ([], _) => parseWildcard u seg last seen
    | some (_ :: _, _) => .error .wildcardStart

/-- The segments from the one at the offset `off` on. -/
def parseSegments (u : Unicode) : List (List UInt8) → ℕ → List (List UInt8) →
    Except ParseErr (List Segment)
  | [], _, _ => .ok []
  | seg :: segs, off, seen =>
    match parseSegment u seg (segs = []) seen with
    | .error e => .error ⟨some off, e⟩
    | .ok (segment, seen) =>
      match parseSegments u segs (off + seg.length + 1) seen with
      | .error e => .error e
      | .ok segments => .ok (segment :: segments)

/-- The method of a pattern and what comes after it, and where that begins. -/
def splitMethod (s : List UInt8) : List UInt8 × List UInt8 × ℕ :=
  match s.dropWhile (fun b => ¬ isBlank b) with
  | [] => ([], s, 0)
  | _ :: rest =>
    let method := s.takeWhile (fun b => ¬ isBlank b)
    (method, rest.dropWhile isBlank, method.length + 1)

def parsePattern (u : Unicode) (s : List UInt8) : Except ParseErr Pattern :=
  if s = [] then .error ⟨none, .empty⟩
  else
    let (method, rest, off) := splitMethod s
    if method ≠ [] ∧ ¬ validMethod method then .error ⟨some 0, .invalidMethod method⟩
    else
      match cut slash rest with
      | none => .error ⟨some off, .missingSlash⟩
      | some (host, path) =>
        match cut openBrace host with
        | some (before, _) => .error ⟨some (off + before.length), .hostBrace⟩
        | none =>
          let off := off + host.length
          if method ≠ [] ∧ method ≠ connect ∧ slash :: path ≠ cleanPath (slash :: path) then
            .error ⟨some off, .unclean⟩
          else
            match parseSegments u (path.splitOn slash) (s.length - path.length) [] with
            | .error e => .error e
            | .ok segments => .ok ⟨s, method, host, segments⟩

/-! ### What is accepted -/

/-- Segments of a pattern: only the last may take all that remain, and the last is not an empty
literal. -/
def WellFormed : List Segment → Prop
  | [] => False
  | [seg] => (seg.multi = true → seg.wild = true) ∧ (seg.wild = false → seg.s ≠ [])
  | seg :: segs => seg.multi = false ∧ WellFormed segs

variable {s : List UInt8} {u : Unicode} {seen seen' : List (List UInt8)} {segment : Segment}

theorem unescape_ne_nil {b : UInt8} :
  unescape (b :: s) ≠ some []
  := by
  rw [unescape.eq_def]
  dsimp only
  split
  · split
    · split
      · simp
      · simp
    · simp
  · simp

theorem pathUnescape_ne_nil (h : s ≠ []) :
  pathUnescape s ≠ []
  := by
  obtain ⟨b, s, rfl⟩ := List.exists_cons_of_ne_nil h
  rw [pathUnescape]
  cases hu : unescape (b :: s) with
  | none => simp
  | some t =>
    rintro rfl
    exact unescape_ne_nil hu

/-- A segment in braces is the end marker or a wildcard with a name. -/
theorem parseWildcard_ok {seg : List UInt8} {last : Bool}
    (h : parseWildcard u seg last seen = .ok (segment, seen')) :
  seg.getLast? = some closeBrace
    ∧ (((seg.drop 1).dropLast = lit "$" ∧ segment = endMarker ∧ last = true)
      ∨ ((seg.drop 1).dropLast ≠ lit "$" ∧ ∃ name multi,
        cutDots (seg.drop 1).dropLast = (name, multi)
          ∧ segment = ⟨name, true, multi⟩ ∧ name ≠ [] ∧ (multi = true → last = true)))
  := by
  rw [parseWildcard] at h
  split at h
  · cases h
  rename_i hclose
  refine ⟨not_not.mp hclose, ?_⟩
  dsimp only at h
  split at h
  · rename_i hdollar
    split at h <;> cases h
    rename_i hlast
    exact .inl ⟨hdollar, rfl, hlast⟩
  rename_i hdollar
  refine .inr ⟨hdollar, _, _, rfl, ?_⟩
  split at h
  · cases h
  rename_i hmulti
  split at h
  · cases h
  rename_i hname
  split at h
  · cases h
  split at h
  · cases h
  cases h
  refine ⟨rfl, hname, fun hm => ?_⟩
  by_contra hl
  exact hmulti ⟨hm, hl⟩

/-- What a segment of a pattern may be. -/
theorem parseSegment_ok {seg : List UInt8} {last : Bool}
    (h : parseSegment u seg last seen = .ok (segment, seen')) :
  (segment.multi = true → segment.wild = true ∧ last = true)
    ∧ (last = true → segment.wild = false → segment.s ≠ [])
  := by
  rw [parseSegment] at h
  split at h
  · rename_i hlast
    cases h
    exact ⟨fun _ => ⟨rfl, hlast.1⟩, nofun⟩
  rename_i hlast
  split at h
  · cases h
    refine ⟨nofun, fun hl _ => pathUnescape_ne_nil ?_⟩
    exact fun hseg => hlast ⟨hl, hseg⟩
  · rcases (parseWildcard_ok h).2 with ⟨-, rfl, hl⟩ | ⟨-, name, multi, -, rfl, hname, hm⟩
    · exact ⟨nofun, fun _ _ => by decide⟩
    · exact ⟨fun h => ⟨rfl, hm h⟩, nofun⟩
  · cases h

theorem parseSegments_wellFormed {segs : List (List UInt8)} {off : ℕ} {seen : List (List UInt8)}
    {segments : List Segment} (hsegs : segs ≠ [])
    (h : parseSegments u segs off seen = .ok segments) :
  WellFormed segments
  := by
  induction segs generalizing off seen segments with
  | nil => exact absurd rfl hsegs
  | cons seg segs ih =>
    rw [parseSegments] at h
    split at h
    · cases h
    rename_i segment seen' hseg
    obtain ⟨hmulti, hlit⟩ := parseSegment_ok hseg
    split at h
    · cases h
    rename_i rest hrest
    cases h
    by_cases hnil : segs = []
    · subst hnil
      cases hrest
      exact ⟨fun hm => (hmulti hm).1, hlit (by simp)⟩
    have hrest' := ih hnil hrest
    obtain ⟨next, rest, rfl⟩ := List.exists_cons_of_ne_nil (show rest ≠ [] by
      rintro rfl
      exact hrest')
    refine ⟨?_, hrest'⟩
    by_contra hm
    have := (hmulti (by simpa using hm)).2
    simp [hnil] at this

/-- The segments of a pattern are read from what follows the first slash. -/
theorem parsePattern_ok {p : Pattern} (h : parsePattern u s = .ok p) :
  ∃ host path off, cut slash (splitMethod s).2.1 = some (host, path)
    ∧ parseSegments u (path.splitOn slash) off [] = .ok p.segments
  := by
  rw [parsePattern] at h
  split at h
  · cases h
  dsimp only at h
  split at h
  · cases h
  split at h
  · cases h
  rename_i host path hcut
  split at h
  · cases h
  split at h
  · cases h
  split at h <;> cases h
  rename_i segments hsegments
  exact ⟨host, path, _, hcut, hsegments⟩

theorem parsePattern_wellFormed {p : Pattern} (h : parsePattern u s = .ok p) :
  WellFormed p.segments
  := by
  obtain ⟨_, _, _, -, hsegments⟩ := parsePattern_ok h
  exact parseSegments_wellFormed (List.splitOn_ne_nil _ _) hsegments

end HttpMux
