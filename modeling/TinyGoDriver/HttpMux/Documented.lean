import TinyGoDriver.HttpMux.Mux

/-!
# The documented meaning of patterns

Here is said what a pattern means in terms of its own text and of the escaped path, cut at its
slashes: a literal stands for the segment that is unescaped to it, `{name}` for one segment that is
not empty, `{$}` for the empty segment after a slash at the end, and a slash at the end or
`{name...}` for all that remain.

A segment that is unescaped to a slash the mux takes for the end of the path, since the value that
stands for the end is a slash, too.  It agrees with what is documented if and only if the comparison
does not come to such a segment, or to such a literal at the end, in a way that matters
(`matchesPath_eq_documented_iff`).
-/

namespace HttpMux

open GoRt Search List

/-- What a segment of a pattern stands for. -/
inductive Elem where
  /-- The segment that is unescaped to this value. -/
  | literal (value : List UInt8)
  /-- One segment that is not empty. -/
  | one
  /-- The empty segment at the end. -/
  | atEnd
  /-- All that remain. -/
  | rest
  deriving DecidableEq, Repr

def elemOf (last : Bool) (text : List UInt8) : Elem :=
  if last ∧ text = [] then .rest
  else if text = lit "\x7b$\x7d" then .atEnd
  else if text.head? = some openBrace then
    if (lit "...\x7d").isSuffixOf text then .rest else .one
  else .literal (pathUnescape text)

def elemsOf : List (List UInt8) → List Elem
  | [] => []
  | text :: texts => elemOf (texts = []) text :: elemsOf texts

/-- What the segments of a pattern stand for. -/
def patternElems (s : List UInt8) : List Elem :=
  match cut slash (splitMethod s).2.1 with
  | none => []
  | some (_, path) => elemsOf (path.splitOn slash)

/-- Whether the segments of an escaped path are as the pattern says. -/
def documented : List Elem → List (List UInt8) → Bool
  | [], segs => segs = []
  | _ :: _, [] => false
  | .rest :: _, _ :: _ => true
  | .atEnd :: elems, seg :: segs => seg = [] && segs = [] && documented elems segs
  | .one :: elems, seg :: segs => seg ≠ [] && documented elems segs
  | .literal value :: elems, seg :: segs => pathUnescape seg = value && documented elems segs

/-- The segments of an escaped path. -/
def pathSegments (path : List UInt8) : List (List UInt8) := (path.drop 1).splitOn slash

/-- Where a slash and the end of the path are mixed up: after a beginning that is as the pattern
says, `{name}` refuses a segment that is unescaped to a slash although the rest is as the pattern
says, or `{$}` takes it at the end, or a literal that is a slash takes the end. -/
def misread : List Elem → List (List UInt8) → Bool
  | .literal value :: elems, seg :: segs =>
    if segs = [] ∧ seg = [] then value = [slash] && elems = []
    else pathUnescape seg = value && misread elems segs
  | .one :: elems, seg :: segs =>
    if pathUnescape seg = [slash] then documented elems segs else seg ≠ [] && misread elems segs
  | .atEnd :: _, seg :: segs => segs = [] && pathUnescape seg = [slash]
  | _, _ => false

/-- How the mux keeps a segment of a pattern. -/
def Elem.Embeds (last : Prop) (segment : Segment) : Elem → Prop
  | .literal value => segment = ⟨value, false, false⟩ ∧ (last → value ≠ [])
  | .one => segment.wild = true ∧ segment.multi = false
  | .atEnd => segment = endMarker ∧ last
  | .rest => segment.multi = true

inductive Embeds : List Elem → List Segment → Prop
  | nil : Embeds [] []
  | cons {elem elems segment segments} : elem.Embeds (elems = []) segment →
    Embeds elems segments → Embeds (elem :: elems) (segment :: segments)

/-- A text in braces is what they enclose. -/
theorem eq_braces {text : List UInt8} (hopen : text.head? = some openBrace)
    (hclose : text.getLast? = some closeBrace) :
  text = openBrace :: (text.drop 1).dropLast ++ [closeBrace]
  := by
  obtain ⟨t, rfl⟩ := head?_eq_some_iff.mp hopen
  have hne : t ≠ [] := by
    rintro rfl
    cases hclose
  rw [getLast?_cons_of_ne_nil hne] at hclose
  obtain ⟨name, rfl⟩ := getLast?_eq_some_iff.mp hclose
  simp

/-- The dots at the end of a name are those in front of the brace. -/
theorem cutDots_snd (name : List UInt8) :
  (cutDots name).2 = (lit "...\x7d").isSuffixOf (openBrace :: name ++ [closeBrace])
  := by
  have hcut : (cutDots name).2 = (lit "...").isSuffixOf name := by
    rw [cutDots]
    split
    · rename_i h
      exact h.symm
    · rename_i h
      exact (Bool.eq_false_iff.mpr h).symm
  have hdots : lit "...\x7d" = lit "..." ++ [closeBrace] := by decide
  rw [hcut, Bool.eq_iff_iff, isSuffixOf_iff_suffix, isSuffixOf_iff_suffix, hdots,
    suffix_append_self_iff, suffix_cons_iff]
  constructor
  · exact .inr
  · rintro (h | h)
    · exact absurd (congrArg head? h) (by simp [lit, openBrace])
    · exact h

theorem parseSegment_embeds {u : Unicode} {text : List UInt8} {last : Bool}
    {seen seen' : List (List UInt8)} {segment : Segment}
    (h : parseSegment u text last seen = .ok (segment, seen')) :
  (elemOf last text).Embeds (last = true) segment
  := by
  rw [parseSegment] at h
  rw [elemOf]
  split at h
  · rename_i hlast
    cases h
    rw [if_pos hlast]
    rfl
  rename_i hlast
  rw [if_neg hlast]
  split at h
  · rename_i hcut
    have hmem := cut_eq_none_iff.mp hcut
    cases h
    rw [if_neg, if_neg]
    · exact ⟨rfl, fun h => pathUnescape_ne_nil fun htext => hlast ⟨h, htext⟩⟩
    · exact fun hhead => hmem (mem_of_head? hhead)
    · rintro rfl
      exact hmem (by decide)
  · rename_i after hcut
    obtain ⟨htext, -⟩ := cut_eq_some_iff.mp hcut
    have hopen : text.head? = some openBrace := by rw [htext]; rfl
    obtain ⟨hclose, hcases⟩ := parseWildcard_ok h
    have hbraces := eq_braces hopen hclose
    rw [if_pos hopen]
    rcases hcases with ⟨hname, rfl, hend⟩ | ⟨hname, name, multi, hdots, rfl, -, -⟩
    · rw [hname] at hbraces
      rw [if_pos (hbraces.trans (by decide))]
      exact ⟨rfl, hend⟩
    have htext : text ≠ lit "\x7b$\x7d" := by
      rintro rfl
      exact hname (by decide)
    have hmulti := cutDots_snd (text.drop 1).dropLast
    rw [hdots, ← hbraces] at hmulti
    rw [if_neg htext, ← hmulti]
    cases multi with
    | true => rfl
    | false => exact ⟨rfl, rfl⟩
  · cases h

variable {texts : List (List UInt8)} {segments : List Segment}

theorem parseSegments_embeds {u : Unicode} {off : ℕ} {seen : List (List UInt8)}
    (h : parseSegments u texts off seen = .ok segments) :
  Embeds (elemsOf texts) segments
  := by
  induction texts generalizing off seen segments with
  | nil =>
    cases h
    exact .nil
  | cons text texts ih =>
    rw [parseSegments] at h
    split at h
    · cases h
    rename_i segment seen' hsegment
    split at h <;> cases h
    rename_i rest hrest
    have hnil : (elemsOf texts = []) = (decide (texts = []) = true) := by
      cases texts with
      | nil | cons => simp [elemsOf]
    exact .cons (hnil ▸ parseSegment_embeds hsegment) (ih hrest)

theorem matchSegments_eq_documented_iff {elems : List Elem} (hembeds : Embeds elems segments)
    {segs : List (List UInt8)} (hempty : ∀ seg ∈ segs.dropLast, seg ≠ []) :
  matchSegments segments (segmentValues segs) = documented elems segs
    ↔ misread elems segs = false
  := by
  induction hembeds generalizing segs with
  | nil =>
    cases segs with
    | nil | cons seg segs => simp [matchSegments, segmentValues, documented, misread]
  | cons hembed hembeds ih =>
    rename_i elem elems segment segments
    cases segs with
    | nil => cases elem <;> simp [matchSegments, segmentValues, documented, misread]
    | cons seg segs =>
      have ih : matchSegments segments (segmentValues segs) = documented elems segs
          ↔ misread elems segs = false := by
        refine ih fun seg' hseg' => hempty seg' ?_
        rw [dropLast_cons_of_ne_nil (by rintro rfl; simp at hseg')]
        exact mem_cons_of_mem _ hseg'
      have hnil : documented elems [] = true ↔ elems = [] := by cases elems <;> simp [documented]
      have hnil' : matchSegments segments [] = true ↔ elems = [] := by
        cases hembeds <;> simp [matchSegments]
      have hvalues : segmentValues segs = [] ↔ segs = [] := by
        cases segs <;> simp [segmentValues]
      rw [segmentValues]
      cases elem with
      | literal value =>
        obtain ⟨rfl, hvalue⟩ := hembed
        simp only [matchSegments, documented, misread, Bool.false_eq_true, if_false, segmentValue,
          decide_eq_true_eq]
        split
        · -- the end of the path; a literal at the end of the pattern is not empty
          rename_i hend
          obtain ⟨rfl, rfl⟩ := hend
          have hunescape : pathUnescape [] = [] := rfl
          rw [segmentValues, hunescape]
          by_cases hlast : elems = []
          · have := hvalue hlast
            simp [hnil'.mpr hlast, hlast, this.symm, eq_comm]
          · rw [Bool.eq_false_iff.mpr (mt hnil.mp hlast), Bool.eq_false_iff.mpr (mt hnil'.mp hlast)]
            simp [hlast]
        · by_cases heq : pathUnescape seg = value <;> simp [heq, ih]
      | one =>
        obtain ⟨hwild, hmulti⟩ := hembed
        simp only [matchSegments, documented, misread, hwild, hmulti, Bool.false_eq_true, if_false,
          if_true, segmentValue, decide_eq_true_eq]
        by_cases hseg : seg = []
        · subst hseg
          have hlast : segs = [] := by
            by_contra hne
            exact hempty [] (by simp [dropLast_cons_of_ne_nil hne]) rfl
          simp [hlast, pathUnescape, unescape]
        · by_cases hslash : pathUnescape seg = [slash]
          · cases documented elems segs <;> simp [hseg, hslash]
          · simp [hseg, hslash, ih]
      | atEnd =>
        obtain ⟨rfl, rfl⟩ := hembed
        simp only [matchSegments, documented, misread, endMarker, Bool.false_eq_true, if_false,
          segmentValue, decide_eq_true_eq]
        cases hembeds
        by_cases hlast : segs = []
        · subst hlast
          by_cases hseg : seg = []
          · subst hseg
            simp [matchSegments, segmentValues, pathUnescape, unescape]
          · simp [matchSegments, segmentValues, hseg]
        · have := mt hvalues.mp hlast
          simp [matchSegments, hlast, this]
      | rest =>
        have hmulti : segment.multi = true := hembed
        simp [matchSegments, documented, misread, hmulti]

/-- The mux matches a pattern and a clean path as documented if and only if nothing is misread. -/
theorem matchesPath_eq_documented_iff {u : Unicode} {s : List UInt8} {p : Pattern}
    (hp : parsePattern u s = .ok p) {path : List UInt8} (hclean : cleanPath path = path) :
  matchesPath p (splitPath path) = documented (patternElems s) (pathSegments path)
    ↔ misread (patternElems s) (pathSegments path) = false
  := by
  obtain ⟨host, text, off, hcut, hsegments⟩ := parsePattern_ok hp
  obtain ⟨rest, hpath, hempty⟩ := (hclean ▸ isClean_cleanPath path).segments
  have helems : patternElems s = elemsOf (text.splitOn slash) := by
    rw [patternElems, hcut]
  have hsegs : pathSegments path = rest.splitOn slash := by
    rw [hpath]
    rfl
  rw [helems, hsegs, matchesPath, hpath, splitPath_segs]
  exact matchSegments_eq_documented_iff (parseSegments_embeds hsegments) hempty

/-- A wildcard in the middle and the end marker, and a path with an escaped slash in a segment. -/
theorem matchesPath_eq_documented_iff_escaped :
  ∃ p, parsePattern ascii (lit "GET /a/\x7bid\x7d/\x7b$\x7d") = .ok p
    ∧ matchesPath p (splitPath (lit "/a/b%2Fc/")) = true
    ∧ documented (patternElems (lit "GET /a/\x7bid\x7d/\x7b$\x7d"))
      (pathSegments (lit "/a/b%2Fc/")) = true
  := by
  have hp : parsePattern ascii (lit "GET /a/\x7bid\x7d/\x7b$\x7d")
      = .ok ⟨lit "GET /a/\x7bid\x7d/\x7b$\x7d", lit "GET", [],
          [⟨lit "a", false, false⟩, ⟨lit "id", true, false⟩, endMarker]⟩ := by
    decide +kernel
  refine ⟨_, hp, ?_, by decide +kernel⟩
  rw [(matchesPath_eq_documented_iff hp (by decide +kernel)).mpr (by decide +kernel)]
  decide +kernel

/-- A segment that is an escaped slash is taken for the end of the path: `{$}` matches it and a
wildcard does not, and a literal that is an escaped slash matches the end of the path. -/
theorem matchesPath_escaped_slash :
  (∃ p, parsePattern ascii (lit "/a/\x7b$\x7d") = .ok p ∧ cleanPath (lit "/a/%2F") = lit "/a/%2F"
      ∧ matchesPath p (splitPath (lit "/a/%2F")) = true
      ∧ documented (patternElems (lit "/a/\x7b$\x7d")) (pathSegments (lit "/a/%2F")) = false)
    ∧ (∃ p, parsePattern ascii (lit "/a/\x7bid\x7d") = .ok p
      ∧ matchesPath p (splitPath (lit "/a/%2F")) = false
      ∧ documented (patternElems (lit "/a/\x7bid\x7d")) (pathSegments (lit "/a/%2F")) = true)
    ∧ ∃ p, parsePattern ascii (lit "/a/%2F") = .ok p
      ∧ cleanPath (lit "/a/") = lit "/a/"
      ∧ matchesPath p (splitPath (lit "/a/")) = true
      ∧ documented (patternElems (lit "/a/%2F")) (pathSegments (lit "/a/")) = false
  := by
  refine ⟨⟨⟨lit "/a/\x7b$\x7d", [], [], [⟨lit "a", false, false⟩, endMarker]⟩, ?_⟩,
    ⟨⟨lit "/a/\x7bid\x7d", [], [], [⟨lit "a", false, false⟩, ⟨lit "id", true, false⟩]⟩, ?_⟩,
    ⟨lit "/a/%2F", [], [], [⟨lit "a", false, false⟩, ⟨[slash], false, false⟩]⟩, ?_⟩
  all_goals decide +kernel

end HttpMux
