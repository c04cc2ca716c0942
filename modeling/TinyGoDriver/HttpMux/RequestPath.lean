import TinyGoDriver.HttpMux.Compare

/-!
# Paths of requests

The escaped path of a request is cut at its slashes, and each piece is unescaped.  A slash at the
end of the path gives a last value that is itself a slash.

The lists of values that paths are cut into form a `PathDomain` (`pathDomain_splitPaths`), so that
patterns compare as the sets of requests that they match (`comparePathsAndMethods_matched`).
-/

namespace HttpMux

open GoRt Search List

structure SplitRequestPath where
  segs : List (List UInt8)
  rawTails : List (List UInt8)
  deriving DecidableEq, Repr

def firstSegment (requestPath : List UInt8) : List UInt8 × List UInt8 :=
  if requestPath = [slash] then ([slash], [])
  else
    let withoutSlash := requestPath.drop 1
    match cut slash withoutSlash with
    | none => (pathUnescape withoutSlash, [])
    | some (seg, rest) => (pathUnescape seg, slash :: rest)

theorem firstSegment_length {b : UInt8} {rest : List UInt8} :
  (firstSegment (b :: rest)).2.length < (b :: rest).length
  := by
  rw [firstSegment]
  split
  · simp
  dsimp only [drop_succ_cons, drop_zero]
  split
  · simp
  rename_i seg after hcut
  obtain ⟨rfl, -⟩ := cut_eq_some_iff.mp hcut
  simp

def splitPath : List UInt8 → SplitRequestPath
  | [] => ⟨[], []⟩
  | b :: rest =>
    let split := splitPath (firstSegment (b :: rest)).2
    ⟨(firstSegment (b :: rest)).1 :: split.segs, (b :: rest) :: split.rawTails⟩
  termination_by requestPath => requestPath.length
  decreasing_by exact firstSegment_length

def matchesPath (p : Pattern) (split : SplitRequestPath) : Bool :=
  matchSegments p.segments split.segs

structure PathValue where
  name : List UInt8
  value : List UInt8
  deriving DecidableEq, Repr

/-- The loop of `pathValues`, over a pattern that matches. -/
def collectValues : List Segment → List (List UInt8) → List (List UInt8) → List PathValue
  | seg :: segs, value :: values, tail :: rawTails =>
    if seg.multi then
      if seg.s ≠ [] then [⟨seg.s, pathUnescape (tail.drop 1)⟩] else []
    else if seg.wild then ⟨seg.s, value⟩ :: collectValues segs values rawTails
    else collectValues segs values rawTails
  | _, _, _ => []

def pathValues (p : Pattern) (split : SplitRequestPath) : List PathValue :=
  collectValues p.segments split.segs split.rawTails

/-! ### The values of a path -/

/-- The value of a segment of a path. -/
def segmentValue (last : Bool) (seg : List UInt8) : List UInt8 :=
  if last ∧ seg = [] then [slash] else pathUnescape seg

/-- The values of the segments of a path. -/
def segmentValues : List (List UInt8) → List (List UInt8)
  | [] => []
  | seg :: segs => segmentValue (segs = []) seg :: segmentValues segs

theorem splitPath_segs_cons (b : UInt8) (rest : List UInt8) :
  (splitPath (b :: rest)).segs
    = (firstSegment (b :: rest)).1 :: (splitPath (firstSegment (b :: rest)).2).segs
  := by
  rw [splitPath]

/-- A path is cut at its slashes. -/
theorem splitPath_segs (rest : List UInt8) :
  (splitPath (slash :: rest)).segs = segmentValues (rest.splitOn slash)
  := by
  rw [splitPath_segs_cons, firstSegment]
  cases hcut : cut slash rest with
  | none =>
    rw [splitOn_eq_singleton (cut_eq_none_iff.mp hcut)]
    by_cases hnil : rest = []
    · simp [hnil, splitPath, segmentValues, segmentValue]
    · simp [hnil, hcut, splitPath, segmentValues, segmentValue]
  | some x =>
    obtain ⟨seg, after⟩ := x
    obtain ⟨hrest, hmem⟩ := cut_eq_some_iff.mp hcut
    have hne : slash :: rest ≠ [slash] := by simp [hrest]
    have ih := splitPath_segs after
    rw [if_neg hne, hrest, splitOn_append_cons_self, splitOn_eq_singleton hmem, ← hrest]
    simp only [drop_succ_cons, drop_zero, hcut, ih, singleton_append, segmentValues, segmentValue]
    simp [splitOn_ne_nil]
  termination_by rest.length
  decreasing_by
    rw [hrest]
    simp
    omega

/-- The last value of a path that ends in a slash is a slash. -/
theorem splitPath_getLast? {path : List UInt8} (h : path.getLast? = some slash) :
  (splitPath path).segs.getLast? = some [slash]
  := by
  cases path with
  | nil => cases h
  | cons b rest =>
    rw [splitPath_segs_cons, firstSegment]
    split
    · simp [splitPath]
    rename_i hne
    have hlast : rest.getLast? = some slash := by
      cases rest with
      | nil => simp_all
      | cons c rest => simpa using h
    cases hcut : cut slash rest with
    | none => exact absurd (mem_of_getLast? hlast) (cut_eq_none_iff.mp hcut)
    | some x =>
      obtain ⟨hrest, -⟩ := cut_eq_some_iff.mp hcut
      have ih : (splitPath (slash :: x.2)).segs.getLast? = some [slash] :=
        splitPath_getLast? (by simpa [hrest] using hlast)
      simp [hcut, getLast?_cons, ih]
  termination_by path.length
  decreasing_by
    subst_vars
    simp

theorem segmentValues_ended {segs : List (List UInt8)} :
  segmentValues segs ∈ ended
  := by
  induction segs with
  | nil => simp [segmentValues, ended]
  | cons seg segs ih =>
    cases segs with
    | nil =>
      by_cases hseg : seg = []
      · simp [segmentValues, segmentValue, ended, hseg]
      · simpa [segmentValues, segmentValue, ended, hseg] using pathUnescape_ne_nil hseg
    | cons next segs =>
      rw [segmentValues, pathDomain_ended.cons]
      · exact ih
      · simp [segmentValues]

/-- Every byte of the value, escaped. -/
def escapeValue (v : List UInt8) : List UInt8 := v.flatMap escapeByte

theorem pathUnescape_escapeValue (v : List UInt8) :
  pathUnescape (escapeValue v) = v
  := by
  rw [pathUnescape, escapeValue, unescape_flatMap unescape_escapeByte, Option.getD_some]

theorem slash_not_mem_escapeValue (v : List UInt8) :
  slash ∉ escapeValue v
  := by
  have hbyte : ∀ b : UInt8, slash ∉ escapeByte b := by
    apply forall_byte
    decide +kernel
  simp [escapeValue, hbyte]

variable {values : List (List UInt8)} {p₁ p₂ p : Pattern}

/-- Every list without an empty value at its end is what a path is cut into. -/
theorem segmentValues_escapeValue (h : values ∈ ended) :
  segmentValues (values.map escapeValue) = values
  := by
  induction values with
  | nil => rfl
  | cons v values ih =>
    rw [map_cons, segmentValues, segmentValue]
    by_cases hnil : values = []
    · subst hnil
      have hv : escapeValue v ≠ [] := by
        obtain ⟨b, v, rfl⟩ := exists_cons_of_ne_nil (by simpa [ended] using h)
        simp [escapeValue, escapeByte]
      simp [hv, pathUnescape_escapeValue, segmentValues]
    · rw [ih ((pathDomain_ended.cons v values hnil).mp h)]
      simp [hnil, pathUnescape_escapeValue]

/-- The lists of values that paths are cut into. -/
def splitPaths : Set (List (List UInt8)) := Set.range fun path => (splitPath path).segs

theorem mem_splitPaths_of_ended (h : values ∈ ended) :
  values ∈ splitPaths
  := by
  by_cases hnil : values = []
  · exact ⟨[], by simp [hnil, splitPath]⟩
  refine ⟨slash :: joinSlash (values.map escapeValue), ?_⟩
  have hsplit : (joinSlash (values.map escapeValue)).splitOn slash = values.map escapeValue := by
    apply splitOn_intercalate
    · simp [slash_not_mem_escapeValue]
    · simpa using hnil
  show (splitPath _).segs = values
  rw [splitPath_segs, hsplit, segmentValues_escapeValue h]

/-- Only a path that does not begin with a slash can give an empty value at the end, and then no
other. -/
theorem pathDomain_splitPaths : PathDomain splitPaths where
  single v hv := mem_splitPaths_of_ended (by simpa [ended] using hv)
  cons v values hvalues := by
    constructor
    · rintro ⟨path, hpath⟩
      dsimp only at hpath
      cases path with
      | nil => simp [splitPath] at hpath
      | cons b rest =>
        rw [splitPath_segs_cons] at hpath
        obtain ⟨-, rfl⟩ := cons.inj hpath
        rw [firstSegment] at hvalues ⊢
        split at hvalues
        · simp [splitPath] at hvalues
        rename_i hslash
        rw [if_neg hslash]
        dsimp only at hvalues ⊢
        split at hvalues
        · simp [splitPath] at hvalues
        · rw [splitPath_segs]
          exact segmentValues_ended
    · intro hended
      exact mem_splitPaths_of_ended ((pathDomain_ended.cons v values hvalues).mpr hended)

/-- The pairs of a method and a split path that the pattern matches. -/
def Pattern.matched (p : Pattern) : Set (List UInt8 × SplitRequestPath) :=
  {x | x.2 ∈ Set.range splitPath ∧ matchesMethod p.method x.1 ∧ matchesPath p x.2}

/-- Matching a pattern is seen from the values of the path. -/
theorem Pattern.mem_matched_splitPath {method path : List UInt8} :
  (method, splitPath path) ∈ p.matched ↔ (method, (splitPath path).segs) ∈ p.requests splitPaths
  := by
  simp [Pattern.matched, Pattern.requests, splitPaths, methodSet, matchSet, matchesPath]

theorem Pattern.nonempty_matched (h : WellFormed p.segments) :
  p.matched.Nonempty
  := by
  obtain ⟨⟨method, values⟩, hx⟩ := Pattern.nonempty_requests pathDomain_splitPaths h
  obtain ⟨path, rfl⟩ := hx.2.2
  exact ⟨(method, splitPath path), Pattern.mem_matched_splitPath.mpr hx⟩

/-- Patterns compare as the sets of requests that they match. -/
theorem comparePathsAndMethods_matched (h₁ : WellFormed p₁.segments) (h₂ : WellFormed p₂.segments) :
  (p₁.comparePathsAndMethods p₂).denote.Holds p₁.matched p₂.matched
  := by
  -- both sets are seen from the pairs of a method and a path
  let f : List UInt8 × List UInt8 → List UInt8 × SplitRequestPath := fun x => (x.1, splitPath x.2)
  let g : List UInt8 × List UInt8 → List UInt8 × List (List UInt8) := fun x =>
    (x.1, (splitPath x.2).segs)
  have hpre : ∀ p : Pattern, Set.preimage f p.matched = Set.preimage g (p.requests splitPaths) :=
    fun p => Set.ext fun x => Pattern.mem_matched_splitPath
  have hf : ∀ p : Pattern, p.matched ⊆ Set.range f := by
    rintro p ⟨m, split⟩ ⟨⟨path, rfl⟩, -⟩
    exact ⟨(m, path), rfl⟩
  have hg : ∀ p : Pattern, p.requests splitPaths ⊆ Set.range g := by
    rintro p ⟨m, values⟩ ⟨-, -, path, rfl⟩
    exact ⟨(m, path), rfl⟩
  have hne : ∀ {p : Pattern}, WellFormed p.segments → (p.requests splitPaths).Nonempty :=
    Pattern.nonempty_requests pathDomain_splitPaths
  rw [← SetRelation.holds_preimage_iff (Pattern.nonempty_matched h₁) (Pattern.nonempty_matched h₂)
    (hf p₁) (hf p₂), hpre, hpre,
    SetRelation.holds_preimage_iff (hne h₁) (hne h₂) (hg p₁) (hg p₂)]
  exact comparePathsAndMethods_holds pathDomain_splitPaths h₁ h₂

theorem comparePathsAndMethods_eq_iff (h₁ : WellFormed p₁.segments) (h₂ : WellFormed p₂.segments)
    {r : Relationship} :
  p₁.comparePathsAndMethods p₂ = r ↔ r.denote.Holds p₁.matched p₂.matched
  := by
  have h := comparePathsAndMethods_matched h₁ h₂
  constructor
  · rintro rfl
    exact h
  · intro hr
    exact denote_injective
      (h.unique (Pattern.nonempty_matched h₁) (Pattern.nonempty_matched h₂) hr)

/-! ### Clean paths -/

/-- A path of elements, which may end in a slash. -/
inductive IsClean : List UInt8 → Prop where
  | elems {elems : List (List UInt8)} (h : Proper elems) : IsClean (slash :: joinSlash elems)
  | slash {elems : List (List UInt8)} (h : Proper elems) (hne : elems ≠ []) :
      IsClean (slash :: joinSlash elems ++ [slash])

/-- A slash at the end is kept. -/
theorem cleanPath_slash (rest : List UInt8) :
  cleanPath (slash :: rest)
    = if (slash :: rest).getLast? = some slash ∧ clean (slash :: rest) ≠ [slash] then
        clean (slash :: rest) ++ [slash]
      else clean (slash :: rest)
  := by
  rw [cleanPath, if_neg (cons_ne_nil _ _)]
  simp only [head?_cons, if_true]
  generalize slash :: rest = p
  generalize clean p = np
  split
  · rename_i hslash
    split
    · -- the path is the clean one and one byte more, and it ends in a slash
      rename_i hprefix
      obtain ⟨t, rfl⟩ := isPrefixOf_iff_prefix.mp hprefix.2
      have hlength : t.length = 1 := by simpa using hprefix.1
      obtain ⟨c, rfl⟩ := length_eq_one_iff.mp hlength
      have hc : c = slash := by simpa using hslash.1
      rw [hc]
    · rfl
  · rfl

variable {p : List UInt8}

theorem cleanPath_of_not_slash (hnil : p ≠ []) (hhead : p.head? ≠ some slash) :
  cleanPath p = cleanPath (slash :: p)
  := by
  rw [cleanPath, if_neg hnil, if_neg hhead, cleanPath, if_neg (cons_ne_nil _ _)]
  simp only [head?_cons, if_true]

theorem isClean_cleanPath (p : List UInt8) :
  IsClean (cleanPath p)
  := by
  have hslash : ∀ rest, IsClean (cleanPath (slash :: rest)) := by
    intro rest
    have helems := proper_cleanElems (slash :: rest)
    rw [cleanPath_slash]
    split
    · rename_i h
      refine IsClean.slash helems fun hnil => h.2 ?_
      rw [clean, hnil]
      rfl
    · exact IsClean.elems helems
  by_cases hnil : p = []
  · subst hnil
    exact IsClean.elems Proper.nil
  by_cases hhead : p.head? = some slash
  · obtain ⟨rest, rfl⟩ := head?_eq_some_iff.mp hhead
    exact hslash rest
  · rw [cleanPath_of_not_slash hnil hhead]
    exact hslash p

theorem joinSlash_ne_nil {elems : List (List UInt8)} (h : Proper elems) (hne : elems ≠ []) :
  joinSlash elems ≠ [] ∧ (joinSlash elems).getLast? ≠ some slash
  := by
  induction elems with
  | nil => exact absurd rfl hne
  | cons e elems ih =>
    obtain ⟨he, -, -, hslash⟩ := h e mem_cons_self
    by_cases hnil : elems = []
    · subst hnil
      have hjoin : joinSlash [e] = e := append_nil e
      rw [hjoin]
      exact ⟨he, fun hlast => hslash (mem_of_getLast? hlast)⟩
    · obtain ⟨hne', hlast⟩ := ih (fun e he => h e (mem_cons_of_mem _ he)) hnil
      rw [joinSlash_cons e hnil]
      refine ⟨by simp, ?_⟩
      rwa [getLast?_append_cons, getLast?_cons_of_ne_nil hne']

/-- A clean path stays as it is. -/
theorem cleanPath_of_isClean (h : IsClean p) :
  cleanPath p = p
  := by
  cases h with
  | elems h =>
    rename_i elems
    have hclean : clean (slash :: joinSlash elems) = slash :: joinSlash elems := by
      rw [clean, ← append_nil (slash :: joinSlash elems), cleanElems_join h (.inl rfl)]
      simp
    rw [cleanPath_slash, hclean]
    by_cases hnil : elems = []
    · subst hnil
      simp [joinSlash]
    · obtain ⟨hne, hlast⟩ := joinSlash_ne_nil h hnil
      rw [getLast?_cons_of_ne_nil hne]
      simp [hlast]
  | slash h hne =>
    rename_i elems
    have hclean : clean (slash :: (joinSlash elems ++ [slash])) = slash :: joinSlash elems := by
      rw [clean, ← cons_append, cleanElems_join h (.inr rfl)]
    have hjoin := (joinSlash_ne_nil h hne).1
    rw [cons_append, cleanPath_slash, hclean, if_pos]
    · rfl
    · exact ⟨by rw [← cons_append, getLast?_concat], by simpa using hjoin⟩

/-- Only the last segment of a clean path can be empty. -/
theorem IsClean.segments (h : IsClean p) :
  ∃ rest, p = GoRt.slash :: rest ∧ ∀ seg ∈ (rest.splitOn GoRt.slash).dropLast, seg ≠ []
  := by
  cases h with
  | elems h =>
    rename_i elems
    refine ⟨_, rfl, fun seg hseg => ?_⟩
    by_cases hnil : elems = []
    · subst hnil
      simp [joinSlash] at hseg
    · rw [joinSlash, splitOn_intercalate _ (fun e he => (h e he).2.2.2) hnil] at hseg
      exact (h seg (mem_of_mem_dropLast hseg)).1
  | slash h hne =>
    rename_i elems
    refine ⟨joinSlash elems ++ [GoRt.slash], rfl, fun seg hseg => ?_⟩
    rw [splitOn_append_cons_self, joinSlash,
      splitOn_intercalate _ (fun e he => (h e he).2.2.2) hne] at hseg
    simp only [splitOn_nil, dropLast_concat] at hseg
    exact (h seg hseg).1

end HttpMux
