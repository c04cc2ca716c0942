import TinyGoDriver.HttpMux.Mux
import TinyGoDriver.Go.SortStrings

/-!
# Redirects

A request whose path is not clean is sent to the clean one, and a request that only a pattern with a
slash at its end matches is sent to the path with a slash.

Such a redirect is the last one (`findHandler_redirect_once`): a clean path stays as it is, a slash
is added only where there is none, and a path without a redirect has none when it is asked for
again. What is asked for is the target's escaped path, since that is always a valid encoding.

The mux looks for such a pattern only when one is registered.  That changes no answer
(`matchOrRedirect_probe`), because no other pattern matches a path that ends in a slash.
-/

namespace HttpMux

open GoRt

/-- The fields of a `url.URL` that the mux reads and writes. -/
structure Url where
  host : List UInt8
  path : List UInt8
  rawPath : List UInt8
  rawQuery : List UInt8
  deriving DecidableEq, Repr

namespace Url

/-- Whether the raw path is an encoding of the path. -/
def validRawPath (u : Url) : Bool :=
  u.rawPath ≠ [] ∧ validEncoded u.rawPath ∧ unescape u.rawPath = some u.path

def escapedPath (u : Url) : List UInt8 :=
  if u.validRawPath then u.rawPath
  else if u.path = lit "*" then lit "*"
  else escape u.path

end Url

structure Request where
  method : List UInt8
  host : List UInt8
  url : Url
  deriving DecidableEq, Repr

/-- What a request is answered with. -/
inductive Answer (H : Type) where
  /-- A redirect to the URL, and the pattern that goes with it. -/
  | redirect (target : Url) (pattern : List UInt8)
  | handler (h : H) (pattern : Pattern) (values : List PathValue)
  | methodNotAllowed (allow : List (List UInt8))
  | notFound
  deriving DecidableEq, Repr

variable {H : Type}

def exactMatch (matched : Option (Route H)) (requestPath : List UInt8) : Bool :=
  match matched with
  | none => false
  | some r =>
    if ¬ (lastSegment r.pattern.segments).multi then true
    else if requestPath ≠ [] ∧ requestPath.getLast? ≠ some slash then false
    else r.pattern.segments.length = requestPath.count slash

def urlFromEscaped (escaped rawQuery : List UInt8) : Url :=
  ⟨[], (unescape escaped).getD escaped, escaped, rawQuery⟩

/-- `stripHostPort`, for what `net.SplitHostPort` makes of a host with a port. -/
def stripHostPort (splitHostPort : List UInt8 → Option (List UInt8)) (hostPort : List UInt8) :
    List UInt8 :=
  if 0x3a ∉ hostPort then hostPort else (splitHostPort hostPort).getD hostPort

def collectMethods (routes : List (Route H)) (host : List UInt8) (split : SplitRequestPath)
    (methods : List (List UInt8)) : List (List UInt8) :=
  routes.foldl (fun methods r =>
    if r.pattern.method = [] ∨ r.pattern.host ≠ [] ∧ r.pattern.host ≠ host then methods
    else if ¬ matchesPath r.pattern split then methods
    else if methods.contains r.pattern.method then methods
    else methods ++ [r.pattern.method]) methods

namespace ServeMux

def matchingMethods (mux : ServeMux H) (host requestPath : List UInt8) : List (List UInt8) :=
  let methods := collectMethods mux.routes host (splitPath requestPath) []
  let methods := if requestPath.getLast? ≠ some slash then
      collectMethods mux.routes host (splitPath (requestPath ++ [slash])) methods
    else methods
  let methods := if methods.contains methodGet ∧ ¬ methods.contains methodHead then
      methods ++ [methodHead]
    else methods
  sortStrings methods

/-- `matchOrRedirect`, for a request with this raw query, if the request may be redirected. -/
def matchOrRedirect (mux : ServeMux H) (host method requestPath : List UInt8)
    (rawQuery : Option (List UInt8)) : Option (Route H) × List PathValue × Option Url :=
  let (matched, values) := bestMatch mux.routes host method (splitPath requestPath)
  match rawQuery with
  | some rawQuery =>
    if mux.trailingSlash ∧ ¬ exactMatch matched requestPath ∧ requestPath ≠ []
        ∧ requestPath.getLast? ≠ some slash then
      let withSlash := requestPath ++ [slash]
      let redirectMatch := (bestMatch mux.routes host method (splitPath withSlash)).1
      if exactMatch redirectMatch withSlash then
        (redirectMatch, [], some (urlFromEscaped withSlash rawQuery))
      else (matched, values, none)
    else (matched, values, none)
  | none => (matched, values, none)

def finishMatch (mux : ServeMux H) (matched : Option (Route H)) (values : List PathValue)
    (host requestPath : List UInt8) : Answer H :=
  match matched with
  | some r => .handler r.handler r.pattern values
  | none =>
    let methods := mux.matchingMethods host requestPath
    if methods.length ≠ 0 then .methodNotAllowed methods else .notFound

/-- The pattern of a match, if there is one. -/
def patternStr (matched : Option (Route H)) : List UInt8 := (matched.map (·.pattern.str)).getD []

def findHandler (splitHostPort : List UInt8 → Option (List UInt8)) (mux : ServeMux H)
    (r : Request) : Answer H :=
  let escapedPath := r.url.escapedPath
  if r.method = connect then
    match mux.matchOrRedirect r.url.host r.method escapedPath (some r.url.rawQuery) with
    | (_, _, some redirectTo) => .redirect redirectTo redirectTo.path
    | (_, _, none) =>
      let (matched, values, _) := mux.matchOrRedirect r.host r.method escapedPath none
      mux.finishMatch matched values r.host escapedPath
  else
    let host := stripHostPort splitHostPort r.host
    let requestPath := cleanPath escapedPath
    match mux.matchOrRedirect host r.method requestPath (some r.url.rawQuery) with
    | (matched, _, some redirectTo) => .redirect redirectTo (patternStr matched)
    | (matched, values, none) =>
      if requestPath ≠ escapedPath then
        .redirect (urlFromEscaped requestPath r.url.rawQuery) (patternStr matched)
      else mux.finishMatch matched values host requestPath

end ServeMux

/-! ### Valid encodings -/

/-- An escaped path that can be unescaped. -/
def Valid (s : List UInt8) : Prop := validEncoded s ∧ (unescape s).isSome

theorem Valid.nil : Valid [] := ⟨rfl, rfl⟩

theorem valid_append_slash {s t : List UInt8} :
  Valid (s ++ slash :: t) ↔ Valid s ∧ Valid t
  := by
  rw [Valid, Valid, Valid, validEncoded_append, isSome_unescape_slash]
  tauto

theorem valid_escapedPath (u : Url) :
  Valid u.escapedPath
  := by
  rw [Url.escapedPath]
  split
  · rename_i h
    simp only [Url.validRawPath, decide_eq_true_eq] at h
    exact ⟨h.2.1, by rw [h.2.2]; rfl⟩
  · split
    · exact ⟨by decide, by decide⟩
    · exact ⟨validEncoded_escape _, by rw [unescape_escape]; rfl⟩

/-- What holds of a path just when it holds of the pieces between its slashes is kept by
cleaning. -/
theorem cleanPath_induction {P : List UInt8 → Prop} (hnil : P [])
    (happend : ∀ s t, P (s ++ slash :: t) ↔ P s ∧ P t) {s : List UInt8} (hs : P s) :
  P (cleanPath s)
  := by
  have hcons : ∀ t, P t → P (slash :: t) := fun t ht => (happend [] t).mpr ⟨hnil, ht⟩
  have hslash : ∀ rest, P (slash :: rest) → P (cleanPath (slash :: rest)) := by
    intro rest hrest
    have hclean : P (clean (slash :: rest)) := by
      refine hcons _ (joinSlash_induction hnil (fun s t hs ht => (happend s t).mpr ⟨hs, ht⟩) ?_)
      intro e he
      exact (splitOn_induction (fun s t h => (happend s t).mp h) hrest e
        ((mem_of_mem_foldl_cleanStep he).resolve_left List.not_mem_nil)).1
    rw [cleanPath_slash]
    split
    · exact (happend _ _).mpr ⟨hclean, hnil⟩
    · exact hclean
  by_cases hempty : s = []
  · subst hempty
    exact hcons [] hnil
  by_cases hhead : s.head? = some slash
  · obtain ⟨rest, rfl⟩ := List.head?_eq_some_iff.mp hhead
    exact hslash rest hs
  · rw [cleanPath_of_not_slash hempty hhead]
    exact hslash s (hcons s hs)

theorem valid_cleanPath {s : List UInt8} (h : Valid s) : Valid (cleanPath s) :=
  cleanPath_induction Valid.nil (fun _ _ => valid_append_slash) h

/-- A URL made from a valid path has it as its raw path, and asks for it. -/
theorem urlFromEscaped_valid {escaped : List UInt8} (h : Valid escaped) (hne : escaped ≠ [])
    (rawQuery : List UInt8) :
  (urlFromEscaped escaped rawQuery).validRawPath
  := by
  obtain ⟨path, hpath⟩ := Option.isSome_iff_exists.mp h.2
  simp [Url.validRawPath, urlFromEscaped, hne, h.1, hpath]

/-! ### One redirect -/

namespace ServeMux

variable {splitHostPort : List UInt8 → Option (List UInt8)} {mux : ServeMux H}

variable {host method requestPath rawQuery : List UInt8} {target : Url} {r : Request}

theorem matchOrRedirect_some
    (h : (mux.matchOrRedirect host method requestPath (some rawQuery)).2.2 = some target) :
  target = urlFromEscaped (requestPath ++ [slash]) rawQuery
    ∧ requestPath.getLast? ≠ some slash
  := by
  rw [matchOrRedirect.eq_def] at h
  dsimp only at h
  split at h
  · rename_i hslash
    split at h <;> cases h
    exact ⟨rfl, hslash.2.2.2⟩
  · cases h

/-- Whether there is a redirect does not depend on the query. -/
theorem matchOrRedirect_isSome (rawQuery' : List UInt8) :
  (mux.matchOrRedirect host method requestPath (some rawQuery)).2.2.isSome
    = (mux.matchOrRedirect host method requestPath (some rawQuery')).2.2.isSome
  := by
  rw [matchOrRedirect.eq_def, matchOrRedirect.eq_def]
  dsimp only
  split_ifs <;> rfl

/-- What a request other than `CONNECT` is redirected to. -/
theorem findHandler_eq_redirect (hmethod : r.method ≠ connect) {pattern : List UInt8}
    (h : mux.findHandler splitHostPort r = .redirect target pattern) :
  (mux.matchOrRedirect (stripHostPort splitHostPort r.host) r.method
      (cleanPath r.url.escapedPath) (some r.url.rawQuery)).2.2 = some target
    ∨ ((mux.matchOrRedirect (stripHostPort splitHostPort r.host) r.method
        (cleanPath r.url.escapedPath) (some r.url.rawQuery)).2.2 = none
      ∧ cleanPath r.url.escapedPath ≠ r.url.escapedPath
      ∧ target = urlFromEscaped (cleanPath r.url.escapedPath) r.url.rawQuery)
  := by
  rw [findHandler] at h
  dsimp only at h
  rw [if_neg hmethod] at h
  split at h
  · rename_i hmatch
    cases h
    exact .inl (by rw [hmatch])
  rename_i hmatch
  refine .inr ⟨by rw [hmatch], ?_⟩
  split at h
  · rename_i hne
    cases h
    exact ⟨hne, rfl⟩
  · rw [finishMatch.eq_def] at h
    split at h
    · cases h
    · dsimp only at h
      split at h <;> cases h

/-- A request for a clean path to which no slash is added is not redirected. -/
theorem findHandler_ne_redirect (hmethod : r.method ≠ connect)
    (hclean : cleanPath r.url.escapedPath = r.url.escapedPath)
    (hnone : (mux.matchOrRedirect (stripHostPort splitHostPort r.host) r.method r.url.escapedPath
      (some r.url.rawQuery)).2.2 = none) (target : Url) (pattern : List UInt8) :
  mux.findHandler splitHostPort r ≠ .redirect target pattern
  := by
  intro h
  rcases findHandler_eq_redirect hmethod h with hsome | ⟨-, hne, -⟩
  · rw [hclean, hnone] at hsome
    cases hsome
  · exact hne hclean

end ServeMux

/-- What is asked for when a redirect is followed.  The target is written as a string, which is read
again; a raw path that encodes the path comes through that. -/
def Preserves (follow : Url → Url) : Prop :=
  ∀ u : Url, u.validRawPath → IsClean u.rawPath → (follow u).escapedPath = u.rawPath

theorem IsClean.append_slash {p : List UInt8} (h : IsClean p)
    (hlast : p.getLast? ≠ some GoRt.slash) :
  IsClean (p ++ [GoRt.slash])
  := by
  cases h with
  | elems h =>
    refine IsClean.slash h fun hnil => hlast ?_
    rw [hnil]
    rfl
  | slash h hne => exact absurd (List.getLast?_concat ..) hlast

/-- A redirect is not followed by another one.  Its target is the clean path, perhaps with a slash,
with the query of the request, and it encodes what it did before. -/
theorem findHandler_redirect_once {splitHostPort : List UInt8 → Option (List UInt8)}
    {mux : ServeMux H} {r : Request} (hmethod : r.method ≠ connect) {follow : Url → Url}
    (hfollow : Preserves follow) {target : Url} {pattern : List UInt8}
    (h : mux.findHandler splitHostPort r = .redirect target pattern) :
  (∀ target' pattern', mux.findHandler splitHostPort { r with url := follow target }
      ≠ .redirect target' pattern')
    ∧ (target.rawPath = cleanPath r.url.escapedPath
      ∨ target.rawPath = cleanPath r.url.escapedPath ++ [slash])
    ∧ target.rawQuery = r.url.rawQuery
    ∧ target.validRawPath
  := by
  have hclean := isClean_cleanPath r.url.escapedPath
  have hvalid := valid_cleanPath (valid_escapedPath r.url)
  have hmethod' : ({ r with url := follow target } : Request).method ≠ connect := hmethod
  rcases ServeMux.findHandler_eq_redirect hmethod h with hslash | ⟨hnone, -, rfl⟩
  · -- the target ends in a slash
    obtain ⟨rfl, hlast⟩ := ServeMux.matchOrRedirect_some hslash
    have hclean' := hclean.append_slash hlast
    have hvalid' := valid_append_slash.mpr ⟨hvalid, Valid.nil⟩
    have htarget := urlFromEscaped_valid hvalid' (by simp) r.url.rawQuery
    have hpath := hfollow _ htarget hclean'
    refine ⟨ServeMux.findHandler_ne_redirect hmethod' ?_ ?_, .inr rfl, rfl, htarget⟩
    · rw [hpath]
      exact cleanPath_of_isClean hclean'
    · refine Option.eq_none_iff_forall_ne_some.mpr fun _ hm => ?_
      apply (ServeMux.matchOrRedirect_some hm).2
      rw [hpath]
      exact List.getLast?_concat
  · -- the target is the clean path
    have hne : cleanPath r.url.escapedPath ≠ [] := by
      obtain ⟨rest, hrest, -⟩ := hclean.segments
      simp [hrest]
    have htarget := urlFromEscaped_valid hvalid hne r.url.rawQuery
    have hpath := hfollow _ htarget hclean
    refine ⟨ServeMux.findHandler_ne_redirect hmethod' ?_ ?_, .inl rfl, rfl, htarget⟩
    · rw [hpath]
      exact cleanPath_of_isClean hclean
    · rw [hpath, ← Option.isNone_iff_eq_none, ← Option.not_isSome,
        ServeMux.matchOrRedirect_isSome r.url.rawQuery]
      exact congrArg (!Option.isSome ·) hnone

/-- The path that is read from a string, as `setPath` of `net/url` keeps it. -/
def reparse (u : Url) : Url :=
  let p := u.escapedPath
  match unescape p with
  | none => u
  | some path => ⟨u.host, path, if p = escape path then [] else p, u.rawQuery⟩

theorem preserves_reparse : Preserves reparse := by
  intro u hu hclean
  have hescaped : u.escapedPath = u.rawPath := by rw [Url.escapedPath, if_pos hu]
  simp only [Url.validRawPath, decide_eq_true_eq] at hu
  obtain ⟨hne, hvalid, hpath⟩ := hu
  -- a path that begins with a slash is not the one that is left as it is
  have hstar : u.path ≠ lit "*" := by
    obtain ⟨rest, hrest, -⟩ := hclean.segments
    rw [hrest, unescape_cons_of_ne (by decide)] at hpath
    obtain ⟨path, -, hpath⟩ := Option.map_eq_some_iff.mp hpath
    rw [← hpath]
    intro hstar
    exact absurd (List.cons.inj hstar).1 (by decide)
  rw [reparse]
  simp only [hescaped, hpath]
  split
  · rename_i heq
    simp [Url.escapedPath, Url.validRawPath, hstar, heq]
  · simp [Url.escapedPath, Url.validRawPath, hne, hvalid, hpath]

/-- A path that is neither clean nor ends in a slash is cleaned and given one, with its escaping. -/
theorem findHandler_redirect_once_subtree :
  ∃ mux : ServeMux ℕ, newServeMux.registerAll ascii [(lit "/a%2Fb/", .handler 0)] = .ok mux
    ∧ ∃ target pattern, mux.findHandler (fun _ => none)
        ⟨lit "GET", lit "h", ⟨[], lit "//a/b", lit "//a%2Fb", lit "q"⟩⟩ = .redirect target pattern
      ∧ target.rawPath = lit "/a%2Fb/"
      ∧ ∀ target' pattern', mux.findHandler (fun _ => none) ⟨lit "GET", lit "h", reparse target⟩
        ≠ .redirect target' pattern'
  := by
  have hmux : newServeMux.registerAll ascii [(lit "/a%2Fb/", .handler 0)]
      = .ok ⟨[⟨⟨lit "/a%2Fb/", [], [], [⟨lit "a/b", false, false⟩, subtree]⟩, 0⟩], true⟩ := by
    decide +kernel
  have hredirect : ServeMux.findHandler (fun _ => none)
      ⟨[⟨⟨lit "/a%2Fb/", [], [], [⟨lit "a/b", false, false⟩, subtree]⟩, 0⟩], true⟩
      ⟨lit "GET", lit "h", ⟨[], lit "//a/b", lit "//a%2Fb", lit "q"⟩⟩
        = .redirect ⟨[], lit "/a/b/", lit "/a%2Fb/", lit "q"⟩ (lit "/a%2Fb/") := by
    decide +kernel
  have honce := findHandler_redirect_once (by decide +kernel) preserves_reparse hredirect
  exact ⟨_, hmux, _, _, hredirect, rfl, honce.1⟩

/-! ### The probe for a path with a slash -/

/-- Registrations one after the other, of which those that fail leave the mux as it is. -/
def ServeMux.registerEach (u : Unicode) (mux : ServeMux H)
    (regs : List (List UInt8 × HandlerArg H)) : ServeMux H :=
  regs.foldl (fun mux reg => (mux.register u reg.1 reg.2).toOption.getD mux) mux

/-- The routes do not conflict, and the flag is set if one of them is for a path with a slash. -/
structure ServeMux.Flagged (mux : ServeMux H) : Prop where
  apart : Apart mux.routes
  flag : ∀ r ∈ mux.routes, r.pattern.endsInSlash → mux.trailingSlash

theorem ServeMux.Flagged.register {mux mux' : ServeMux H} (h : mux.Flagged) {u : Unicode}
    {s : List UInt8} {handler : HandlerArg H} (hreg : mux.register u s handler = .ok mux') :
  mux'.Flagged
  := by
  obtain ⟨r, hr, hnot, rfl⟩ := register_eq_ok_iff.mp hreg
  refine ⟨Apart.append_singleton.mpr ⟨h.apart, routeOf_wellFormed hr, hnot⟩, fun r' hr' hends => ?_⟩
  rw [ServeMux.add, Bool.or_eq_true]
  rcases List.mem_append.mp hr' with hr' | hr'
  · exact .inl (h.flag r' hr' hends)
  · exact .inr (List.mem_singleton.mp hr' ▸ hends)

theorem flagged_registerEach (u : Unicode) (regs : List (List UInt8 × HandlerArg H)) :
  (newServeMux.registerEach u regs).Flagged
  := by
  refine List.foldlRecOn regs _ ⟨.nil, by simp [newServeMux]⟩ fun mux hmux reg _ => ?_
  cases hreg : mux.register u reg.1 reg.2 with
  | error e => exact hmux
  | ok mux' => exact hmux.register hreg

/-- A path that ends in a slash is matched only by a pattern that ends in one. -/
theorem endsInSlash_of_match {segs : List Segment} {values : List (List UInt8)}
    (hwf : WellFormed segs) (hm : matchSegments segs values)
    (hlast : values.getLast? = some [slash]) :
  (lastSegment segs).multi ∨ (lastSegment segs).s = [slash]
  := by
  induction segs generalizing values with
  | nil => exact hwf.elim
  | cons seg segs ih =>
    by_cases hsegs : segs = []
    · subst hsegs
      change seg.multi ∨ seg.s = [slash]
      by_contra! hnot
      obtain ⟨v, rfl, htakes⟩ := (matchSegments_single (by simpa using hnot.1)).mp hm
      obtain rfl : v = [slash] := by simpa using hlast
      rw [Segment.Takes] at htakes
      split at htakes
      · exact htakes rfl
      · exact hnot.2 htakes.symm
    · obtain ⟨hmulti, hwf⟩ := (wellFormed_cons hsegs).mp hwf
      obtain ⟨v, values, rfl⟩ := List.exists_cons_of_ne_nil
        (matchSegments_ne_nil (List.cons_ne_nil seg segs) hm)
      obtain ⟨-, hm⟩ := (matchSegments_cons hmulti).mp hm
      obtain ⟨w, values, rfl⟩ := List.exists_cons_of_ne_nil (matchSegments_ne_nil hsegs hm)
      rw [lastSegment_cons seg hsegs]
      exact ih hwf hm hlast

theorem ServeMux.Flagged.exactMatch_eq_false {mux : ServeMux H} (h : mux.Flagged)
    (hflag : mux.trailingSlash = false) (host method : List UInt8) {path : List UInt8}
    (hlast : path.getLast? = some slash) :
  exactMatch (bestMatch mux.routes host method (splitPath path)).1 path = false
  := by
  have hbest := isBest_foldl host method path h.apart
  rw [← bestMatch_fst] at hbest
  cases hm : (bestMatch mux.routes host method (splitPath path)).1 with
  | none => rfl
  | some r =>
    rw [hm] at hbest
    obtain ⟨hr, hcand, -⟩ := hbest
    have hmatch := endsInSlash_of_match (h.apart.wellFormed r hr) (isCandidate_iff.mp hcand).2.2
      (splitPath_getLast? hlast)
    have := h.flag r hr (by simpa [Pattern.endsInSlash] using hmatch)
    simp [hflag] at this

/-- After any registrations, the answer is the one of a mux that probes every path with a slash
appended, whatever the flag says. -/
theorem matchOrRedirect_probe (u : Unicode) (regs : List (List UInt8 × HandlerArg H))
    (host method requestPath : List UInt8) (rawQuery : Option (List UInt8)) :
  (newServeMux.registerEach u regs).matchOrRedirect host method requestPath rawQuery
    = { newServeMux.registerEach u regs with trailingSlash := true }.matchOrRedirect host method
        requestPath rawQuery
  := by
  have h := flagged_registerEach u regs
  generalize newServeMux.registerEach u regs = mux at h
  cases hflag : mux.trailingSlash with
  | true => rw [← hflag]
  | false =>
    cases rawQuery with
    | none => rfl
    | some rawQuery =>
      have hfalse := h.exactMatch_eq_false hflag host method
        (List.getLast?_concat (l := requestPath))
      simp [ServeMux.matchOrRedirect, hflag, hfalse]

end HttpMux
