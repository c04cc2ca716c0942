import Mathlib.Data.List.Basic

/-!
# Region redirects

A bucket lives in one region, and an endpoint of another region answers with a redirect.  If that
names the region but no location, the client derives the next host from the last one: it replaces
the label behind `s3`.  With virtual-host addressing the labels of the bucket come first, so the
label `s3` it finds may be one of the bucket's.

What the escaping of paths and queries and the resolution of locations do is left open.
-/

namespace S3

open List

/-! ### Addresses -/

structure Url where
  scheme : List Char
  host : List Char
  path : List Char
  rawPath : List Char
  rawQuery : List Char
  deriving DecidableEq, Repr

/-- What the client uses of other packages. -/
structure Library where
  uriEncode : List Char → List Char
  canonicalQuery : List (List Char × List Char) → List Char
  /-- `url.Parse` and `ResolveReference` -/
  resolve : Url → List Char → Except ℕ Url

/-- The part of a client that addresses requests. -/
structure Client where
  endpoint : Url
  pathStyle : Bool

structure Request where
  bucket : List Char
  key : List Char
  params : List (List Char × List Char)

def buildURL (lib : Library) (c : Client) (r : Request) : Url :=
  let host :=
    if r.bucket = [] ∨ c.pathStyle then c.endpoint.host else r.bucket ++ '.' :: c.endpoint.host
  let path :=
    if r.bucket = [] then ['/']
    else if c.pathStyle then
      '/' :: r.bucket ++ (if r.key = [] then [] else '/' :: r.key)
    else '/' :: r.key
  { c.endpoint with
    host, path, rawPath := lib.uriEncode path, rawQuery := lib.canonicalQuery r.params }

def s3 : List Char := ['s', '3']

def amazonaws : List Char := ['a', 'm', 'a', 'z', 'o', 'n', 'a', 'w', 's']

def com : List Char := ['c', 'o', 'm']

/-- What stands before the last colon, or all of it. -/
def stripPort (host : List Char) : List Char :=
  match host.reverse.dropWhile (· != ':') with
  | _ :: rest => rest.reverse
  | [] => host

def isAWSEndpoint (host : List Char) : Bool :=
  let host := stripPort host
  ('.' :: amazonaws ++ '.' :: com).isSuffixOf host || host = amazonaws ++ '.' :: com

/-! ### The next region -/

/-- `strings.Join`, with a dot. -/
def join (labels : List (List Char)) : List Char := ['.'].intercalate labels

/-- The loop of `retargetRegion`. -/
def retargetLabels (region : List Char) : List (List Char) → Option (List (List Char))
  | label :: next :: rest =>
    if label = s3 then
      if next = amazonaws then some (label :: region :: next :: rest)
      else some (label :: region :: rest)
    else (retargetLabels region (next :: rest)).map (label :: ·)
  | _ => none

def retargetRegion (host region : List Char) : Option (List Char) :=
  if isAWSEndpoint host then (retargetLabels region (host.splitOn '.')).map join else none

/-- The headers of a redirect that are looked at. -/
structure Redirection where
  location : List Char
  /-- `X-Amz-Bucket-Region` -/
  region : List Char

inductive RedirectErr where
  | url (code : ℕ)
  /-- `errRedirectWithoutTarget` -/
  | withoutTarget
  deriving DecidableEq, Repr

def redirectTarget (lib : Library) (resp : Redirection) (current : Url) :
    Except RedirectErr (Url × List Char) :=
  if resp.location ≠ [] then
    match lib.resolve current resp.location with
    | .error e => .error (.url e)
    | .ok next => .ok ({ next with rawPath := lib.uriEncode next.path }, resp.region)
  else if resp.region = [] then .error .withoutTarget
  else
    match retargetRegion current.host resp.region with
    | some host => .ok ({ current with host }, resp.region)
    | none => .ok (current, resp.region)

/-! ### Labels -/

variable {labels : List (List Char)} {region : List Char}

theorem join_cons (label : List Char) (h : labels ≠ []) :
  join (label :: labels) = label ++ '.' :: join labels
  := by
  obtain ⟨next, rest, rfl⟩ := exists_cons_of_ne_nil h
  rw [join, join]
  simp

theorem join_append {labels' : List (List Char)} (h : labels ≠ []) (h' : labels' ≠ []) :
  join (labels ++ labels') = join labels ++ '.' :: join labels'
  := by
  induction labels with
  | nil => exact absurd rfl h
  | cons label labels ih =>
    by_cases hnil : labels = []
    · subst hnil
      simpa [join] using join_cons label h'
    · rw [cons_append, join_cons label (by simp [hnil]), ih hnil, join_cons label hnil]
      simp

theorem join_splitOn (l : List Char) :
  join (l.splitOn '.') = l
  := intercalate_splitOn '.'

theorem retargetLabels_append (h : s3 ∉ labels) (next : List Char) (rest : List (List Char)) :
  retargetLabels region (labels ++ s3 :: next :: rest)
    = some (labels ++ s3 :: region :: (if next = amazonaws then next :: rest else rest))
  := by
  induction labels with
  | nil =>
    rw [nil_append, retargetLabels, if_pos rfl]
    split <;> rfl
  | cons label labels ih =>
    simp only [mem_cons, not_or] at h
    obtain ⟨hlabel, hlabels⟩ := h
    have hcons : ∃ l ls, labels ++ s3 :: next :: rest = l :: ls := by
      cases labels <;> exact ⟨_, _, rfl⟩
    obtain ⟨l, ls, hls⟩ := hcons
    rw [cons_append, hls, retargetLabels, if_neg (Ne.symm hlabel), ← hls, ih hlabels]
    rfl

/-! ### Regional hosts -/

/-- The digits of a port. -/
structure Port where
  digits : List Char
  isDigit : ∀ d ∈ digits, d.isDigit = true

def Port.suffix : Option Port → List Char
  | some port => ':' :: port.digits
  | none => []

/-- `s3.<region>.amazonaws.com` -/
def regional (region : List Char) (port : Option Port) : List Char :=
  s3 ++ '.' :: (region ++ '.' :: (amazonaws ++ '.' :: (com ++ Port.suffix port)))

/-- The labels of a regional host behind the region. -/
def tailLabels (port : Option Port) : List (List Char) := [amazonaws, com ++ Port.suffix port]

theorem dot_not_mem_suffix (port : Option Port) :
  '.' ∉ Port.suffix port
  := by
  cases port with
  | none => exact not_mem_nil
  | some port =>
    intro h
    rcases mem_cons.mp h with h | h
    · cases h
    · have := port.isDigit '.' h
      cases this

theorem splitOn_regional (bucket region : List Char) (port : Option Port) :
  (bucket ++ '.' :: regional region port).splitOn '.'
    = bucket.splitOn '.' ++ s3 :: (region.splitOn '.' ++ tailLabels port)
  := by
  have hcom : (com ++ Port.suffix port).splitOn '.' = [com ++ Port.suffix port] := by
    apply splitOn_eq_singleton
    intro h
    rcases mem_append.mp h with h | h
    · exact absurd h (by decide)
    · exact dot_not_mem_suffix port h
  rw [regional, splitOn_append_cons_self, splitOn_append_cons_self,
    splitOn_append_cons_self, splitOn_append_cons_self, hcom]
  rfl

theorem join_regional (region : List Char) (port : Option Port) :
  join (s3 :: region :: tailLabels port) = regional region port
  := by
  rw [join_cons s3 (by simp), join_cons region (by simp [tailLabels]), tailLabels]
  simp [join, regional]

/-- Which buckets and regions the redirect keeps apart: the host is taken for one of AWS, no label
of the bucket is `s3`, and the region is one label that is not `amazonaws`. -/
structure Separate (bucket region : List Char) (port : Option Port) : Prop where
  aws : isAWSEndpoint (bucket ++ '.' :: regional region port) = true
  bucket_ne : s3 ∉ bucket.splitOn '.'
  region_ne : '.' ∉ region ∧ region ≠ amazonaws

theorem Separate.retargetRegion {bucket : List Char} (h : Separate bucket region port)
    (new : List Char) :
  retargetRegion (bucket ++ '.' :: regional region port) new
    = some (bucket ++ '.' :: regional new port)
  := by
  have hregion : region.splitOn '.' = [region] := splitOn_eq_singleton h.region_ne.1
  rw [S3.retargetRegion, if_pos h.aws, splitOn_regional, hregion, singleton_append,
    retargetLabels_append h.bucket_ne, if_neg h.region_ne.2, Option.map_some,
    join_append (splitOn_ne_nil _ _) (by simp), join_splitOn, join_regional]

/-! ### What the redirect needs -/

theorem join_cancel {xs ys : List (List Char)} {label : List Char} (hxs : xs ≠ []) (hys : ys ≠ [])
    (h : join (labels ++ label :: xs) = join (labels ++ label :: ys)) :
  join xs = join ys
  := by
  rw [append_cons, append_cons labels label ys, join_append (by simp) hxs,
    join_append (by simp) hys] at h
  simpa using append_cancel_left h

theorem regional_injective {region' : List Char}
    (h : regional region port = regional region' port) :
  region = region'
  := by
  have hrest := append_cancel_left h
  rw [cons.injEq] at hrest
  exact append_cancel_right hrest.2

theorem splitOn_eq_singleton_imp {l label : List Char} (h : l.splitOn '.' = [label]) :
  '.' ∉ l ∧ l = label
  := by
  refine ⟨fun hmem => ?_, ?_⟩
  · obtain ⟨before, after, rfl⟩ := append_of_mem hmem
    rw [splitOn_append_cons_self] at h
    have hlength := congrArg length h
    have hbefore := length_pos_iff.mpr (splitOn_ne_nil '.' before)
    have hafter := length_pos_iff.mpr (splitOn_ne_nil '.' after)
    simp only [length_append, length_singleton] at hlength
    omega
  · rw [← join_splitOn l, h]
    exact intercalate_singleton

section Converse

variable {bucket old : List Char} {port : Option Port}

/-- Every region-only redirect leads to the endpoint of the new region, with the same bucket. -/
def KeepsBucket (bucket old : List Char) (port : Option Port) : Prop :=
  ∀ new, new ≠ [] →
    (retargetRegion (bucket ++ '.' :: regional old port) new).getD
      (bucket ++ '.' :: regional old port) = bucket ++ '.' :: regional new port

/-- The labels that the host should have. -/
theorem join_bucket (bucket new : List Char) (port : Option Port) :
  bucket ++ '.' :: regional new port
    = join (bucket.splitOn '.' ++ s3 :: ([new] ++ tailLabels port))
  := by
  rw [join_append (splitOn_ne_nil _ _) (by simp), join_splitOn, singleton_append, join_regional]

theorem KeepsBucket.aws (h : KeepsBucket bucket old port) :
  isAWSEndpoint (bucket ++ '.' :: regional old port) = true
  := by
  by_contra hnot
  have hold : ∀ new, new ≠ [] → old = new := by
    intro new hnew
    have hsame := h new hnew
    rw [retargetRegion, if_neg hnot] at hsame
    have hrest := append_cancel_left hsame
    rw [cons.injEq] at hrest
    exact regional_injective hrest.2
  have hx := hold ['x'] (by simp)
  have hy := hold ['y'] (by simp)
  simp [hx] at hy

/-- What the redirect has done, in terms of labels. -/
theorem KeepsBucket.join_eq (h : KeepsBucket bucket old port) {rest : List (List Char)}
    {next : List Char} (hlabels : s3 ∉ labels)
    (hhost : bucket.splitOn '.' ++ s3 :: (old.splitOn '.' ++ tailLabels port)
      = labels ++ s3 :: next :: rest)
    {new : List Char} (hnew : new ≠ []) :
  join (labels ++ s3 :: new :: (if next = amazonaws then next :: rest else rest))
    = join (bucket.splitOn '.' ++ s3 :: ([new] ++ tailLabels port))
  := by
  have hkeeps := h new hnew
  rw [retargetRegion, if_pos h.aws, splitOn_regional, hhost, retargetLabels_append hlabels,
    Option.map_some, Option.getD_some, join_bucket] at hkeeps
  exact hkeeps

theorem tailLabels_ne_nil (port : Option Port) :
  tailLabels port ≠ []
  := cons_ne_nil _ _

theorem join_around {label : List Char} {region : List (List Char)} (h : region ≠ [])
    (port : Option Port) :
  join (label :: (labels ++ (region ++ tailLabels port)))
    = join (label :: labels) ++ '.' :: (join region ++ '.' :: join (tailLabels port))
  := by
  rw [← cons_append, join_append (cons_ne_nil _ _) (by simp [h]),
    join_append h (tailLabels_ne_nil port)]

theorem KeepsBucket.bucket_ne (h : KeepsBucket bucket old port) :
  s3 ∉ bucket.splitOn '.'
  := by
  intro hmem
  obtain ⟨before, after, hbucket, hbefore⟩ := eq_append_cons_of_mem hmem
  -- the label behind the bucket's `s3`, and the others, whatever the region
  obtain ⟨next, rest, hrest⟩ : ∃ next rest, ∀ labels : List (List Char),
      after ++ s3 :: labels = next :: (rest ++ labels) := by
    cases after with
    | nil => exact ⟨s3, [], fun _ => rfl⟩
    | cons next after => exact ⟨next, after ++ [s3], fun _ => by simp⟩
  have hhost : bucket.splitOn '.' ++ s3 :: (old.splitOn '.' ++ tailLabels port)
      = before ++ s3 :: next :: (rest ++ (old.splitOn '.' ++ tailLabels port)) := by
    rw [hbucket, append_assoc, cons_append, hrest]
  have hjoin : ∀ new, new ≠ [] →
      join (new :: (if next = amazonaws then
          next :: (rest ++ (old.splitOn '.' ++ tailLabels port))
        else rest ++ (old.splitOn '.' ++ tailLabels port)))
      = join (next :: (rest ++ ([new] ++ tailLabels port))) := by
    intro new hnew
    have heq := h.join_eq hbefore hhost hnew
    rw [hbucket, append_assoc, cons_append, hrest] at heq
    refine join_cancel (by simp) (by simp) heq
  have hold := splitOn_ne_nil '.' old
  by_cases hnext : next = amazonaws
  · -- there is a label too many
    have hlength := congrArg length (hjoin ['x'] (by simp))
    rw [if_pos hnext, join_cons _ (cons_ne_nil _ _), join_around hold,
      join_around (cons_ne_nil _ _)] at hlength
    simp only [length_append, length_cons, length_nil,
      show join [['x']] = ['x'] from rfl] at hlength
    omega
  -- the first character of what follows depends on the new region, and should not
  have hhead : ∀ c : Char, (next ++ ['.']).head? = some c := by
    intro c
    have heq := congrArg head? (hjoin [c] (by simp))
    rw [if_neg hnext, join_cons _ (by simp [hold]), join_cons next (by simp)] at heq
    cases next with
    | nil | cons d next => simpa using heq.symm
  have hx := hhead 'x'
  have hy := hhead 'y'
  simp [hx] at hy

theorem KeepsBucket.region_ne (h : KeepsBucket bucket old port) :
  '.' ∉ old ∧ old ≠ amazonaws
  := by
  have htail := tailLabels_ne_nil port
  obtain ⟨label, labels, hold⟩ := exists_cons_of_ne_nil (splitOn_ne_nil '.' old)
  have hhost : bucket.splitOn '.' ++ s3 :: (old.splitOn '.' ++ tailLabels port)
      = bucket.splitOn '.' ++ s3 :: label :: (labels ++ tailLabels port) := by
    rw [hold, cons_append]
  have hnew : (['x'] : List Char) ≠ [] := cons_ne_nil _ _
  have heq := join_cancel (by simp) (by simp) (h.join_eq h.bucket_ne hhost hnew)
  have hrest : join (if label = amazonaws then label :: (labels ++ tailLabels port)
      else labels ++ tailLabels port) = join (tailLabels port) := by
    refine @join_cancel [] _ _ ['x'] ?_ htail heq
    split <;> simp [htail]
  have hlength := congrArg length hrest
  by_cases hlabel : label = amazonaws
  · rw [if_pos hlabel, ← cons_append, join_append (cons_ne_nil _ _) htail] at hlength
    simp only [length_append, length_cons] at hlength
    omega
  rw [if_neg hlabel] at hlength
  by_cases hlabels : labels = []
  · rw [hlabels] at hold
    obtain ⟨hdot, heq⟩ := splitOn_eq_singleton_imp hold
    exact ⟨hdot, heq ▸ hlabel⟩
  · rw [join_append hlabels htail] at hlength
    simp only [length_append, length_cons] at hlength
    omega

end Converse

theorem keepsBucket_iff (bucket old : List Char) (port : Option Port) :
  KeepsBucket bucket old port ↔ Separate bucket old port
  := by
  constructor
  · exact fun h => ⟨h.aws, h.bucket_ne, h.region_ne⟩
  · intro h new _
    rw [h.retargetRegion new]
    rfl

/-! ### The next request -/

/-- A region-only redirect changes the host alone. -/
theorem redirectTarget_region (lib : Library) (u : Url) (h : region ≠ []) :
  redirectTarget lib ⟨[], region⟩ u
    = .ok ({ u with host := (retargetRegion u.host region).getD u.host }, region)
  := by
  unfold redirectTarget
  simp only [ne_eq, not_true, if_false, h]
  cases retargetRegion u.host region <;> rfl

/-- With virtual-host addressing, a region-only redirect leads to the same bucket, path and query at
the endpoint of the new region, if and only if bucket and region can be told apart. -/
theorem redirectTarget_keeps_iff (lib : Library) (endpoint : Url) {bucket : List Char}
    (old : List Char) (port : Option Port) (hbucket : bucket ≠ []) :
  (∀ key params new, new ≠ [] → redirectTarget lib ⟨[], new⟩
          (buildURL lib ⟨{ endpoint with host := regional old port }, false⟩ ⟨bucket, key, params⟩)
        = .ok ({ buildURL lib ⟨{ endpoint with host := regional old port }, false⟩
            ⟨bucket, key, params⟩ with host := bucket ++ '.' :: regional new port }, new))
    ↔ Separate bucket old port
  := by
  rw [← keepsBucket_iff]
  have hhost : ∀ key params, (buildURL lib ⟨{ endpoint with host := regional old port }, false⟩
      ⟨bucket, key, params⟩).host = bucket ++ '.' :: regional old port :=
    fun key params => by simp [buildURL, hbucket]
  constructor
  · intro h new hnew
    have hnext := h [] [] new hnew
    rw [redirectTarget_region lib _ hnew, hhost, Except.ok.injEq, Prod.mk.injEq] at hnext
    exact congrArg Url.host hnext.1
  · intro h key params new hnew
    rw [redirectTarget_region lib _ hnew, hhost, h new hnew]

/-- A library that escapes nothing. -/
def plain : Library where
  uriEncode := id
  canonicalQuery _ := []
  resolve u _ := .ok u

def usEast : List Char := "us-east-1".toList

def euWest : List Char := "eu-west-1".toList

/-- The endpoint of a region. -/
def endpointOf (region : List Char) : Url := ⟨"https".toList, regional region none, [], [], []⟩

/-- A bucket with dots in its name. -/
theorem redirectTarget_keeps_iff_dots :
  Separate "my.logs".toList usEast none ∧
    ((∀ key params new, new ≠ [] → redirectTarget plain ⟨[], new⟩
          (buildURL plain ⟨{ endpointOf usEast with host := regional usEast none }, false⟩
            ⟨"my.logs".toList, key, params⟩)
        = .ok ({ buildURL plain ⟨{ endpointOf usEast with host := regional usEast none }, false⟩
            ⟨"my.logs".toList, key, params⟩ with
              host := "my.logs".toList ++ '.' :: regional new none }, new))
      ↔ Separate "my.logs".toList usEast none)
  := ⟨⟨by decide, by decide, by decide⟩,
    redirectTarget_keeps_iff plain (endpointOf usEast) usEast none (by decide)⟩

/-- The bucket `s3.logs` is lost: the next request goes to a host that starts with
`s3.eu-west-1.s3.us-east-1`. -/
theorem redirectTarget_overwrites_bucket :
  redirectTarget plain ⟨[], euWest⟩
      (buildURL plain ⟨endpointOf usEast, false⟩ ⟨"s3.logs".toList, "k".toList, []⟩)
    = .ok (⟨"https".toList, "s3.eu-west-1.s3.us-east-1.amazonaws.com".toList, "/k".toList,
        "/k".toList, []⟩, euWest)
  := by decide

end S3
