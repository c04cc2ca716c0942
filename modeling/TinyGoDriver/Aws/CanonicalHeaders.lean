import TinyGoDriver.Aws.CanonicalQuery
import TinyGoDriver.HttpServer.Upgrade

/-!
# The canonical headers

The signature covers the host and some of the headers of a request.  `collectHeaders` lists them in
the order of their names, and what is hashed has a line for each.

The signature asks for all the values of a header in its line, trimmed and with one space for each
run of them.  `collectHeaders` takes the first value and only trims it, and of names that differ in
case it keeps whichever the map gives last.  The lines are those that are asked for if and only if
there is no header for which this makes a difference (`collectHeaders_canonical_iff`).
-/

namespace Aws

open GoRt List

/-- The headers of a request, which Go keeps in a map.  The order is the one in which a loop happens
to go through the map. -/
structure Header where
  entries : List (List UInt8 × List (List UInt8))
  nodup : (entries.map Prod.fst).Nodup

namespace Header

/-- The values at a key. -/
def get (h : Header) (key : List UInt8) : List (List UInt8) := (h.entries.lookup key).getD []

/-- The header with these values at a key. -/
def set (h : Header) (key : List UInt8) (values : List (List UInt8)) : Header where
  entries := (key, values) :: h.entries.filter fun e => e.1 ≠ key
  nodup := by
    rw [List.map_cons, List.nodup_cons]
    constructor
    · simp
    · exact h.nodup.sublist (List.filter_sublist.map _)

end Header

structure Request where
  host : List UInt8
  urlHost : List UInt8
  header : Header

/-- One canonical header: a lowercase name and its raw value. -/
structure SignedHeader where
  name : List UInt8
  value : List UInt8
  deriving DecidableEq, Repr

/-- A name as the header map stores it, and as the canonical request wants it. -/
structure HeaderName where
  canonical : List UInt8
  lower : List UInt8

def signedHeaderNames : List HeaderName :=
  [⟨lit "Content-Encoding", lit "content-encoding"⟩, ⟨lit "Content-Md5", lit "content-md5"⟩,
    ⟨lit "Content-Type", lit "content-type"⟩,
    ⟨lit "Range", lit "range"⟩]

def hostName : List UInt8 := lit "host"

def host (req : Request) : List UInt8 := if req.host ≠ [] then req.host else req.urlHost

def insertHeader (name value : List UInt8) : List SignedHeader → List SignedHeader
  | [] => [⟨name, value⟩]
  | h :: hs =>
    if h.name < name then h :: insertHeader name value hs
    else if h.name = name then ⟨name, value⟩ :: hs
    else ⟨name, value⟩ :: h :: hs

def hasXAmzPrefix (name : List UInt8) : Bool :=
  (name.take 6).map HttpServer.lowerASCII = lit "x-amz-"

/-- `strings.ToLower`; what it makes of letters beyond ASCII is left open. -/
def toLower (unicode : List UInt8 → List UInt8) (s : List UInt8) : List UInt8 :=
  if s.all (· < 0x80) then s.map HttpServer.lowerASCII else unicode s

def lowerHeaderName (unicode : List UInt8 → List UInt8) (name : List UInt8) : List UInt8 :=
  if name = lit "X-Amz-Date" then lit "x-amz-date"
  else if name = lit "X-Amz-Content-Sha256" then lit "x-amz-content-sha256"
  else if name = lit "X-Amz-Security-Token" then lit "x-amz-security-token"
  else if name = lit "X-Amz-Target" then lit "x-amz-target"
  else toLower unicode name

def collectHeaders (unicode : List UInt8 → List UInt8) (req : Request) (all : Bool) :
    List SignedHeader :=
  let headers := insertHeader hostName (host req) []
  if all then
    req.header.entries.foldl (fun headers e =>
      match e.2 with
      | v :: _ => insertHeader (lowerHeaderName unicode e.1) v headers
      | [] => headers) headers
  else
    let headers := signedHeaderNames.foldl (fun headers name =>
      match req.header.get name.canonical with
      | v :: _ => if v ≠ [] then insertHeader name.lower v headers else headers
      | [] => headers) headers
    req.header.entries.foldl (fun headers e =>
      match e.2 with
      | v :: _ =>
        if hasXAmzPrefix e.1 then insertHeader (lowerHeaderName unicode e.1) v headers
        else headers
      | [] => headers) headers

def semicolon : UInt8 := 0x3b

def joinHeaderNames (headers : List SignedHeader) : List UInt8 :=
  [semicolon].intercalate (headers.map SignedHeader.name)

/-- The lines of the headers in what `canonicalRequestHash` hashes. -/
def headerBlock (headers : List SignedHeader) : List UInt8 :=
  headers.flatMap fun h =>
    h.name ++ HttpServer.colon :: HttpServer.trimSpace h.value ++ [HttpServer.lf]

/-- The two ways to sign a request, with what the first one puts into the headers. -/
inductive Signer where
  | sign (amzDate payloadHash sessionToken : List UInt8)
  | presign

namespace Signer

/-- The request whose headers are collected. -/
def prepare (signer : Signer) (req : Request) : Request :=
  match signer with
  | sign amzDate payloadHash sessionToken =>
    let header := (req.header.set (lit "X-Amz-Date") [amzDate]).set
      (lit "X-Amz-Content-Sha256") [payloadHash]
    let header := if sessionToken ≠ [] then
        header.set (lit "X-Amz-Security-Token") [sessionToken]
      else header
    { req with header := header }
  | presign => req

/-- Whether every header is signed. -/
def all : Signer → Bool
  | sign _ _ _ => false
  | presign => true

end Signer

/-! ### The lines that are asked for -/

/-- One space for each run of them. -/
def collapseSpaces : List UInt8 → List UInt8
  | [] => []
  | [b] => [b]
  | b :: c :: s =>
    if b = HttpServer.sp ∧ c = HttpServer.sp then collapseSpaces (c :: s)
    else b :: collapseSpaces (c :: s)

/-- All the values of a header. -/
def canonicalValue (values : List (List UInt8)) : List UInt8 :=
  [HttpServer.comma].intercalate (values.map fun v => collapseSpaces (HttpServer.trimSpace v))

/-- Whether a header is covered by the signature. -/
def isCovered (unicode : List UInt8 → List UInt8) (all : Bool) (name : List UInt8) : Bool :=
  all || hasXAmzPrefix name
    || (signedHeaderNames.map HeaderName.lower).contains (toLower unicode name)

/-- The headers that are covered, as the map has them. -/
def covered (unicode : List UInt8 → List UInt8) (req : Request) (all : Bool) :
    List (List UInt8 × List (List UInt8)) :=
  req.header.entries.filter fun e => e.2 ≠ [] ∧ isCovered unicode all e.1

/-- All the values of the headers with a name, and the host, which no header stands for. -/
def signedValues (unicode : List UInt8 → List UInt8) (req : Request) (all : Bool)
    (name : List UInt8) : List (List UInt8) :=
  if name = hostName then [host req]
  else ((covered unicode req all).filter fun e => toLower unicode e.1 = name).flatMap Prod.snd

/-- The names and the values that are asked for, by name. -/
def sigV4Headers (unicode : List UInt8 → List UInt8) (req : Request) (all : Bool) :
    List (List UInt8 × List UInt8) :=
  (sortStrings (hostName :: (covered unicode req all).map fun e => toLower unicode e.1).dedup).map
    fun name => (name, canonicalValue (signedValues unicode req all name))

/-- What stands in the lines of collected headers. -/
def lines (headers : List SignedHeader) : List (List UInt8 × List UInt8) :=
  headers.map fun h => (h.name, HttpServer.trimSpace h.value)

/-- The lines that are asked for. -/
def sigV4Block (headers : List (List UInt8 × List UInt8)) : List UInt8 :=
  headers.flatMap fun h => h.1 ++ HttpServer.colon :: h.2 ++ [HttpServer.lf]

/-- A value that has no run of spaces inside. -/
def NoRuns (v : List UInt8) : Prop :=
  collapseSpaces (HttpServer.trimSpace v) = HttpServer.trimSpace v

instance (v : List UInt8) : Decidable (NoRuns v) := inferInstanceAs (Decidable (_ = _))

/-- The headers are such that the first value tells the line: each covered one has a single value
without runs of spaces, and no two names are the same but for case.  Where there are headers with
the name of the host, the first value of each is the host.  With `Sign` the four that are covered by
their name are stored under the canonical one, and not empty. -/
structure Plain (unicode : List UInt8 → List UInt8) (req : Request) (all : Bool) : Prop where
  host : (∀ e ∈ covered unicode req all, toLower unicode e.1 ≠ hostName) → NoRuns (host req)
  hosts : ∀ e ∈ covered unicode req all, toLower unicode e.1 = hostName →
    e.2.head?.map HttpServer.trimSpace = some (canonicalValue [Aws.host req])
  single : ∀ e ∈ covered unicode req all, toLower unicode e.1 ≠ hostName →
    ∃ v, e.2 = [v] ∧ NoRuns v
  names : ∀ e ∈ covered unicode req all, toLower unicode e.1 ≠ hostName →
    ∀ e' ∈ covered unicode req all, toLower unicode e'.1 = toLower unicode e.1 → e' = e
  canonical : all = false → ∀ e ∈ covered unicode req all, ¬ hasXAmzPrefix e.1 →
    e.1 ∈ signedHeaderNames.map HeaderName.canonical ∧ e.2.head? ≠ some []

/-! ### Inserting -/

variable {name : List UInt8} {hs : List SignedHeader} {p : List UInt8 × List UInt8}

theorem mem_insertHeader_name {value n : List UInt8} :
  n ∈ (insertHeader name value hs).map SignedHeader.name
    ↔ n = name ∨ n ∈ hs.map SignedHeader.name
  := by
  induction hs with
  | nil => simp [insertHeader]
  | cons h hs ih =>
    rw [insertHeader]
    split
    · rw [map_cons, mem_cons, map_cons, mem_cons]
      tauto
    split
    · rename_i heq
      simp [heq]
    · simp

/-- The list stays sorted by name. -/
theorem pairwise_insertHeader {value : List UInt8}
    (h : (hs.map SignedHeader.name).Pairwise (· < ·)) :
  ((insertHeader name value hs).map SignedHeader.name).Pairwise (· < ·)
  := by
  induction hs with
  | nil => simp [insertHeader]
  | cons first hs ih =>
    rw [map_cons, pairwise_cons] at h
    rw [insertHeader]
    split
    · rename_i hlt
      rw [map_cons, pairwise_cons]
      refine ⟨fun n hn => ?_, ih h.2⟩
      rcases mem_insertHeader_name.mp hn with rfl | hn
      · exact hlt
      · exact h.1 n hn
    rename_i hlt
    split
    · rename_i heq
      rw [map_cons, pairwise_cons]
      exact ⟨fun n hn => heq ▸ h.1 n hn, h.2⟩
    rename_i hne
    have hgt := lt_of_not_lt_of_ne hlt hne
    rw [map_cons, pairwise_cons, map_cons, pairwise_cons]
    refine ⟨fun n hn => ?_, h⟩
    rcases mem_cons.mp hn with rfl | hn
    · exact hgt
    · exact List.lt_trans hgt (h.1 n hn)

/-- The new header replaces the one with its name. -/
theorem mem_insertHeader {value : List UInt8}
    (hsorted : (hs.map SignedHeader.name).Pairwise (· < ·)) {h : SignedHeader} :
  h ∈ insertHeader name value hs ↔ h = ⟨name, value⟩ ∨ (h ∈ hs ∧ h.name ≠ name)
  := by
  induction hs with
  | nil => simp [insertHeader]
  | cons first hs ih =>
    rw [List.map_cons, List.pairwise_cons] at hsorted
    have hrest : ∀ h ∈ hs, first.name < h.name := fun h hh =>
      hsorted.1 h.name (List.mem_map_of_mem hh)
    rw [insertHeader]
    split
    · rename_i hlt
      have hne : first.name ≠ name := fun heq => List.lt_irrefl _ (heq ▸ hlt)
      rw [List.mem_cons, ih hsorted.2, List.mem_cons]
      constructor
      · rintro (rfl | hnew | ⟨hh, hname⟩)
        · exact .inr ⟨.inl rfl, hne⟩
        · exact .inl hnew
        · exact .inr ⟨.inr hh, hname⟩
      · rintro (hnew | ⟨rfl | hh, hname⟩)
        · exact .inr (.inl hnew)
        · exact .inl rfl
        · exact .inr (.inr ⟨hh, hname⟩)
    rename_i hlt
    split
    · rename_i heq
      have hne : ∀ h ∈ hs, h.name ≠ name := fun h hh hname =>
        List.lt_irrefl _ (hname.trans heq.symm ▸ hrest h hh)
      rw [List.mem_cons, List.mem_cons]
      constructor
      · rintro (hnew | hh)
        · exact .inl hnew
        · exact .inr ⟨.inr hh, hne h hh⟩
      · rintro (hnew | ⟨rfl | hh, hname⟩)
        · exact .inl hnew
        · exact absurd heq hname
        · exact .inr hh
    rename_i hname
    have hgt := lt_of_not_lt_of_ne hlt hname
    have hne : ∀ h ∈ first :: hs, h.name ≠ name := by
      intro h hh heq
      rcases List.mem_cons.mp hh with rfl | hh
      · exact hname heq
      · exact List.lt_irrefl _ (heq ▸ List.lt_trans hgt (hrest h hh))
    rw [List.mem_cons]
    constructor
    · rintro (hnew | hh)
      · exact .inl hnew
      · exact .inr ⟨hh, hne h hh⟩
    · rintro (hnew | ⟨hh, -⟩)
      · exact .inl hnew
      · exact .inr hh

/-! ### What is inserted -/

/-- The headers that come of inserting one after the other. -/
def insertAll (inserts : List (List UInt8 × List UInt8)) : List SignedHeader :=
  inserts.foldl (fun headers p => insertHeader p.1 p.2 headers) []

theorem pairwise_insertAll (inserts : List (List UInt8 × List UInt8)) :
  ((insertAll inserts).map SignedHeader.name).Pairwise (· < ·)
  := by
  induction inserts using reverseRecOn with
  | nil => exact List.Pairwise.nil
  | append_singleton inserts p ih =>
    rw [insertAll, foldl_append]
    exact pairwise_insertHeader ih

/-- Of the values that are inserted with a name, the last one is kept. -/
theorem mem_insertAll {inserts : List (List UInt8 × List UInt8)} {header : SignedHeader} :
  header ∈ insertAll inserts ↔ inserts.reverse.lookup header.name = some header.value
  := by
  induction inserts using reverseRecOn with
  | nil => simp [insertAll]
  | append_singleton inserts p ih =>
    have hfold : insertAll (inserts ++ [p]) = insertHeader p.1 p.2 (insertAll inserts) := by
      rw [insertAll, foldl_append]
      rfl
    obtain ⟨n, v⟩ := header
    rw [hfold, mem_insertHeader (pairwise_insertAll inserts), ih, reverse_append, reverse_singleton,
      singleton_append, lookup_cons]
    by_cases hname : n = p.1
    · simp [hname, eq_comm]
    · simp [hname, beq_false_of_ne hname]

/-- The lowercase name of a header and its first value. -/
def firstOf (unicode : List UInt8 → List UInt8) (e : List UInt8 × List (List UInt8)) :
    Option (List UInt8 × List UInt8) :=
  e.2.head?.map fun v => (lowerHeaderName unicode e.1, v)

/-- What `collectHeaders` inserts after the host. -/
def inserted (unicode : List UInt8 → List UInt8) (header : Header) (all : Bool) :
    List (List UInt8 × List UInt8) :=
  if all then header.entries.filterMap (firstOf unicode)
  else
    signedHeaderNames.filterMap (fun name =>
      ((header.get name.canonical).head?.filter (· ≠ [])).map fun v => (name.lower, v))
    ++ header.entries.filterMap fun e => if hasXAmzPrefix e.1 then firstOf unicode e else none

variable (unicode : List UInt8 → List UInt8)

theorem collectHeaders_eq (req : Request) (all : Bool) :
  collectHeaders unicode req all
    = insertAll ((hostName, host req) :: inserted unicode req.header all)
  := by
  rw [collectHeaders, insertAll, inserted, foldl_cons]
  cases all with
  | true =>
    simp only [if_true, foldl_filterMap]
    congr 1
    funext headers e
    rcases e with ⟨name, _ | ⟨v, values⟩⟩ <;> rfl
  | false =>
    simp only [Bool.false_eq_true, if_false, foldl_append, foldl_filterMap]
    congr 1
    · funext headers e
      rcases e with ⟨name, _ | ⟨v, values⟩⟩
      · simp [firstOf]
      · cases hasXAmzPrefix name <;> simp [firstOf]
    · congr 1
      funext headers name
      cases req.header.get name.canonical with
      | nil => rfl
      | cons v values =>
        by_cases hv : v = [] <;> simp [hv, Option.filter]

/-! ### Plain headers -/

theorem lowerHeaderName_eq (name : List UInt8) :
  lowerHeaderName unicode name = toLower unicode name
  := by
  rw [lowerHeaderName]
  split_ifs with h₁ h₂ h₃ h₄
  · rw [h₁]; rfl
  · rw [h₂]; rfl
  · rw [h₃]; rfl
  · rw [h₄]; rfl
  · rfl

theorem Header.get_eq_iff {h : Header} {key v : List UInt8} {values : List (List UInt8)} :
  h.get key = v :: values ↔ (key, v :: values) ∈ h.entries
  := by
  have hlookup : h.entries.lookup key = some (v :: values) ↔ (key, v :: values) ∈ h.entries := by
    obtain ⟨entries, hnodup⟩ := h
    induction entries with
    | nil => simp
    | cons e entries ih =>
      obtain ⟨name, values'⟩ := e
      rw [map_cons, nodup_cons] at hnodup
      by_cases hname : key = name
      · subst hname
        have hnot : (key, v :: values) ∉ entries := fun hmem =>
          hnodup.1 (mem_map.mpr ⟨_, hmem, rfl⟩)
        simp [lookup_cons_self, hnot, eq_comm]
      · rw [lookup_cons, beq_false_of_ne hname]
        simpa [hname] using ih hnodup.2
  rw [Header.get, ← hlookup]
  cases h.entries.lookup key <;> simp

theorem toLower_canonical {name : HeaderName}
    (h : name ∈ signedHeaderNames) :
  toLower unicode name.canonical = name.lower
  := by
  simp only [signedHeaderNames, mem_cons, not_mem_nil, or_false] at h
  rcases h with rfl | rfl | rfl | rfl <;> rfl

variable {unicode : List UInt8 → List UInt8} {req : Request} {all : Bool}

variable {e : List UInt8 × List (List UInt8)}

theorem mem_covered :
  e ∈ covered unicode req all
    ↔ e ∈ req.header.entries ∧ e.2 ≠ [] ∧ isCovered unicode all e.1 = true
  := by
  simp [covered]

theorem firstOf_eq_some_iff :
  firstOf unicode e = some p ↔ toLower unicode e.1 = p.1 ∧ ∃ values, e.2 = p.2 :: values
  := by
  obtain ⟨name, _ | ⟨v, values⟩⟩ := e
  · simp [firstOf]
  · simp [firstOf, lowerHeaderName_eq, Prod.ext_iff]

/-- A header that `collectHeaders` inserts if it has a value. -/
def IsInserted (all : Bool) (e : List UInt8 × List (List UInt8)) : Prop :=
  all = true ∨ hasXAmzPrefix e.1 = true
    ∨ (e.1 ∈ signedHeaderNames.map HeaderName.canonical ∧ e.2.head? ≠ some [])

theorem mem_inserted {header : Header} :
  p ∈ inserted unicode header all ↔ ∃ e ∈ header.entries, IsInserted all e
    ∧ toLower unicode e.1 = p.1 ∧ ∃ values, e.2 = p.2 :: values
  := by
  cases all with
  | true => simp [inserted, IsInserted, firstOf_eq_some_iff]
  | false =>
    simp only [inserted, Bool.false_eq_true, if_false, mem_append, mem_filterMap, IsInserted,
      false_or]
    constructor
    · rintro (⟨name, hname, hp⟩ | ⟨e, he, hp⟩)
      · obtain ⟨v, hv, rfl⟩ := Option.map_eq_some_iff.mp hp
        obtain ⟨hget, hne⟩ := Option.filter_eq_some_iff.mp hv
        obtain ⟨values, hvalues⟩ := head?_eq_some_iff.mp hget
        exact ⟨_, Header.get_eq_iff.mp hvalues, .inr ⟨mem_map_of_mem hname, by simpa using hne⟩,
          toLower_canonical unicode hname, values, rfl⟩
      · cases hamz : hasXAmzPrefix e.1 with
        | false => simp [hamz] at hp
        | true =>
          rw [hamz, if_pos rfl, firstOf_eq_some_iff] at hp
          exact ⟨e, he, .inl hamz, hp⟩
    · rintro ⟨e, he, hamz | ⟨hcanonical, hne⟩, hname, values, hvalues⟩
      · exact .inr ⟨e, he, by rw [hamz, if_pos rfl, firstOf_eq_some_iff]; exact ⟨hname, _, hvalues⟩⟩
      · obtain ⟨name, hmem, hkey⟩ := mem_map.mp hcanonical
        have hget : header.get name.canonical = p.2 :: values := by
          rw [Header.get_eq_iff, hkey, ← hvalues]
          exact he
        refine .inl ⟨name, hmem, ?_⟩
        rw [hvalues] at hne
        rw [hget, ← toLower_canonical unicode hmem, hkey, hname]
        simpa [Option.filter] using hne

theorem IsInserted.covered (he : e ∈ req.header.entries) (h : IsInserted all e) (hne : e.2 ≠ []) :
  e ∈ covered unicode req all
  := by
  refine mem_covered.mpr ⟨he, hne, ?_⟩
  rcases h with h | h | ⟨h, -⟩
  · simp [isCovered, h]
  · simp [isCovered, h]
  · obtain ⟨name, hmem, hkey⟩ := mem_map.mp h
    have hlower : name.lower ∈ signedHeaderNames.map HeaderName.lower := mem_map_of_mem hmem
    simp [isCovered, ← hkey, toLower_canonical unicode hmem, hlower]

/-! ### The lines by name -/

/-- Lists that are sorted by a key are the same if they have the same members. -/
theorem eq_iff_of_pairwise_lt {l l' : List (List UInt8 × List UInt8)}
    (h : (l.map Prod.fst).Pairwise (· < ·)) (h' : (l'.map Prod.fst).Pairwise (· < ·)) :
  l = l' ↔ ∀ p, p ∈ l ↔ p ∈ l'
  := by
  refine ⟨fun heq p => heq ▸ Iff.rfl, fun hmem => ?_⟩
  rw [pairwise_map] at h h'
  have hnodup : ∀ {l : List (List UInt8 × List UInt8)}, l.Pairwise (fun a b => a.1 < b.1) →
      l.Nodup := by
    intro l h
    refine h.imp ?_
    rintro a _ hlt rfl
    exact List.lt_irrefl _ hlt
  have hperm := (perm_ext_iff_of_nodup (hnodup h) (hnodup h')).mpr hmem
  exact hperm.eq_of_pairwise (fun _ _ _ _ hlt hgt => absurd hgt (List.lt_asymm hlt)) h h'

theorem pairwise_collectHeaders (req : Request) (all : Bool) :
  ((collectHeaders unicode req all).map SignedHeader.name).Pairwise (· < ·)
  := by
  rw [collectHeaders_eq]
  exact pairwise_insertAll _

/-- The value that is kept for a name. -/
def lastValue (unicode : List UInt8 → List UInt8) (req : Request) (all : Bool)
    (name : List UInt8) : Option (List UInt8) :=
  ((inserted unicode req.header all).reverse.lookup name).or
    (if name = hostName then some (host req) else none)

/-- The lines are those that are asked for if each name has its value. -/
theorem lines_eq_iff {req' : Request} :
  lines (collectHeaders unicode req' all) = sigV4Headers unicode req all
    ↔ ∀ name, (lastValue unicode req' all name).map HttpServer.trimSpace
      = if name = hostName ∨ ∃ e ∈ covered unicode req all, toLower unicode e.1 = name then
          some (canonicalValue (signedValues unicode req all name))
        else none
  := by
  have hnames : (lines (collectHeaders unicode req' all)).map Prod.fst
      = (collectHeaders unicode req' all).map SignedHeader.name := by
    rw [lines, map_map]
    rfl
  have hsorted : ((sigV4Headers unicode req all).map Prod.fst).Pairwise (· < ·) := by
    rw [sigV4Headers, map_map, Function.comp_def, map_id']
    refine ((pairwise_sortStrings _).and
      ((sortStrings_perm _).nodup_iff.mpr (nodup_dedup _))).imp fun {a b} hab => ?_
    exact lt_of_not_lt_of_ne (List.not_lt.mpr hab.1) (Ne.symm hab.2)
  rw [eq_iff_of_pairwise_lt (hnames ▸ pairwise_collectHeaders req' all) hsorted, Prod.forall]
  refine forall_congr' fun name => ?_
  have hline : ∀ x, (name, x) ∈ lines (collectHeaders unicode req' all)
      ↔ (lastValue unicode req' all name).map HttpServer.trimSpace = some x := by
    intro x
    have hlast : lastValue unicode req' all name = ((hostName, host req')
        :: inserted unicode req'.header all).reverse.lookup name := by
      rw [reverse_cons, lookup_append, lastValue, lookup_cons]
      by_cases h : name = hostName
      · simp [h]
      · simp [h, beq_false_of_ne h]
    rw [hlast, Option.map_eq_some_iff, lines, mem_map, collectHeaders_eq]
    constructor
    · rintro ⟨header, hheader, hp⟩
      cases hp
      exact ⟨header.value, mem_insertAll.mp hheader, rfl⟩
    · rintro ⟨v, hv, rfl⟩
      exact ⟨⟨name, v⟩, mem_insertAll.mpr hv, rfl⟩
  have hasked : ∀ x, (name, x) ∈ sigV4Headers unicode req all
      ↔ (if name = hostName ∨ ∃ e ∈ covered unicode req all, toLower unicode e.1 = name then
          some (canonicalValue (signedValues unicode req all name)) else none) = some x := by
    intro x
    rw [sigV4Headers, mem_map]
    simp only [(sortStrings_perm _).mem_iff, mem_dedup, mem_cons, mem_map]
    constructor
    · rintro ⟨_, hname, hp⟩
      cases hp
      exact if_pos hname
    · intro h
      split at h <;> cases h
      rename_i hname
      exact ⟨name, hname, rfl⟩
  simp only [hline, hasked]
  constructor
  · exact fun h => Option.ext h
  · exact fun h x => by rw [h]

/-- Where a value comes from: a header, or the host if none has its name. -/
theorem lastValue_eq_some {name v : List UInt8} (h : lastValue unicode req all name = some v) :
  (∃ e ∈ covered unicode req all, toLower unicode e.1 = name ∧ IsInserted all e
      ∧ ∃ values, e.2 = v :: values)
    ∨ name = hostName ∧ v = host req
      ∧ ∀ e ∈ covered unicode req all, toLower unicode e.1 = hostName → ¬ IsInserted all e
  := by
  rw [lastValue] at h
  cases hlookup : (inserted unicode req.header all).reverse.lookup name with
  | some v' =>
    obtain rfl : v' = v := by simpa [hlookup] using h
    obtain ⟨l₁, l₂, hl, -⟩ := lookup_eq_some_iff.mp hlookup
    have hmem : (name, v') ∈ inserted unicode req.header all := by
      rw [← mem_reverse, hl]
      simp
    obtain ⟨e, he, hins, hname, values, hvalues⟩ := mem_inserted.mp hmem
    exact .inl ⟨e, hins.covered he (by simp [hvalues]), hname, hins, values, hvalues⟩
  | none =>
    rw [hlookup, Option.none_or] at h
    split at h <;> cases h
    rename_i hname
    refine .inr ⟨hname, rfl, fun e he hhost hins => ?_⟩
    obtain ⟨hmem, hne, -⟩ := mem_covered.mp he
    obtain ⟨v, values, hvalues⟩ := exists_cons_of_ne_nil hne
    have hp : (hostName, v) ∈ inserted unicode req.header all :=
      mem_inserted.mpr ⟨e, hmem, hins, hhost, values, hvalues⟩
    simpa [hname] using lookup_eq_none_iff.mp hlookup _ (mem_reverse.mpr hp)

theorem exists_lastValue {name : List UInt8} (h : name = hostName
    ∨ ∃ e ∈ covered unicode req all, toLower unicode e.1 = name ∧ IsInserted all e) :
  ∃ v, lastValue unicode req all name = some v
  := by
  rw [lastValue]
  cases hlookup : (inserted unicode req.header all).reverse.lookup name with
  | some v => exact ⟨v, rfl⟩
  | none =>
    rcases h with hname | ⟨e, he, hname, hins⟩
    · exact ⟨host req, by rw [Option.none_or, if_pos hname]⟩
    obtain ⟨hmem, hne, -⟩ := mem_covered.mp he
    obtain ⟨v, values, hvalues⟩ := exists_cons_of_ne_nil hne
    have hp : (name, v) ∈ inserted unicode req.header all :=
      mem_inserted.mpr ⟨e, hmem, hins, hname, values, hvalues⟩
    simpa using lookup_eq_none_iff.mp hlookup _ (mem_reverse.mpr hp)

/-- A covered header is inserted for sure, unless it is one of the four. -/
theorem covered_cases (he : e ∈ covered unicode req all) :
  all = true ∨ hasXAmzPrefix e.1 = true
    ∨ (all = false ∧ ¬ hasXAmzPrefix e.1 ∧ toLower unicode e.1 ≠ hostName)
  := by
  obtain ⟨-, -, hcov⟩ := mem_covered.mp he
  cases all with
  | true => exact .inl rfl
  | false =>
    cases hamz : hasXAmzPrefix e.1 with
    | true => exact .inr (.inl rfl)
    | false =>
      refine .inr (.inr ⟨rfl, by simp, fun hhost => ?_⟩)
      rw [isCovered, hamz, hhost] at hcov
      revert hcov
      decide

/-! ### Values -/

/-- The bytes that are no spaces. -/
def solid (v : List UInt8) : ℕ := v.countP (· ≠ HttpServer.sp)

theorem solid_collapseSpaces (v : List UInt8) :
  solid (collapseSpaces v) = solid v
  := by
  fun_induction collapseSpaces v with
  | case1 | case2 => rfl
  | case3 b c s h ih =>
    rw [ih, h.1, solid, solid, countP_cons (a := HttpServer.sp)]
    simp
  | case4 b c s h ih =>
    rw [solid, countP_cons, ← solid, ih, solid, solid, countP_cons (a := b)]

/-- All values are in a line, with commas between them. -/
theorem solid_canonicalValue {v : List UInt8} {values : List (List UInt8)} (h : v ∈ values) :
  solid (HttpServer.trimSpace v) + values.length ≤ solid (canonicalValue values) + 1
  := by
  induction values generalizing v with
  | nil => cases h
  | cons a values ih =>
    cases values with
    | nil =>
      obtain rfl := mem_singleton.mp h
      rw [canonicalValue, map_singleton, intercalate_singleton, solid_collapseSpaces]
      rfl
    | cons b values =>
      have hcons : solid (canonicalValue (a :: b :: values))
          = solid (HttpServer.trimSpace a) + 1 + solid (canonicalValue (b :: values)) := by
        have hjoin : canonicalValue (a :: b :: values) = collapseSpaces (HttpServer.trimSpace a)
            ++ [HttpServer.comma] ++ canonicalValue (b :: values) := intercalate_cons_cons
        have happend : ∀ x y, solid (x ++ y) = solid x + solid y := fun _ _ => countP_append
        rw [hjoin, happend, happend, solid_collapseSpaces]
        rfl
      have hb := ih (v := b) mem_cons_self
      rw [hcons, length_cons]
      rcases mem_cons.mp h with rfl | h
      · omega
      · have := ih h
        omega

/-- One of several values is not all that is asked for, and neither is one with runs of spaces. -/
theorem eq_singleton_of_canonicalValue {v : List UInt8} {values : List (List UInt8)}
    (hmem : v ∈ values) (h : HttpServer.trimSpace v = canonicalValue values) :
  values = [v] ∧ NoRuns v
  := by
  have hcount := solid_canonicalValue hmem
  rw [← h] at hcount
  obtain ⟨w, rfl⟩ : ∃ w, values = [w] := by
    refine length_eq_one_iff.mp (le_antisymm (by omega) (length_pos_of_mem hmem))
  obtain rfl := mem_singleton.mp hmem
  rw [canonicalValue, map_singleton, intercalate_singleton] at h
  exact ⟨rfl, h.symm⟩

theorem canonicalValue_single {v : List UInt8} :
  HttpServer.trimSpace v = canonicalValue [v] ↔ NoRuns v
  := by
  rw [canonicalValue, map_singleton, intercalate_singleton, NoRuns, eq_comm]

/-! ### Plain headers -/

/-- The headers with one name, if they have one value together. -/
theorem eq_of_signedValues {l : List (List UInt8 × List (List UInt8))} {v : List UInt8}
    (hne : ∀ e ∈ l, e.2 ≠ []) (h : l.flatMap Prod.snd = [v]) (he : e ∈ l) :
  l = [e] ∧ e.2 = [v]
  := by
  match l, he with
  | [a], he =>
    obtain rfl := mem_singleton.mp he
    exact ⟨rfl, by simpa using h⟩
  | a :: b :: l, _ =>
    have hlen := congrArg length h
    have ha := length_pos_of_ne_nil (hne a (by simp))
    have hb := length_pos_of_ne_nil (hne b (by simp))
    simp only [flatMap_cons, length_append, length_singleton] at hlen
    omega

/-- A covered header whose line is right is inserted, has one value and stands alone. -/
theorem alone_of_lines
    (h : lines (collectHeaders unicode req all) = sigV4Headers unicode req all)
    {e : List UInt8 × List (List UInt8)} (he : e ∈ covered unicode req all)
    (hname : toLower unicode e.1 ≠ hostName) :
  IsInserted all e ∧ (∃ v, e.2 = [v] ∧ NoRuns v)
    ∧ ∀ e' ∈ covered unicode req all, toLower unicode e'.1 = toLower unicode e.1 → e' = e
  := by
  have hvalue := lines_eq_iff.mp h (toLower unicode e.1)
  rw [if_pos (.inr ⟨e, he, rfl⟩), Option.map_eq_some_iff, signedValues, if_neg hname] at hvalue
  obtain ⟨v, hv, htrim⟩ := hvalue
  rcases lastValue_eq_some hv with ⟨e', he', hname', hins, values, hvalues⟩ | ⟨hhost, -⟩
  · have hmem : ∀ {e'}, e' ∈ covered unicode req all → toLower unicode e'.1 = toLower unicode e.1
        → e' ∈ (covered unicode req all).filter fun e' =>
          toLower unicode e'.1 = toLower unicode e.1 :=
      fun he' hname' => mem_filter.mpr ⟨he', by simpa using hname'⟩
    obtain ⟨hsingle, hruns⟩ := eq_singleton_of_canonicalValue
      (mem_flatMap.mpr ⟨e', hmem he' hname', by simp [hvalues]⟩) htrim
    have hne : ∀ e' ∈ (covered unicode req all).filter fun e' =>
        toLower unicode e'.1 = toLower unicode e.1, e'.2 ≠ [] :=
      fun e' he' => (mem_covered.mp (mem_filter.mp he').1).2.1
    obtain ⟨hlist, hv'⟩ := eq_of_signedValues hne hsingle (hmem he rfl)
    have hunique : ∀ e' ∈ covered unicode req all,
        toLower unicode e'.1 = toLower unicode e.1 → e' = e := by
      intro e' he' hname'
      have := hmem he' hname'
      rwa [hlist, mem_singleton] at this
    exact ⟨hunique e' he' hname' ▸ hins, ⟨v, hv', hruns⟩, hunique⟩
  · exact absurd hhost hname

/-- A header with the name of the host that comes last is inserted last. -/
theorem inserted_concat_host {e : List UInt8 × List (List UInt8)} {v : List UInt8}
    {values : List (List UInt8)} (he : e ∈ covered unicode req all)
    (hname : toLower unicode e.1 = hostName) (hvalues : e.2 = v :: values) {header : Header}
    {l : List (List UInt8 × List (List UInt8))} (hlast : header.entries = l ++ [e]) :
  ∃ before, inserted unicode header all = before ++ [(hostName, v)]
  := by
  have hfirst : firstOf unicode e = some (hostName, v) :=
    firstOf_eq_some_iff.mpr ⟨hname, values, hvalues⟩
  rw [inserted, hlast]
  rcases covered_cases he with hall | hamz | ⟨-, -, hnot⟩
  · rw [hall, if_pos rfl, filterMap_append, filterMap_cons_some hfirst]
    exact ⟨_, rfl⟩
  · rw [filterMap_append, filterMap_append, filterMap_cons_some hfirst,
      filterMap_cons_some (f := fun e => if hasXAmzPrefix e.1 then firstOf unicode e else none)
        (by rw [hamz, if_pos rfl, hfirst]), ← append_assoc]
    split
    · exact ⟨_, rfl⟩
    · exact ⟨_, rfl⟩
  · exact absurd hname hnot

theorem Plain.of_lines (h : ∀ header : Header, header.entries.Perm req.header.entries →
    lines (collectHeaders unicode { req with header := header } all)
      = sigV4Headers unicode req all) :
  Plain unicode req all
  := by
  have hself := h req.header (.refl _)
  refine ⟨fun hnone => ?_, fun e he hname => ?_,
    fun e he hname => (alone_of_lines hself he hname).2.1,
    fun e he hname => (alone_of_lines hself he hname).2.2, fun hall e he hamz => ?_⟩
  · have hvalue := lines_eq_iff.mp hself hostName
    rw [if_pos (.inl rfl), Option.map_eq_some_iff, signedValues, if_pos rfl] at hvalue
    obtain ⟨v, hv, htrim⟩ := hvalue
    rcases lastValue_eq_some hv with ⟨e, he, hname, -⟩ | ⟨-, rfl, -⟩
    · exact absurd hname (hnone e he)
    · exact canonicalValue_single.mp htrim
  · -- the map may give this header last
    obtain ⟨hmem, hne, -⟩ := mem_covered.mp he
    obtain ⟨v, values, hvalues⟩ := exists_cons_of_ne_nil hne
    have hperm : (req.header.entries.erase e ++ [e]).Perm req.header.entries :=
      (perm_append_singleton _ _).trans (perm_cons_erase hmem).symm
    let header : Header := ⟨_, (hperm.map _).nodup_iff.mpr req.header.nodup⟩
    have hvalue := lines_eq_iff.mp (h header hperm) hostName
    obtain ⟨before, hlast⟩ :=
      inserted_concat_host he hname hvalues (show header.entries = _ from rfl)
    rw [lastValue, hlast, reverse_append, reverse_singleton, singleton_append, lookup_cons_self,
      Option.some_or, Option.map_some, if_pos (.inl rfl), signedValues, if_pos rfl] at hvalue
    rw [hvalues, head?_cons, Option.map_some, hvalue]
  · have hhost : toLower unicode e.1 ≠ hostName := by
      rcases covered_cases he with hall' | hamz' | ⟨-, -, hhost⟩
      · cases hall.symm.trans hall'
      · exact absurd hamz' hamz
      · exact hhost
    rcases (alone_of_lines hself he hhost).1 with hall' | hamz' | hcanonical
    · cases hall.symm.trans hall'
    · exact absurd hamz' hamz
    · exact hcanonical

/-- The lines of plain headers are those that are asked for, in whatever order the map is. -/
theorem Plain.lines_eq (h : Plain unicode req all) {header : Header}
    (hperm : header.entries.Perm req.header.entries) :
  lines (collectHeaders unicode { req with header := header } all) = sigV4Headers unicode req all
  := by
  have hcov : ∀ {e}, e ∈ covered unicode { req with header := header } all
      ↔ e ∈ covered unicode req all := (hperm.filter _).mem_iff
  have hins : ∀ e ∈ covered unicode req all, IsInserted all e := fun e he =>
    (covered_cases he).imp_right
      (.imp_right fun hnot => h.canonical hnot.1 e he hnot.2.1)
  rw [lines_eq_iff]
  intro name
  split
  · rename_i hname
    obtain ⟨v, hv⟩ : ∃ v, lastValue unicode { req with header := header } all name = some v :=
      exists_lastValue (hname.imp_right fun ⟨e, he, hname⟩ => ⟨e, hcov.mpr he, hname, hins e he⟩)
    rw [hv, Option.map_some, Option.some.injEq, signedValues]
    rcases lastValue_eq_some hv with ⟨e, he, rfl, -, values, hvalues⟩ | ⟨rfl, rfl, hnone⟩
    · rw [hcov] at he
      split
      · rename_i hhost
        simpa [hvalues] using h.hosts e he hhost
      rename_i hhost
      obtain ⟨w, hw, hruns⟩ := h.single e he hhost
      obtain ⟨rfl, rfl⟩ : w = v ∧ values = [] := by simpa [hw, eq_comm] using hvalues
      have hlist : (covered unicode req all).filter (fun e' =>
          toLower unicode e'.1 = toLower unicode e.1) = [e] := by
        have hnodup : (covered unicode req all).Nodup := (req.header.nodup.of_map _).filter _
        refine perm_singleton.mp ((perm_ext_iff_of_nodup (hnodup.filter _) (nodup_singleton e)).mpr
          fun e' => ?_)
        rw [mem_filter, mem_singleton, decide_eq_true_iff]
        exact ⟨fun he' => h.names e he hhost e' he'.1 he'.2, by rintro rfl; exact ⟨he, rfl⟩⟩
      rw [hlist, flatMap_singleton, hw]
      exact canonicalValue_single.mpr hruns
    · rw [if_pos rfl]
      refine canonicalValue_single.mpr (h.host fun e he hname => ?_)
      exact hnone e (hcov.mpr he) hname (hins e he)
  · rename_i hname
    rw [Option.map_eq_none_iff, Option.eq_none_iff_forall_ne_some]
    intro v hv
    rcases lastValue_eq_some hv with ⟨e, he, hlower, -⟩ | ⟨hhost, -⟩
    · exact hname (.inr ⟨e, hcov.mp he, hlower⟩)
    · exact hname (.inl hhost)

/-- What `Sign` and `Presign` hash is by name, and what is hashed and listed as signed is known from
the lines.  These are a line for the host and one for each covered header, as asked for and whatever
the order in which the map is gone through, if and only if the headers are plain. -/
theorem collectHeaders_canonical_iff (unicode : List UInt8 → List UInt8) (signer : Signer)
    (req : Request) :
  ((collectHeaders unicode (signer.prepare req) signer.all).map SignedHeader.name).Pairwise (· < ·)
    ∧ (∀ headers, headerBlock headers = sigV4Block (lines headers)
      ∧ joinHeaderNames headers = [semicolon].intercalate ((lines headers).map Prod.fst))
    ∧ ((∀ header : Header, header.entries.Perm (signer.prepare req).header.entries →
        lines (collectHeaders unicode { signer.prepare req with header := header } signer.all)
          = sigV4Headers unicode (signer.prepare req) signer.all)
      ↔ Plain unicode (signer.prepare req) signer.all)
  := by
  refine ⟨pairwise_collectHeaders _ _, fun headers => ⟨?_, ?_⟩, .of_lines, fun h _ => h.lines_eq⟩
  · rw [sigV4Block, lines, headerBlock, flatMap_map]
  · rw [lines, map_map]
    rfl

/-- Of a header with two values only the first is in its line, runs of spaces stay in it, and of two
names that differ in case the one that the map gives last is taken. -/
theorem collectHeaders_first_value :
  ∃ header header' : Header,
    header.entries = [(lit "X-A", [lit "1", lit "2"]), (lit "X-B", [lit "3  4"])]
    ∧ headerBlock (collectHeaders id (Signer.presign.prepare ⟨lit "h", [], header⟩) true)
      = lit "host:h\nx-a:1\nx-b:3  4\n"
    ∧ sigV4Block (sigV4Headers id (Signer.presign.prepare ⟨lit "h", [], header⟩) true)
      = lit "host:h\nx-a:1,2\nx-b:3 4\n"
    ∧ header'.entries = [(lit "X-A", [lit "1"]), (lit "x-a", [lit "2"])]
    ∧ headerBlock (collectHeaders id (Signer.presign.prepare ⟨lit "h", [], header'⟩) true)
      = lit "host:h\nx-a:2\n"
    ∧ ∃ other : Header, other.entries.Perm header'.entries
      ∧ headerBlock (collectHeaders id (Signer.presign.prepare ⟨lit "h", [], other⟩) true)
        = lit "host:h\nx-a:1\n"
  := by
  refine ⟨⟨[(lit "X-A", [lit "1", lit "2"]), (lit "X-B", [lit "3  4"])], by decide +kernel⟩,
    ⟨[(lit "X-A", [lit "1"]), (lit "x-a", [lit "2"])], by decide +kernel⟩, rfl, by decide +kernel,
    by decide +kernel, rfl, by decide +kernel,
    ⟨[(lit "x-a", [lit "2"]), (lit "X-A", [lit "1"])], by decide +kernel⟩, List.Perm.swap _ _ _, ?_⟩
  decide +kernel

end Aws
