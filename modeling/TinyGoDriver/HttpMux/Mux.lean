import TinyGoDriver.HttpMux.RequestPath

/-!
# Registering patterns and finding the best match

A pattern is refused when it conflicts with a registered one: when both have the same host, and
match the same requests or overlapping sets of them.  The routes of a mux therefore never conflict,
and for a request the routes that match it form a chain, in which `bestMatch` finds the most
specific one.
-/

namespace HttpMux

open GoRt List

structure Route (H : Type) where
  pattern : Pattern
  handler : H
  deriving DecidableEq, Repr

structure ServeMux (H : Type) where
  routes : List (Route H)
  trailingSlash : Bool
  deriving DecidableEq, Repr

/-- What may be given as a handler. -/
inductive HandlerArg (H : Type) where
  /-- A nil interface. -/
  | nil
  /-- A nil `http.HandlerFunc`. -/
  | nilFunc
  | handler (h : H)

inductive RegisterErr where
  /-- `httpmux: invalid pattern` -/
  | invalidPattern
  /-- `httpmux: nil handler` -/
  | nilHandler
  /-- `httpmux: parsing %q: %w` -/
  | parsing (patternString : List UInt8) (err : ParseErr)
  /-- `httpmux: pattern %q conflicts with pattern %q` -/
  | conflict (str registered : List UInt8)
  deriving DecidableEq, Repr

variable {H : Type} {p₁ p₂ : Pattern}

def newServeMux : ServeMux H := ⟨[], false⟩

namespace Pattern

/-- Whether the pattern can exactly match a path that ends in a slash. -/
def endsInSlash (p : Pattern) : Bool :=
  (lastSegment p.segments).multi ∨ (lastSegment p.segments).s = [slash]

end Pattern

namespace ServeMux

/-- The mux with one more route. -/
def add (mux : ServeMux H) (route : Route H) : ServeMux H :=
  ⟨mux.routes ++ [route], mux.trailingSlash || route.pattern.endsInSlash⟩

def register (u : Unicode) (mux : ServeMux H) (patternString : List UInt8)
    (handler : HandlerArg H) : Except RegisterErr (ServeMux H) :=
  if patternString = [] then .error .invalidPattern
  else
    match handler with
    | .nil => .error .nilHandler
    | .nilFunc => .error .nilHandler
    | .handler h =>
      match parsePattern u patternString with
      | .error e => .error (.parsing patternString e)
      | .ok p =>
        match mux.routes.find? (fun registered => p.conflictsWith registered.pattern) with
        | some registered => .error (.conflict p.str registered.pattern.str)
        | none => .ok (mux.add ⟨p, h⟩)

/-- Registrations one after the other, each of which is to succeed. -/
def registerAll (u : Unicode) (mux : ServeMux H) :
    List (List UInt8 × HandlerArg H) → Except RegisterErr (ServeMux H)
  | [] => .ok mux
  | (patternString, handler) :: regs =>
    match mux.register u patternString handler with
    | .error e => .error e
    | .ok mux => mux.registerAll u regs

end ServeMux

/-! ### The best match -/

def isMoreSpecific (candidate current : Pattern) : Bool :=
  if candidate.host ≠ current.host then candidate.host ≠ []
  else candidate.comparePathsAndMethods current = .moreSpecific

/-- Whether a route is a candidate for a request. -/
def Route.isCandidate (host method : List UInt8) (split : SplitRequestPath) (r : Route H) : Bool :=
  if r.pattern.host ≠ [] ∧ r.pattern.host ≠ host then false
  else if ¬ matchesMethod r.pattern.method method then false
  else matchesPath r.pattern split

/-- One step of the loop of `bestMatch`. -/
def bestStep (host method : List UInt8) (split : SplitRequestPath) (best : Option (Route H))
    (candidate : Route H) : Option (Route H) :=
  if candidate.isCandidate host method split then
    match best with
    | none => some candidate
    | some current =>
      if isMoreSpecific candidate.pattern current.pattern then some candidate else best
  else best

def bestMatch (routes : List (Route H)) (host method : List UInt8) (split : SplitRequestPath) :
    Option (Route H) × List PathValue :=
  match routes.foldl (bestStep host method split) none with
  | none => (none, [])
  | some best => (some best, pathValues best.pattern split)

/-! ### Registering -/

/-- Patterns conflict when they have the same host, and match the same requests or overlapping sets
of them. -/
theorem conflictsWith_iff (h₁ : WellFormed p₁.segments) (h₂ : WellFormed p₂.segments) :
  p₁.conflictsWith p₂ ↔ p₁.host = p₂.host
    ∧ (p₁.matched = p₂.matched ∨ SetRelation.overlap.Holds p₁.matched p₂.matched)
  := by
  rw [Pattern.conflictsWith]
  split
  · rename_i hhost
    simp [hhost]
  · rename_i hhost
    simp only [decide_eq_true_eq, comparePathsAndMethods_eq_iff h₁ h₂, not_not.mp hhost, true_and]
    rfl

theorem conflictsWith_comm (h₁ : WellFormed p₁.segments) (h₂ : WellFormed p₂.segments) :
  p₁.conflictsWith p₂ = p₂.conflictsWith p₁
  := by
  rw [Bool.eq_iff_iff, conflictsWith_iff h₁ h₂, conflictsWith_iff h₂ h₁]
  exact and_congr eq_comm
    (or_congr eq_comm ⟨SetRelation.Holds.inverse, SetRelation.Holds.inverse⟩)

/-- The routes of a mux: their patterns are well formed and none conflicts with an earlier one. -/
structure Apart (routes : List (Route H)) : Prop where
  wellFormed : ∀ r ∈ routes, WellFormed r.pattern.segments
  apart : routes.Pairwise fun r r' => ¬ r'.pattern.conflictsWith r.pattern

theorem Apart.nil : Apart ([] : List (Route H)) where
  wellFormed := by simp
  apart := List.Pairwise.nil

variable {routes : List (Route H)} {u : Unicode} {mux : ServeMux H}
  {regs : List (List UInt8 × HandlerArg H)}

variable {routes' : List (Route H)} {mux' : ServeMux H} {handler : HandlerArg H} {s : List UInt8}

/-- The order of the routes does not matter. -/
theorem Apart.perm (h : Apart routes) (hperm : routes.Perm routes') :
  Apart routes'
  := by
  refine ⟨fun r hr => h.wellFormed r (hperm.mem_iff.mpr hr), ?_⟩
  have hsymm : routes.Pairwise fun r r' => WellFormed r.pattern.segments
      ∧ WellFormed r'.pattern.segments ∧ ¬ r'.pattern.conflictsWith r.pattern :=
    h.apart.imp_of_mem fun hr hr' hnot => ⟨h.wellFormed _ hr, h.wellFormed _ hr', hnot⟩
  refine (hsymm.perm hperm ?_).imp fun h => h.2.2
  rintro r r' ⟨hr, hr', hnot⟩
  exact ⟨hr', hr, by rwa [conflictsWith_comm hr hr']⟩

theorem Apart.of_append (h : Apart (routes ++ routes')) :
  Apart routes
  := ⟨fun r hr => h.wellFormed r (mem_append_left _ hr), (pairwise_append.mp h.apart).1⟩

theorem Apart.append_singleton {r : Route H} :
  Apart (routes ++ [r]) ↔ Apart routes ∧ WellFormed r.pattern.segments
    ∧ ∀ r' ∈ routes, ¬ r.pattern.conflictsWith r'.pattern
  := by
  constructor
  · rintro ⟨hwf, hapart⟩
    rw [pairwise_append] at hapart
    exact ⟨⟨fun r' hr' => hwf r' (by simp [hr']), hapart.1⟩, hwf r (by simp),
      fun r' hr' => hapart.2.2 r' hr' r (by simp)⟩
  · rintro ⟨⟨hwf, hapart⟩, hr, hnot⟩
    refine ⟨fun r' hr' => ?_, pairwise_append.mpr ⟨hapart, by simp, fun r' hr' r'' hr'' => ?_⟩⟩
    · rcases mem_append.mp hr' with hr' | hr'
      · exact hwf r' hr'
      · rwa [mem_singleton.mp hr']
    · rw [mem_singleton.mp hr'']
      exact hnot r' hr'

theorem Apart.nodup (h : Apart routes) :
  routes.Nodup
  := by
  refine h.apart.imp_of_mem fun {r r'} hr _ hnot heq => hnot ?_
  subst heq
  exact (conflictsWith_iff (h.wellFormed r hr) (h.wellFormed r hr)).mpr ⟨rfl, .inl rfl⟩

/-- The route that a registration asks for. -/
def routeOf (u : Unicode) (reg : List UInt8 × HandlerArg H) : Option (Route H) :=
  match reg with
  | (patternString, .handler h) => (parsePattern u patternString).toOption.map (⟨·, h⟩)
  | _ => none

theorem routeOf_wellFormed {reg : List UInt8 × HandlerArg H} {r : Route H}
    (h : routeOf u reg = some r) :
  WellFormed r.pattern.segments
  := by
  obtain ⟨s, handler⟩ := reg
  cases handler with
  | nil => cases h
  | nilFunc => cases h
  | handler g =>
    cases hp : parsePattern u s with
    | error e => simp [routeOf, hp, Except.toOption] at h
    | ok p =>
      obtain rfl : ⟨p, g⟩ = r := by simpa [routeOf, hp, Except.toOption] using h
      exact parsePattern_wellFormed hp

/-- What registering does. -/
theorem register_eq_ok_iff :
  mux.register u s handler = .ok mux' ↔ ∃ r, routeOf u (s, handler) = some r
    ∧ (∀ r' ∈ mux.routes, ¬ r.pattern.conflictsWith r'.pattern) ∧ mux' = mux.add r
  := by
  rw [ServeMux.register.eq_def]
  cases handler with
  | nil | nilFunc =>
    dsimp only [routeOf]
    split <;> simp
  | handler h =>
    by_cases hs : s = []
    · simp [routeOf, hs, parsePattern, Except.toOption]
    cases hp : parsePattern u s with
    | error e => simp [routeOf, hs, hp, Except.toOption]
    | ok p =>
      simp only [hs, if_false, routeOf, hp, Except.toOption, Option.map_some,
        Option.some.injEq, exists_eq_left']
      split
      · rename_i registered hfind
        have hconflict := find?_some hfind
        simp only [reduceCtorEq, false_iff, not_and]
        intro hnot
        exact absurd hconflict (hnot registered (mem_of_find?_eq_some hfind))
      · rename_i hfind
        rw [find?_eq_none] at hfind
        rw [Except.ok.injEq]
        exact ⟨fun h => ⟨hfind, h.symm⟩, fun h => h.2.symm⟩

theorem registerAll_cons_eq_ok_iff :
  mux.registerAll u ((s, handler) :: regs) = .ok mux'
    ↔ ∃ mux₁, mux.register u s handler = .ok mux₁ ∧ mux₁.registerAll u regs = .ok mux'
  := by
  rw [ServeMux.registerAll]
  cases mux.register u s handler <;> simp

/-- The routes that registrations ask for. -/
def routesOf (u : Unicode) (regs : List (List UInt8 × HandlerArg H)) : List (Route H) :=
  regs.filterMap (routeOf u)

/-- Registrations succeed when each asks for a route and the routes are apart. -/
theorem registerAll_eq_ok_iff (hmux : Apart mux.routes) :
  mux.registerAll u regs = .ok mux' ↔ (∀ reg ∈ regs, (routeOf u reg).isSome)
    ∧ Apart (mux.routes ++ routesOf u regs) ∧ mux' = (routesOf u regs).foldl ServeMux.add mux
  := by
  induction regs generalizing mux with
  | nil =>
    simp only [ServeMux.registerAll, routesOf, filterMap_nil, append_nil, hmux,
      foldl_nil, Except.ok.injEq, not_mem_nil, false_implies, implies_true, true_and]
    exact eq_comm
  | cons reg regs ih =>
    obtain ⟨s, handler⟩ := reg
    have hroutes : ∀ {r : Route H}, routeOf u (s, handler) = some r →
        routesOf u ((s, handler) :: regs) = r :: routesOf u regs := fun hr => by
      rw [routesOf, filterMap_cons_some hr, routesOf]
    rw [registerAll_cons_eq_ok_iff]
    constructor
    · rintro ⟨mux₁, hreg, hrest⟩
      obtain ⟨r, hr, hnot, rfl⟩ := register_eq_ok_iff.mp hreg
      have happart : Apart (mux.add r).routes :=
        Apart.append_singleton.mpr ⟨hmux, routeOf_wellFormed hr, hnot⟩
      obtain ⟨hsome, hall, rfl⟩ := (ih happart).mp hrest
      rw [hroutes hr]
      refine ⟨?_, by simpa [ServeMux.add] using hall, rfl⟩
      simpa [hr] using hsome
    · rintro ⟨hsome, hall, hmux'⟩
      obtain ⟨r, hr⟩ := Option.isSome_iff_exists.mp (hsome (s, handler) mem_cons_self)
      rw [hroutes hr] at hall hmux'
      have hall : Apart ((mux.add r).routes ++ routesOf u regs) := by
        simpa [ServeMux.add] using hall
      have happart : Apart (mux.add r).routes := hall.of_append
      refine ⟨mux.add r, register_eq_ok_iff.mpr ⟨r, hr, ?_, rfl⟩,
        (ih happart).mpr ⟨?_, hall, hmux'⟩⟩
      · exact (Apart.append_singleton.mp happart).2.2
      · exact fun reg hreg => hsome reg (mem_cons_of_mem _ hreg)

theorem routes_foldl_add (routes : List (Route H)) (mux : ServeMux H) :
  (routes.foldl ServeMux.add mux).routes = mux.routes ++ routes
  := by
  induction routes generalizing mux with
  | nil => simp
  | cons r routes ih => simp [ih, ServeMux.add]

/-- The routes of a mux that was set up by registrations. -/
theorem registerAll_new (h : newServeMux.registerAll u regs = .ok mux) :
  Apart mux.routes ∧ mux.routes = routesOf u regs
  := by
  obtain ⟨-, happart, rfl⟩ := (registerAll_eq_ok_iff Apart.nil).mp h
  have hroutes : ((routesOf u regs).foldl ServeMux.add newServeMux).routes = routesOf u regs :=
    routes_foldl_add _ _
  rw [hroutes]
  exact ⟨happart, rfl⟩

/-- Registrations that succeed do so in every order. -/
theorem registerAll_perm {regs' : List (List UInt8 × HandlerArg H)}
    (h : newServeMux.registerAll u regs = .ok mux) (hperm : regs'.Perm regs) :
  ∃ mux', newServeMux.registerAll u regs' = .ok mux' ∧ mux'.routes.Perm mux.routes
  := by
  obtain ⟨hsome, happart, rfl⟩ := (registerAll_eq_ok_iff Apart.nil).mp h
  have hroutes : (routesOf u regs').Perm (routesOf u regs) := hperm.filterMap (routeOf u)
  refine ⟨_, (registerAll_eq_ok_iff Apart.nil).mpr ⟨?_, ?_, rfl⟩, ?_⟩
  · exact fun reg hreg => hsome reg (hperm.mem_iff.mp hreg)
  · exact happart.perm hroutes.symm
  · simpa [routes_foldl_add, newServeMux] using hroutes

/-! ### The best match is the most specific one -/

/-- The first route is the better match: it has a host and the other has none, or both have the same
and it matches strictly fewer requests. -/
def Route.Prefers (r r' : Route H) : Prop :=
  (r.pattern.host ≠ [] ∧ r'.pattern.host = [])
    ∨ (r.pattern.host = r'.pattern.host ∧ r.pattern.matched ⊂ r'.pattern.matched)

theorem Route.Prefers.trans {r₁ r₂ r₃ : Route H} (h : r₁.Prefers r₂) (h' : r₂.Prefers r₃) :
  r₁.Prefers r₃
  := by
  rcases h with ⟨h₁, h₂⟩ | ⟨hhost, hlt⟩
  · rcases h' with ⟨h₂', -⟩ | ⟨hhost, -⟩
    · exact absurd h₂ h₂'
    · exact .inl ⟨h₁, hhost.symm.trans h₂⟩
  · rcases h' with ⟨h₂, h₃⟩ | ⟨hhost', hlt'⟩
    · exact .inl ⟨hhost ▸ h₂, h₃⟩
    · exact .inr ⟨hhost.trans hhost', hlt.trans hlt'⟩

theorem Route.Prefers.irrefl (r : Route H) :
  ¬ r.Prefers r
  := by
  rintro (⟨h, h'⟩ | ⟨-, hlt⟩)
  · exact h h'
  · exact ssubset_irrefl _ hlt

section Request

variable {host method path : List UInt8} {r r' : Route H} {split : SplitRequestPath}

theorem isCandidate_iff :
  r.isCandidate host method split ↔ (r.pattern.host = [] ∨ r.pattern.host = host)
    ∧ matchesMethod r.pattern.method method ∧ matchesPath r.pattern split
  := by
  rw [Route.isCandidate]
  split_ifs with hhost hmethod
  · simp [hhost]
  · rw [not_and_or, not_not, not_not] at hhost
    simp [hhost, hmethod]
  · simp [hmethod]

theorem mem_matched_of_isCandidate (h : r.isCandidate host method (splitPath path)) :
  (method, splitPath path) ∈ r.pattern.matched
  := ⟨⟨path, rfl⟩, (isCandidate_iff.mp h).2⟩

/-- Among candidates, one of two that have different hosts has none. -/
theorem host_of_ne (h : r.isCandidate host method split) (h' : r'.isCandidate host method split)
    (hne : r.pattern.host ≠ r'.pattern.host) (hhost : r.pattern.host ≠ []) :
  r'.pattern.host = []
  := by
  have h := (isCandidate_iff.mp h).1
  have h' := (isCandidate_iff.mp h').1
  grind

variable (hr : WellFormed r.pattern.segments) (hr' : WellFormed r'.pattern.segments)
  (h : r.isCandidate host method (splitPath path))
  (h' : r'.isCandidate host method (splitPath path))

include hr hr' h h'

theorem isMoreSpecific_iff :
  isMoreSpecific r.pattern r'.pattern ↔ r.Prefers r'
  := by
  rw [isMoreSpecific, Route.Prefers]
  split
  · rename_i hne
    have hhost := host_of_ne h h' hne
    simp only [decide_eq_true_eq, hne, false_and, or_false]
    exact ⟨fun h => ⟨h, hhost h⟩, fun h => h.1⟩
  · rename_i heq
    have heq := not_not.mp heq
    simp only [decide_eq_true_eq, comparePathsAndMethods_eq_iff hr hr', heq, true_and]
    exact ⟨.inr, fun h => h.resolve_left fun h => h.1 h.2⟩

/-- Of two candidates that do not conflict one is better than the other. -/
theorem prefers_or_prefers (hnot : ¬ r.pattern.conflictsWith r'.pattern) :
  r.Prefers r' ∨ r'.Prefers r
  := by
  by_cases hhost : r.pattern.host = r'.pattern.host
  · have hrel := comparePathsAndMethods_matched hr hr'
    rw [conflictsWith_iff hr hr', not_and, not_or] at hnot
    obtain ⟨hne, hoverlap⟩ := hnot hhost
    generalize r.pattern.comparePathsAndMethods r'.pattern = rel at hrel
    cases rel with
    | equivalent => exact absurd hrel hne
    | moreGeneral => exact .inr (.inr ⟨hhost.symm, hrel⟩)
    | moreSpecific => exact .inl (.inr ⟨hhost, hrel⟩)
    | disjoint =>
      -- both match the request
      exact absurd (mem_matched_of_isCandidate h')
        (Set.disjoint_left.mp hrel (mem_matched_of_isCandidate h))
    | overlaps => exact absurd hrel hoverlap
  · by_cases hnil : r.pattern.host = []
    · exact .inr (.inl ⟨fun h => hhost (hnil.trans h.symm), hnil⟩)
    · exact .inl (.inl ⟨hnil, host_of_ne h h' hhost hnil⟩)

end Request

/-- What the loop of `bestMatch` has found among the routes it went through. -/
def IsBest (host method : List UInt8) (split : SplitRequestPath) (routes : List (Route H)) :
    Option (Route H) → Prop
  | none => ∀ r ∈ routes, ¬ r.isCandidate host method split
  | some r => r ∈ routes ∧ r.isCandidate host method split
      ∧ ∀ r' ∈ routes, r'.isCandidate host method split → r' ≠ r → r.Prefers r'

theorem isBest_foldl (host method path : List UInt8) (h : Apart routes) :
  IsBest host method (splitPath path) routes
    (routes.foldl (bestStep host method (splitPath path)) none)
  := by
  induction routes using reverseRecOn with
  | nil => simp [IsBest]
  | append_singleton routes c ih =>
    obtain ⟨hroutes, hc, hnot⟩ := Apart.append_singleton.mp h
    specialize ih hroutes
    rw [foldl_append, foldl_cons]
    generalize routes.foldl (bestStep host method (splitPath path)) none = best at ih
    rw [bestStep.eq_def]
    split
    · rename_i hcand
      cases best with
      | none =>
        refine ⟨by simp, hcand, fun r' hr' hcand' hne => ?_⟩
        rcases mem_append.mp hr' with hr' | hr'
        · exact absurd hcand' (ih r' hr')
        · exact absurd (mem_singleton.mp hr') hne
      | some b =>
        obtain ⟨hb, hbcand, hbest⟩ := ih
        have hbwf := hroutes.wellFormed b hb
        dsimp only
        split
        · rename_i hspecific
          have hcb := (isMoreSpecific_iff hc hbwf hcand hbcand).mp hspecific
          refine ⟨by simp, hcand, fun r' hr' hcand' hne => ?_⟩
          rcases mem_append.mp hr' with hr' | hr'
          · by_cases hr'b : r' = b
            · rwa [hr'b]
            · exact hcb.trans (hbest r' hr' hcand' hr'b)
          · exact absurd (mem_singleton.mp hr') hne
        · rename_i hspecific
          rw [isMoreSpecific_iff hc hbwf hcand hbcand] at hspecific
          refine ⟨by simp [hb], hbcand, fun r' hr' hcand' hne => ?_⟩
          rcases mem_append.mp hr' with hr' | hr'
          · exact hbest r' hr' hcand' hne
          · rw [mem_singleton.mp hr']
            exact (prefers_or_prefers hc hbwf hcand hbcand (hnot b hb)).resolve_left hspecific
    · rename_i hcand
      cases best with
      | none =>
        intro r' hr'
        rcases mem_append.mp hr' with hr' | hr'
        · exact ih r' hr'
        · rwa [mem_singleton.mp hr']
      | some b =>
        obtain ⟨hb, hbcand, hbest⟩ := ih
        refine ⟨by simp [hb], hbcand, fun r' hr' hcand' hne => ?_⟩
        rcases mem_append.mp hr' with hr' | hr'
        · exact hbest r' hr' hcand' hne
        · rw [mem_singleton.mp hr'] at hcand'
          exact absurd hcand' hcand

/-- The best match depends on which routes there are, and not on their order. -/
theorem IsBest.unique {host method : List UInt8} {split : SplitRequestPath}
    (hperm : routes.Perm routes') {best best' : Option (Route H)}
    (h : IsBest host method split routes best) (h' : IsBest host method split routes' best') :
  best = best'
  := by
  cases best with
  | none =>
    cases best' with
    | none => rfl
    | some b' => exact absurd h'.2.1 (h b' (hperm.mem_iff.mpr h'.1))
  | some b =>
    cases best' with
    | none => exact absurd h.2.1 (h' b (hperm.mem_iff.mp h.1))
    | some b' =>
      by_contra hne
      have hne : b ≠ b' := fun heq => hne (congrArg some heq)
      have hlt := h.2.2 b' (hperm.mem_iff.mpr h'.1) h'.2.1 hne.symm
      have hgt := h'.2.2 b (hperm.mem_iff.mp h.1) h.2.1 hne
      exact Route.Prefers.irrefl b (hlt.trans hgt)

theorem bestMatch_fst (routes : List (Route H)) (host method : List UInt8)
    (split : SplitRequestPath) :
  (bestMatch routes host method split).1 = routes.foldl (bestStep host method split) none
  := by
  rw [bestMatch]
  split <;> simp_all

/-- The routes that a mux got by registrations do not conflict, `bestMatch` finds among those that
match a request the one that is better than every other, and it finds the same in whatever order the
routes were registered. -/
theorem bestMatch_prefers {u : Unicode} {regs : List (List UInt8 × HandlerArg H)}
    {mux : ServeMux H} (hmux : newServeMux.registerAll u regs = .ok mux)
    (host method path : List UInt8) :
  mux.routes.Nodup
    ∧ ((bestMatch mux.routes host method (splitPath path)).1 = none
        ↔ ∀ r ∈ mux.routes, ¬ r.isCandidate host method (splitPath path))
    ∧ (∀ r, (bestMatch mux.routes host method (splitPath path)).1 = some r →
        r ∈ mux.routes ∧ r.isCandidate host method (splitPath path)
          ∧ ∀ r' ∈ mux.routes, r'.isCandidate host method (splitPath path) → r' ≠ r →
            (r.pattern.host ≠ [] ∧ r'.pattern.host = [])
              ∨ (r.pattern.host = r'.pattern.host ∧ r.pattern.matched ⊂ r'.pattern.matched))
    ∧ ∀ regs', regs'.Perm regs → ∃ mux', newServeMux.registerAll u regs' = .ok mux'
        ∧ bestMatch mux'.routes host method (splitPath path)
          = bestMatch mux.routes host method (splitPath path)
  := by
  obtain ⟨happart, -⟩ := registerAll_new hmux
  have hbest := isBest_foldl host method path happart
  refine ⟨happart.nodup, ?_, ?_, ?_⟩
  · rw [bestMatch_fst]
    constructor
    · intro hnone
      rwa [hnone] at hbest
    · intro hall
      exact hbest.unique (List.Perm.refl _) hall
  · intro r hr
    rw [← bestMatch_fst, hr] at hbest
    exact hbest
  · intro regs' hperm
    obtain ⟨mux', hmux', hroutes⟩ := registerAll_perm hmux hperm
    refine ⟨mux', hmux', ?_⟩
    have hbest' := isBest_foldl host method path (registerAll_new hmux').1
    rw [bestMatch, bestMatch, hbest'.unique hroutes hbest]

/-- The runes and the tables of a string of ASCII bytes. -/
def ascii : Unicode where
  runes s := s.map UInt8.toNat
  isLetter c := 0x41 ≤ c ∧ c ≤ 0x5a ∨ 0x61 ≤ c ∧ c ≤ 0x7a
  isDigit c := 0x30 ≤ c ∧ c ≤ 0x39

/-- Of a literal and a wildcard the literal is found, and before both what is for the host of the
request, in whatever order they were registered. -/
theorem bestMatch_prefers_literal :
  ∃ mux : ServeMux ℕ, newServeMux.registerAll ascii
      [(lit "/\x7bid\x7d", .handler 0), (lit "GET /me", .handler 1),
        (lit "h/\x7bid\x7d", .handler 2)] = .ok mux
    ∧ ((bestMatch mux.routes (lit "x") (lit "GET") (splitPath (lit "/me"))).1.map Route.handler)
      = some 1
    ∧ (∃ r, (bestMatch mux.routes (lit "h") (lit "GET") (splitPath (lit "/me"))).1 = some r
      ∧ r.handler = 2 ∧ ∀ r' ∈ mux.routes,
        r'.isCandidate (lit "h") (lit "GET") (splitPath (lit "/me")) → r' ≠ r →
          r'.pattern.host = [])
    ∧ ∃ mux' : ServeMux ℕ, newServeMux.registerAll ascii
        [(lit "h/\x7bid\x7d", .handler 2), (lit "GET /me", .handler 1),
          (lit "/\x7bid\x7d", .handler 0)] = .ok mux'
      ∧ bestMatch mux'.routes (lit "h") (lit "GET") (splitPath (lit "/me"))
        = bestMatch mux.routes (lit "h") (lit "GET") (splitPath (lit "/me"))
  := by
  have hmux : newServeMux.registerAll ascii
      [(lit "/\x7bid\x7d", .handler 0), (lit "GET /me", .handler 1),
        (lit "h/\x7bid\x7d", .handler 2)]
        = .ok ⟨[⟨⟨lit "/\x7bid\x7d", [], [], [⟨lit "id", true, false⟩]⟩, 0⟩,
          ⟨⟨lit "GET /me", lit "GET", [], [⟨lit "me", false, false⟩]⟩, 1⟩,
          ⟨⟨lit "h/\x7bid\x7d", [], lit "h", [⟨lit "id", true, false⟩]⟩, 2⟩], false⟩ := by
    decide +kernel
  obtain ⟨-, -, hbest, hperm⟩ := bestMatch_prefers hmux (lit "h") (lit "GET") (lit "/me")
  refine ⟨_, hmux, by decide +kernel, ⟨⟨⟨lit "h/\x7bid\x7d", [], lit "h",
    [⟨lit "id", true, false⟩]⟩, 2⟩, by decide +kernel, rfl, fun r' hr' hcandidate hne => ?_⟩,
    hperm _ (List.reverse_perm [_, _, _])⟩
  rcases (hbest _ (by decide +kernel)).2.2 r' hr' hcandidate hne with h | -
  · exact h.2
  · simp only [List.mem_cons, List.not_mem_nil, or_false] at hr'
    rcases hr' with rfl | rfl | rfl
    · rfl
    · rfl
    · exact absurd rfl hne

/-- The comparison of patterns is exact, and a pattern is refused just when a registered one with
the same host matches the same requests or an overlapping set of them. -/
theorem comparePathsAndMethods_exact {u : Unicode} {s₁ s₂ : List UInt8} {p₁ p₂ : Pattern}
    (h₁ : parsePattern u s₁ = .ok p₁) (h₂ : parsePattern u s₂ = .ok p₂) :
  (∀ r : Relationship, p₁.comparePathsAndMethods p₂ = r ↔ r.denote.Holds p₁.matched p₂.matched)
    ∧ ∀ (regs : List (List UInt8 × HandlerArg H)) (mux : ServeMux H) (h : H),
      newServeMux.registerAll u regs = .ok mux →
      ((∃ e, mux.register u s₁ (.handler h) = .error e)
        ↔ ∃ route ∈ mux.routes, p₁.host = route.pattern.host
          ∧ (p₁.matched = route.pattern.matched
            ∨ SetRelation.overlap.Holds p₁.matched route.pattern.matched))
  := by
  have hwf₁ := parsePattern_wellFormed h₁
  have hwf₂ := parsePattern_wellFormed h₂
  refine ⟨fun r => comparePathsAndMethods_eq_iff hwf₁ hwf₂, fun regs mux h hmux => ?_⟩
  have hroute : routeOf u (s₁, .handler h) = some ⟨p₁, h⟩ := by
    rw [routeOf, h₁]
    rfl
  have hrefused : (∃ e, mux.register u s₁ (.handler h) = .error e)
      ↔ ∃ route ∈ mux.routes, p₁.conflictsWith route.pattern := by
    have hok : (∃ mux', mux.register u s₁ (.handler h) = .ok mux')
        ↔ ∀ route ∈ mux.routes, ¬ p₁.conflictsWith route.pattern := by
      simp [register_eq_ok_iff, hroute]
    rw [← not_iff_not]
    push Not
    rw [← hok]
    cases mux.register u s₁ (.handler h) <;> simp
  rw [hrefused]
  refine exists_congr fun route => and_congr_right fun hmem => ?_
  exact conflictsWith_iff hwf₁ ((registerAll_new hmux).1.wellFormed route hmem)

/-- A wildcard in front and one behind overlap, and the second of them is refused. -/
theorem comparePathsAndMethods_exact_overlap :
  ∃ p₁ p₂ : Pattern, parsePattern ascii (lit "/a/\x7bx\x7d") = .ok p₁
    ∧ parsePattern ascii (lit "/\x7bx\x7d/b") = .ok p₂
    ∧ Relationship.overlaps.denote.Holds p₁.matched p₂.matched
    ∧ ∃ mux : ServeMux ℕ, newServeMux.registerAll ascii [(lit "/\x7bx\x7d/b", .handler 0)] = .ok mux
      ∧ ∃ e, mux.register ascii (lit "/a/\x7bx\x7d") (.handler 1) = .error e
  := by
  have h₁ : parsePattern ascii (lit "/a/\x7bx\x7d")
      = .ok ⟨lit "/a/\x7bx\x7d", [], [], [⟨lit "a", false, false⟩, ⟨lit "x", true, false⟩]⟩ := by
    decide +kernel
  have h₂ : parsePattern ascii (lit "/\x7bx\x7d/b")
      = .ok ⟨lit "/\x7bx\x7d/b", [], [], [⟨lit "x", true, false⟩, ⟨lit "b", false, false⟩]⟩ := by
    decide +kernel
  have hmux : newServeMux.registerAll ascii [(lit "/\x7bx\x7d/b", .handler 0)]
      = .ok ⟨[⟨⟨lit "/\x7bx\x7d/b", [], [], [⟨lit "x", true, false⟩, ⟨lit "b", false, false⟩]⟩, 0⟩],
          false⟩ := by
    decide +kernel
  have hexact := comparePathsAndMethods_exact (H := ℕ) h₁ h₂
  have hoverlap := (hexact.1 .overlaps).mp (by decide +kernel)
  refine ⟨_, _, h₁, h₂, hoverlap, _, hmux, ?_⟩
  exact (hexact.2 _ _ 1 hmux).mpr ⟨_, mem_singleton_self _, rfl, .inr hoverlap⟩

end HttpMux
