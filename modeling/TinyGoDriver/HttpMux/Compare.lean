import TinyGoDriver.HttpMux.Pattern
import TinyGoDriver.Lib.SetRelation

/-!
# Comparing patterns

Two patterns are compared by going through their segments in step.  The result is one of five
relationships, and it is exact: the sets of requests that the patterns match lie to each other as
the relationship says (`comparePathsAndMethods_holds`).

A pattern whose segments each take one value matches a product of sets of values, so that the
relationships of the segments combine as those of products do.  Only the last segment is different,
which may take more than one value, and which cannot see an empty value: no path has one at its end.
-/

namespace HttpMux

open GoRt List

inductive Relationship where
  | equivalent
  | moreGeneral
  | moreSpecific
  | disjoint
  | overlaps
  deriving DecidableEq, Repr

def inverseRelationship : Relationship → Relationship
  | .moreSpecific => .moreGeneral
  | .moreGeneral => .moreSpecific
  | r => r

def combineRelationships (r₁ r₂ : Relationship) : Relationship :=
  match r₁ with
  | .equivalent => r₂
  | .disjoint => .disjoint
  | .overlaps => if r₂ = .disjoint then .disjoint else .overlaps
  | .moreGeneral | .moreSpecific =>
    if r₂ = .equivalent then r₁
    else if r₂ = inverseRelationship r₁ then .overlaps
    else r₂

def compareSegments (s₁ s₂ : Segment) : Relationship :=
  if s₁.multi ∧ s₂.multi then .equivalent
  else if s₁.multi then .moreGeneral
  else if s₂.multi then .moreSpecific
  else if s₁.wild ∧ s₂.wild then .equivalent
  else if s₁.wild then if s₂.s = [slash] then .disjoint else .moreGeneral
  else if s₂.wild then if s₁.s = [slash] then .disjoint else .moreSpecific
  else if s₁.s = s₂.s then .equivalent
  else .disjoint

/-- `lastSegment`.  A pattern has at least one segment. -/
def lastSegment (segments : List Segment) : Segment := segments.getLastD subtree

/-- The loop of `comparePaths`, over the segments that both patterns have. -/
def compareCommon (rel : Relationship) : List Segment → List Segment → Relationship
  | s₁ :: l₁, s₂ :: l₂ =>
    let rel := combineRelationships rel (compareSegments s₁ s₂)
    if rel = .disjoint then rel else compareCommon rel l₁ l₂
  | _, _ => rel

def comparePaths (l₁ l₂ : List Segment) : Relationship :=
  if l₁.length ≠ l₂.length ∧ ¬ (lastSegment l₁).multi ∧ ¬ (lastSegment l₂).multi then .disjoint
  else
    let rel := compareCommon .equivalent l₁ l₂
    if rel = .disjoint then rel
    else if l₁.length = l₂.length then rel
    else if l₁.length < l₂.length ∧ (lastSegment l₁).multi then
      combineRelationships rel .moreGeneral
    else if l₂.length < l₁.length ∧ (lastSegment l₂).multi then
      combineRelationships rel .moreSpecific
    else .disjoint

def methodGet : List UInt8 := lit "GET"
def methodHead : List UInt8 := lit "HEAD"

def compareMethods (m₁ m₂ : List UInt8) : Relationship :=
  if m₁ = m₂ then .equivalent
  else if m₁ = [] then .moreGeneral
  else if m₂ = [] then .moreSpecific
  else if m₁ = methodGet ∧ m₂ = methodHead then .moreGeneral
  else if m₂ = methodGet ∧ m₁ = methodHead then .moreSpecific
  else .disjoint

namespace Pattern

def comparePathsAndMethods (p₁ p₂ : Pattern) : Relationship :=
  let mrel := compareMethods p₁.method p₂.method
  if mrel = .disjoint then .disjoint
  else combineRelationships mrel (comparePaths p₁.segments p₂.segments)

def conflictsWith (p₁ p₂ : Pattern) : Bool :=
  if p₁.host ≠ p₂.host then false
  else
    let rel := p₁.comparePathsAndMethods p₂
    rel = .equivalent ∨ rel = .overlaps

end Pattern

/-! ### Matching -/

def matchesMethod (patternMethod requestMethod : List UInt8) : Bool :=
  patternMethod = [] ∨ patternMethod = requestMethod
    ∨ patternMethod = methodGet ∧ requestMethod = methodHead

/-- The loop of `matchesPath`, over the segments of a pattern and the values of a path. -/
def matchSegments : List Segment → List (List UInt8) → Bool
  | [], values => values = []
  | _ :: _, [] => false
  | seg :: segs, value :: values =>
    if seg.multi then true
    else if seg.wild then value ≠ [slash] && matchSegments segs values
    else value = seg.s && matchSegments segs values

/-- The segment takes this value, and no other with it. -/
def Segment.Takes (seg : Segment) (value : List UInt8) : Prop :=
  if seg.wild then value ≠ [slash] else value = seg.s

variable {seg s₁ s₂ : Segment} {segs l₂ : List Segment} {D : Set (List (List UInt8))}

theorem matchSegments_cons (h : seg.multi = false) {value : List UInt8}
    {values : List (List UInt8)} :
  matchSegments (seg :: segs) (value :: values) ↔ seg.Takes value ∧ matchSegments segs values
  := by
  rw [matchSegments, if_neg (by simp [h]), Segment.Takes]
  split <;> simp

theorem matchSegments_single (h : seg.multi = false) {values : List (List UInt8)} :
  matchSegments [seg] values ↔ ∃ v, values = [v] ∧ seg.Takes v
  := by
  cases values with
  | nil => simp [matchSegments]
  | cons v values =>
    rw [matchSegments_cons h, matchSegments]
    simp [and_comm]

theorem matchSegments_multi (h : seg.multi = true) {values : List (List UInt8)} :
  matchSegments (seg :: segs) values ↔ values ≠ []
  := by
  cases values with
  | nil => simp [matchSegments]
  | cons v values => simp [matchSegments, h]

/-! ### Relationships of sets -/

/-- What a relationship says about sets of requests. -/
def Relationship.denote : Relationship → SetRelation
  | .equivalent => .equal
  | .moreGeneral => .superset
  | .moreSpecific => .subset
  | .disjoint => .disjoint
  | .overlaps => .overlap

theorem denote_injective : Function.Injective Relationship.denote := by
  intro r r' h
  cases r <;> cases r' <;> first | rfl | cases h

theorem denote_combine (r r' : Relationship) :
  (combineRelationships r r').denote = r.denote.prod r'.denote
  := by
  cases r <;> cases r' <;> rfl

theorem combine_assoc (r₁ r₂ r₃ : Relationship) :
  combineRelationships (combineRelationships r₁ r₂) r₃
    = combineRelationships r₁ (combineRelationships r₂ r₃)
  := by
  cases r₁ <;> cases r₂ <;> cases r₃ <;> rfl

theorem combine_disjoint (r : Relationship) :
  combineRelationships r .disjoint = .disjoint
  := by
  cases r <;> rfl

theorem compareCommon_cons (rel : Relationship) (s₁ s₂ : Segment) (l₁ l₂ : List Segment) :
  compareCommon rel (s₁ :: l₁) (s₂ :: l₂)
    = combineRelationships (combineRelationships rel (compareSegments s₁ s₂))
        (compareCommon .equivalent l₁ l₂)
  := by
  induction l₁ generalizing rel s₁ s₂ l₂ with
  | nil =>
    rw [compareCommon]
    generalize combineRelationships rel (compareSegments s₁ s₂) = r
    cases r <;> rfl
  | cons t₁ l₁ ih =>
    rw [compareCommon]
    generalize combineRelationships rel (compareSegments s₁ s₂) = r
    split
    · rename_i hdisjoint
      rw [hdisjoint]
      rfl
    · cases l₂ with
      | nil => cases r <;> rfl
      | cons t₂ l₂ =>
        rw [ih, ih, ← combine_assoc]
        rfl

/-- What is left to compare after the segments that both patterns have: whether one of them takes
what the other goes on with. -/
def compareLengths (l₁ l₂ : List Segment) : Relationship :=
  if l₁.length = l₂.length then .equivalent
  else if l₁.length < l₂.length then
    if (lastSegment l₁).multi then .moreGeneral else .disjoint
  else if (lastSegment l₂).multi then .moreSpecific else .disjoint

theorem comparePaths_eq (l₁ l₂ : List Segment) :
  comparePaths l₁ l₂
    = combineRelationships (compareCommon .equivalent l₁ l₂) (compareLengths l₁ l₂)
  := by
  rw [comparePaths, compareLengths]
  generalize compareCommon .equivalent l₁ l₂ = rel
  generalize (lastSegment l₁).multi = multi₁
  generalize (lastSegment l₂).multi = multi₂
  rcases Nat.lt_trichotomy l₁.length l₂.length with hlt | heq | hgt
  · have hne : l₁.length ≠ l₂.length := hlt.ne
    cases multi₁ <;> cases multi₂ <;> cases rel <;>
      simp [hlt, hne, hlt.not_gt, combineRelationships, inverseRelationship]
  · cases rel <;> simp [heq, combineRelationships]
  · have hne : l₁.length ≠ l₂.length := hgt.ne'
    cases multi₁ <;> cases multi₂ <;> cases rel <;>
      simp [hgt, hne, hgt.not_gt, combineRelationships, inverseRelationship]

theorem lastSegment_cons (s : Segment) {l : List Segment} (h : l ≠ []) :
  lastSegment (s :: l) = lastSegment l
  := by
  obtain ⟨t, l, rfl⟩ := exists_cons_of_ne_nil h
  rfl

/-- The segments in front compare on their own. -/
theorem comparePaths_cons (s₁ s₂ : Segment) {l₁ : List Segment} (h₁ : l₁ ≠ []) (h₂ : l₂ ≠ []) :
  comparePaths (s₁ :: l₁) (s₂ :: l₂)
    = combineRelationships (compareSegments s₁ s₂) (comparePaths l₁ l₂)
  := by
  have hlengths : compareLengths (s₁ :: l₁) (s₂ :: l₂) = compareLengths l₁ l₂ := by
    simp only [compareLengths, lastSegment_cons s₁ h₁, lastSegment_cons s₂ h₂, length_cons,
      Nat.add_right_cancel_iff, Nat.add_lt_add_iff_right]
  rw [comparePaths_eq, comparePaths_eq, compareCommon_cons, hlengths, ← combine_assoc]
  rfl

theorem inverse_combine (r r' : Relationship) :
  inverseRelationship (combineRelationships r r')
    = combineRelationships (inverseRelationship r) (inverseRelationship r')
  := by
  cases r <;> cases r' <;> rfl

theorem denote_inverse (r : Relationship) :
  (inverseRelationship r).denote = r.denote.inverse
  := by
  cases r <;> rfl

theorem compareSegments_inverse (s₁ s₂ : Segment) :
  compareSegments s₁ s₂ = inverseRelationship (compareSegments s₂ s₁)
  := by
  obtain ⟨v₁, wild₁, multi₁⟩ := s₁
  obtain ⟨v₂, wild₂, multi₂⟩ := s₂
  have hcomm : (v₁ = v₂) = (v₂ = v₁) := propext eq_comm
  cases multi₁ <;> cases multi₂ <;> cases wild₁ <;> cases wild₂ <;>
    simp only [compareSegments, hcomm] <;> split_ifs <;> first | rfl | simp_all

theorem compareCommon_inverse (l₁ l₂ : List Segment) :
  compareCommon .equivalent l₁ l₂ = inverseRelationship (compareCommon .equivalent l₂ l₁)
  := by
  induction l₁ generalizing l₂ with
  | nil => cases l₂ <;> rfl
  | cons s₁ l₁ ih =>
    cases l₂ with
    | nil => rfl
    | cons s₂ l₂ =>
      rw [compareCommon_cons, compareCommon_cons, ih, inverse_combine, inverse_combine,
        ← compareSegments_inverse]
      rfl

theorem compareLengths_inverse (l₁ l₂ : List Segment) :
  compareLengths l₁ l₂ = inverseRelationship (compareLengths l₂ l₁)
  := by
  rw [compareLengths, compareLengths]
  split_ifs <;> first | rfl | omega

theorem comparePaths_inverse (l₁ l₂ : List Segment) :
  comparePaths l₁ l₂ = inverseRelationship (comparePaths l₂ l₁)
  := by
  rw [comparePaths_eq, comparePaths_eq, compareCommon_inverse, compareLengths_inverse,
    inverse_combine]

/-! ### Exactness -/

/-- The values a segment takes. -/
def Segment.values (seg : Segment) : Set (List UInt8) := {v | seg.Takes v}

/-- The lists of values that the segments match. -/
def matchSet (segs : List Segment) : Set (List (List UInt8)) := {values | matchSegments segs values}

/-- The lists that have no empty value at their end. -/
def ended : Set (List (List UInt8)) := {values | values.getLast? ≠ some []}

/-- A set of lists that contains every value on its own but perhaps the empty one, and whose longer
lists are those that have no empty value at their end.  The paths of requests are cut into lists of
this kind, and so is what is left of them after the first value. -/
structure PathDomain (D : Set (List (List UInt8))) : Prop where
  single : ∀ v, v ≠ [] → [v] ∈ D
  cons : ∀ v values, values ≠ [] → (v :: values ∈ D ↔ values ∈ ended)

theorem pathDomain_ended : PathDomain ended where
  single v hv := by simpa [ended] using hv
  cons v values hvalues := by
    obtain ⟨w, values, rfl⟩ := exists_cons_of_ne_nil hvalues
    simp [ended]

/-- A value that the segment does not take, and that is not empty. -/
theorem Segment.exists_not_takes (seg : Segment) :
  ∃ v, v ≠ [] ∧ ¬ seg.Takes v
  := by
  cases hwild : seg.wild with
  | true => exact ⟨[slash], by simp, by simp [Segment.Takes, hwild]⟩
  | false => exact ⟨0 :: seg.s, by simp, by simp [Segment.Takes, hwild]⟩

theorem Segment.nonempty_values (seg : Segment) :
  seg.values.Nonempty
  := by
  cases hwild : seg.wild with
  | true => exact ⟨[], by simp [Segment.values, Segment.Takes, hwild]⟩
  | false => exact ⟨seg.s, by simp [Segment.values, Segment.Takes, hwild]⟩

section Values

variable {E : Set (List UInt8)} (hE : ∀ v, v ≠ [] → v ∈ E)

include hE

theorem compareSegments_holds_of_wild (h₁ : s₁.multi = false) (h₂ : s₂.multi = false)
    (hwild : s₁.wild = true) (hlit : s₂.wild = false) (hs₂ : s₂.s ∈ E) :
  (compareSegments s₁ s₂).denote.Holds (s₁.values ∩ E) (s₂.values ∩ E)
  := by
  have hvalues₁ : s₁.values = {v | v ≠ [slash]} := by
    ext v
    simp [Segment.values, Segment.Takes, hwild]
  have hvalues₂ : s₂.values ∩ E = {s₂.s} := by
    ext v
    simp only [Segment.values, Segment.Takes, hlit, Set.mem_inter_iff, Set.mem_ofPred_eq,
      Bool.false_eq_true, if_false, Set.mem_singleton_iff]
    exact ⟨fun h => h.1, fun h => ⟨h, h ▸ hs₂⟩⟩
  rw [hvalues₁, hvalues₂]
  by_cases hslash : s₂.s = [slash]
  · have hrel : compareSegments s₁ s₂ = .disjoint := by
      simp [compareSegments, h₁, h₂, hwild, hlit, hslash]
    rw [hrel]
    exact Set.disjoint_singleton_right.mpr fun h => h.1 hslash
  have hrel : compareSegments s₁ s₂ = .moreGeneral := by
    simp [compareSegments, h₁, h₂, hwild, hlit, hslash]
  rw [hrel]
  have hsub : {s₂.s} ⊆ {v | v ≠ [slash]} ∩ E := Set.singleton_subset_iff.mpr ⟨hslash, hs₂⟩
  refine (Set.ssubset_iff_of_subset hsub).mpr ?_
  refine ⟨0 :: s₂.s, ⟨?_, hE _ (by simp)⟩, by simp⟩
  rintro h
  exact absurd (cons.inj h).1 (by decide)

/-- Segments that take one value compare as the sets of those values do. -/
theorem compareSegments_holds (h₁ : s₁.multi = false) (h₂ : s₂.multi = false)
    (hs₁ : s₁.wild = false → s₁.s ∈ E) (hs₂ : s₂.wild = false → s₂.s ∈ E) :
  (compareSegments s₁ s₂).denote.Holds (s₁.values ∩ E) (s₂.values ∩ E)
  := by
  cases hwild₁ : s₁.wild with
  | true =>
    cases hwild₂ : s₂.wild with
    | true =>
      have hrel : compareSegments s₁ s₂ = .equivalent := by
        simp [compareSegments, h₁, h₂, hwild₁, hwild₂]
      rw [hrel]
      show s₁.values ∩ E = s₂.values ∩ E
      simp [Segment.values, Segment.Takes, hwild₁, hwild₂]
    | false => exact compareSegments_holds_of_wild hE h₁ h₂ hwild₁ hwild₂ (hs₂ hwild₂)
  | false =>
    cases hwild₂ : s₂.wild with
    | true =>
      rw [compareSegments_inverse, denote_inverse]
      exact (compareSegments_holds_of_wild hE h₂ h₁ hwild₂ hwild₁ (hs₁ hwild₁)).inverse
    | false =>
      by_cases heq : s₁.s = s₂.s
      · have hrel : compareSegments s₁ s₂ = .equivalent := by
          simp [compareSegments, h₁, h₂, hwild₁, hwild₂, heq]
        rw [hrel]
        show s₁.values ∩ E = s₂.values ∩ E
        simp [Segment.values, Segment.Takes, hwild₁, hwild₂, heq]
      have hrel : compareSegments s₁ s₂ = .disjoint := by
        simp [compareSegments, h₁, h₂, hwild₁, hwild₂, heq]
      rw [hrel]
      refine Set.disjoint_left.mpr fun v hv₁ hv₂ => heq ?_
      have hv₁ : v = s₁.s := by simpa [Segment.values, Segment.Takes, hwild₁] using hv₁.1
      have hv₂ : v = s₂.s := by simpa [Segment.values, Segment.Takes, hwild₂] using hv₂.1
      exact hv₁.symm.trans hv₂

end Values

/-- Segments that are longer than one end in segments of the same kind. -/
theorem wellFormed_cons (hsegs : segs ≠ []) :
  WellFormed (seg :: segs) ↔ seg.multi = false ∧ WellFormed segs
  := by
  obtain ⟨next, segs, rfl⟩ := exists_cons_of_ne_nil hsegs
  rfl

theorem ne_nil_of_wellFormed (h : WellFormed segs) :
  segs ≠ []
  := by
  rintro rfl
  exact h

theorem matchSegments_ne_nil (h : segs ≠ []) {values : List (List UInt8)}
    (hm : matchSegments segs values) :
  values ≠ []
  := by
  obtain ⟨seg, segs, rfl⟩ := exists_cons_of_ne_nil h
  rintro rfl
  simp [matchSegments] at hm

theorem nonempty_matchSet (hD : PathDomain D) (h : WellFormed segs) :
  (matchSet segs ∩ D).Nonempty
  := by
  induction segs generalizing D with
  | nil => exact h.elim
  | cons seg segs ih =>
    by_cases hnil : segs = []
    · subst hnil
      cases hm : seg.multi with
      | true =>
        exact ⟨[[slash]], (matchSegments_multi hm).mpr (by simp), hD.single _ (by simp)⟩
      | false =>
        suffices hv : ∃ v, v ≠ [] ∧ seg.Takes v by
          obtain ⟨v, hv, htakes⟩ := hv
          exact ⟨[v], (matchSegments_single hm).mpr ⟨v, rfl, htakes⟩, hD.single v hv⟩
        cases hwild : seg.wild with
        | true => exact ⟨[0], by simp, by simp [Segment.Takes, hwild, slash]⟩
        | false => exact ⟨seg.s, h.2 hwild, by simp [Segment.Takes, hwild]⟩
    · obtain ⟨hm, hsegs⟩ := (wellFormed_cons hnil).mp h
      obtain ⟨v, hv⟩ := seg.nonempty_values
      obtain ⟨values, hmatch, hended⟩ := ih pathDomain_ended hsegs
      refine ⟨v :: values, (matchSegments_cons hm).mpr ⟨hv, hmatch⟩, ?_⟩
      exact (hD.cons v values (matchSegments_ne_nil hnil hmatch)).mpr hended

section Domain

variable {D : Set (List (List UInt8))} (hD : PathDomain D)

include hD

/-- Whatever begins with a segment that takes one value is included in what a segment that takes all
matches. -/
theorem matchSet_ssubset_multi {s : Segment} (hseg : seg.multi = true) (hs : s.multi = false) :
  matchSet (s :: segs) ∩ D ⊂ matchSet [seg] ∩ D
  := by
  have hsub : matchSet (s :: segs) ∩ D ⊆ matchSet [seg] ∩ D := by
    rintro values ⟨hm, hv⟩
    exact ⟨(matchSegments_multi hseg).mpr (matchSegments_ne_nil (by simp) hm), hv⟩
  refine (Set.ssubset_iff_of_subset hsub).mpr ?_
  obtain ⟨v, hv, hnot⟩ := s.exists_not_takes
  refine ⟨[v], ⟨(matchSegments_multi hseg).mpr (by simp), hD.single v hv⟩, ?_⟩
  rintro ⟨hm, -⟩
  exact hnot ((matchSegments_cons hs).mp hm).1

/-- A last segment compares with a last segment. -/
theorem comparePaths_holds_single (h₁ : WellFormed [s₁]) (h₂ : WellFormed [s₂]) :
  (comparePaths [s₁] [s₂]).denote.Holds (matchSet [s₁] ∩ D) (matchSet [s₂] ∩ D)
  := by
  have hrel : comparePaths [s₁] [s₂] = compareSegments s₁ s₂ := by
    rw [comparePaths_eq, compareCommon_cons]
    generalize compareSegments s₁ s₂ = r
    cases r <;> rfl
  rw [hrel]
  cases hm₁ : s₁.multi with
  | true =>
    cases hm₂ : s₂.multi with
    | true =>
      have hseg : compareSegments s₁ s₂ = .equivalent := by simp [compareSegments, hm₁, hm₂]
      rw [hseg]
      show matchSet [s₁] ∩ D = matchSet [s₂] ∩ D
      simp only [matchSet, matchSegments_multi hm₁, matchSegments_multi hm₂]
    | false =>
      have hseg : compareSegments s₁ s₂ = .moreGeneral := by simp [compareSegments, hm₁, hm₂]
      rw [hseg]
      exact matchSet_ssubset_multi hD hm₁ hm₂
  | false =>
    cases hm₂ : s₂.multi with
    | true =>
      have hseg : compareSegments s₁ s₂ = .moreSpecific := by simp [compareSegments, hm₁, hm₂]
      rw [hseg]
      exact matchSet_ssubset_multi hD hm₂ hm₁
    | false =>
      -- both match lists of one value
      have hpre : ∀ {s : Segment}, s.multi = false →
          Set.preimage (fun v => [v]) (matchSet [s] ∩ D) = s.values ∩ {v | [v] ∈ D} := by
        intro s hs
        ext v
        simp [matchSet, matchSegments_single hs, Segment.values]
      have hrange : ∀ {s : Segment}, s.multi = false →
          matchSet [s] ∩ D ⊆ Set.range (fun v => [v]) := by
        rintro s hs values ⟨hm, -⟩
        obtain ⟨v, rfl, -⟩ := (matchSegments_single hs).mp hm
        exact ⟨v, rfl⟩
      rw [← SetRelation.holds_preimage_iff (nonempty_matchSet hD h₁) (nonempty_matchSet hD h₂)
        (hrange hm₁) (hrange hm₂), hpre hm₁, hpre hm₂]
      refine compareSegments_holds hD.single hm₁ hm₂ (fun h => ?_) (fun h => ?_)
      · exact hD.single _ (h₁.2 h)
      · exact hD.single _ (h₂.2 h)

/-- A last segment compares with one that more follow. -/
theorem comparePaths_holds_longer (h₂ : s₂.multi = false) (hl₂ : WellFormed l₂) :
  (comparePaths [s₁] (s₂ :: l₂)).denote.Holds (matchSet [s₁] ∩ D) (matchSet (s₂ :: l₂) ∩ D)
  := by
  have hne := ne_nil_of_wellFormed hl₂
  have hlength : ([s₁] : List Segment).length < (s₂ :: l₂).length := by
    simpa using length_pos_of_ne_nil hne
  cases hm₁ : s₁.multi with
  | true =>
    have hrel : comparePaths [s₁] (s₂ :: l₂) = .moreGeneral := by
      have hseg : compareSegments s₁ s₂ = .moreGeneral := by simp [compareSegments, hm₁, h₂]
      rw [comparePaths_eq, compareCommon_cons, compareLengths, if_neg hlength.ne, if_pos hlength,
        if_pos (show (lastSegment [s₁]).multi = true from hm₁), hseg]
      rfl
    rw [hrel]
    exact matchSet_ssubset_multi hD hm₁ h₂
  | false =>
    have hrel : comparePaths [s₁] (s₂ :: l₂) = .disjoint := by
      rw [comparePaths_eq, compareLengths, if_neg hlength.ne, if_pos hlength,
        if_neg (by simpa [lastSegment] using hm₁), combine_disjoint]
    rw [hrel]
    refine Set.disjoint_left.mpr ?_
    rintro values ⟨hv₁, -⟩ ⟨hv₂, -⟩
    obtain ⟨v, rfl, -⟩ := (matchSegments_single hm₁).mp hv₁
    exact matchSegments_ne_nil hne ((matchSegments_cons h₂).mp hv₂).2 rfl

/-- Segments that more follow compare, and then those that follow. -/
theorem comparePaths_holds_cons {l₁ : List Segment} (h₁ : s₁.multi = false) (h₂ : s₂.multi = false)
    (hl₁ : WellFormed l₁) (hl₂ : WellFormed l₂)
    (ih : (comparePaths l₁ l₂).denote.Holds (matchSet l₁ ∩ ended) (matchSet l₂ ∩ ended)) :
  (comparePaths (s₁ :: l₁) (s₂ :: l₂)).denote.Holds (matchSet (s₁ :: l₁) ∩ D)
    (matchSet (s₂ :: l₂) ∩ D)
  := by
  have hpre : ∀ {s : Segment} {l : List Segment}, s.multi = false → WellFormed l →
      Set.preimage (fun x : List UInt8 × List (List UInt8) => x.1 :: x.2) (matchSet (s :: l) ∩ D)
        = (s.values ∩ Set.univ) ×ˢ (matchSet l ∩ ended) := by
    intro s l hs hl
    ext ⟨v, values⟩
    have hcons : matchSegments l values → (v :: values ∈ D ↔ values ∈ ended) := fun hm =>
      hD.cons v values (matchSegments_ne_nil (ne_nil_of_wellFormed hl) hm)
    simp only [matchSet, Segment.values, Set.mem_preimage, Set.mem_inter_iff, Set.mem_ofPred_eq,
      Set.mem_prod, Set.inter_univ, matchSegments_cons hs]
    exact ⟨fun h => ⟨h.1.1, h.1.2, (hcons h.1.2).mp h.2⟩,
      fun h => ⟨⟨h.1, h.2.1⟩, (hcons h.2.1).mpr h.2.2⟩⟩
  have hrange : ∀ {s : Segment} {l : List Segment}, matchSet (s :: l) ∩ D
      ⊆ Set.range (fun x : List UInt8 × List (List UInt8) => x.1 :: x.2) := by
    rintro s l values ⟨hm, -⟩
    obtain ⟨v, values, rfl⟩ := exists_cons_of_ne_nil (matchSegments_ne_nil (by simp) hm)
    exact ⟨(v, values), rfl⟩
  have hne : ∀ {s : Segment} {l : List Segment}, s.multi = false → WellFormed l →
      (matchSet (s :: l) ∩ D).Nonempty := fun hs hl =>
    nonempty_matchSet hD ((wellFormed_cons (ne_nil_of_wellFormed hl)).mpr ⟨hs, hl⟩)
  have hvalues : ∀ s : Segment, (s.values ∩ Set.univ).Nonempty := fun s => by
    rw [Set.inter_univ]
    exact s.nonempty_values
  rw [comparePaths_cons s₁ s₂ (ne_nil_of_wellFormed hl₁) (ne_nil_of_wellFormed hl₂), denote_combine,
    ← SetRelation.holds_preimage_iff (hne h₁ hl₁) (hne h₂ hl₂) hrange hrange, hpre h₁ hl₁,
    hpre h₂ hl₂]
  refine SetRelation.Holds.prod ?_ ih (hvalues s₁) (hvalues s₂)
    (nonempty_matchSet pathDomain_ended hl₁) (nonempty_matchSet pathDomain_ended hl₂)
  exact compareSegments_holds (fun _ _ => trivial) h₁ h₂ (fun _ => trivial) (fun _ => trivial)

end Domain

/-- Paths compare as the sets of lists that they match. -/
theorem comparePaths_holds (hD : PathDomain D) {l₁ : List Segment} (h₁ : WellFormed l₁)
    (h₂ : WellFormed l₂) :
  (comparePaths l₁ l₂).denote.Holds (matchSet l₁ ∩ D) (matchSet l₂ ∩ D)
  := by
  induction l₁ generalizing D l₂ with
  | nil => exact h₁.elim
  | cons s₁ l₁ ih =>
    obtain ⟨s₂, l₂, rfl⟩ := exists_cons_of_ne_nil (ne_nil_of_wellFormed h₂)
    by_cases hnil₁ : l₁ = []
    · subst hnil₁
      by_cases hnil₂ : l₂ = []
      · subst hnil₂
        exact comparePaths_holds_single hD h₁ h₂
      · obtain ⟨hm₂, hl₂⟩ := (wellFormed_cons hnil₂).mp h₂
        exact comparePaths_holds_longer hD hm₂ hl₂
    obtain ⟨hm₁, hl₁⟩ := (wellFormed_cons hnil₁).mp h₁
    by_cases hnil₂ : l₂ = []
    · subst hnil₂
      rw [comparePaths_inverse, denote_inverse]
      exact (comparePaths_holds_longer hD hm₁ hl₁).inverse
    · obtain ⟨hm₂, hl₂⟩ := (wellFormed_cons hnil₂).mp h₂
      exact comparePaths_holds_cons hD hm₁ hm₂ hl₁ hl₂ (ih pathDomain_ended hl₁ hl₂)

/-! ### Methods -/

/-- The methods of requests that a pattern with this method takes. -/
def methodSet (method : List UInt8) : Set (List UInt8) := {m | matchesMethod method m}

theorem mem_methodSet {method m : List UInt8} :
  m ∈ methodSet method ↔ method = [] ∨ method = m ∨ method = methodGet ∧ m = methodHead
  := by
  simp [methodSet, matchesMethod]

theorem nonempty_methodSet (method : List UInt8) : (methodSet method).Nonempty :=
  ⟨method, mem_methodSet.mpr (.inr (.inl rfl))⟩

theorem methodSet_ssubset_any {method : List UInt8} (h : method ≠ []) :
  methodSet method ⊂ methodSet []
  := by
  have hsub : methodSet method ⊆ methodSet [] := fun _ _ => mem_methodSet.mpr (.inl rfl)
  refine (Set.ssubset_iff_of_subset hsub).mpr ⟨[], mem_methodSet.mpr (.inl rfl), fun hm => ?_⟩
  rcases mem_methodSet.mp hm with hm | hm | ⟨-, hm⟩
  · exact h hm
  · exact h hm
  · cases hm

theorem methodSet_head_ssubset_get :
  methodSet methodHead ⊂ methodSet methodGet
  := by
  have hsub : methodSet methodHead ⊆ methodSet methodGet := by
    intro m hm
    rcases mem_methodSet.mp hm with hm | hm | ⟨hm, -⟩
    · cases hm
    · exact mem_methodSet.mpr (.inr (.inr ⟨rfl, hm.symm⟩))
    · cases hm
  refine (Set.ssubset_iff_of_subset hsub).mpr ⟨methodGet, mem_methodSet.mpr (.inr (.inl rfl)), ?_⟩
  rw [mem_methodSet]
  decide

/-- Methods compare as the sets of methods that they take. -/
theorem compareMethods_holds (m₁ m₂ : List UInt8) :
  (compareMethods m₁ m₂).denote.Holds (methodSet m₁) (methodSet m₂)
  := by
  rw [compareMethods]
  split_ifs with heq h₁ h₂ hget hhead
  · exact congrArg methodSet heq
  · subst h₁
    exact methodSet_ssubset_any (Ne.symm heq)
  · subst h₂
    exact methodSet_ssubset_any heq
  · rw [hget.1, hget.2]
    exact methodSet_head_ssubset_get
  · rw [hhead.1, hhead.2]
    exact methodSet_head_ssubset_get
  · refine Set.disjoint_left.mpr fun m hm₁ hm₂ => ?_
    rw [mem_methodSet] at hm₁ hm₂
    grind

/-! ### Requests -/

/-- The pairs of a method and a list of values that the pattern matches, among the lists in `D`. -/
def Pattern.requests (D : Set (List (List UInt8))) (p : Pattern) :
    Set (List UInt8 × List (List UInt8)) :=
  methodSet p.method ×ˢ (matchSet p.segments ∩ D)

theorem Pattern.nonempty_requests (hD : PathDomain D) {p : Pattern} (h : WellFormed p.segments) :
  (p.requests D).Nonempty
  :=
  (nonempty_methodSet p.method).prod (nonempty_matchSet hD h)

/-- Patterns compare as the sets of requests that they match. -/
theorem comparePathsAndMethods_holds (hD : PathDomain D) {p₁ p₂ : Pattern}
    (h₁ : WellFormed p₁.segments) (h₂ : WellFormed p₂.segments) :
  (p₁.comparePathsAndMethods p₂).denote.Holds (p₁.requests D) (p₂.requests D)
  := by
  have hrel : p₁.comparePathsAndMethods p₂
      = combineRelationships (compareMethods p₁.method p₂.method)
          (comparePaths p₁.segments p₂.segments) := by
    rw [Pattern.comparePathsAndMethods]
    split
    · rename_i hdisjoint
      rw [hdisjoint]
      rfl
    · rfl
  rw [hrel, denote_combine]
  exact (compareMethods_holds _ _).prod (comparePaths_holds hD h₁ h₂) (nonempty_methodSet _)
    (nonempty_methodSet _) (nonempty_matchSet hD h₁) (nonempty_matchSet hD h₂)

end HttpMux
