import TinyGoDriver.Go.SortStrings
import TinyGoDriver.Go.UrlPath

/-!
# The canonical query

`CanonicalQuery` escapes the parameters, joins each name with its value by an equals sign, and sorts
the strings this gives.  The signature asks for another order, by escaped name and then by escaped
value.

The two agree just when no escaped name goes on from another one with a byte below the equals sign
(`canonicalQuery_eq_iff`): such a name comes after the other, but its parameter before.
-/

namespace Aws

open GoRt List

def equals : UInt8 := 0x3d
def ampersand : UInt8 := 0x26

def unreservedByte (c : UInt8) : Bool := isAlnum c ∨ c ∈ lit "-_.~"

/-- What `URIEncode` writes for a byte. -/
def encodeByte (encodeSlash : Bool) (c : UInt8) : List UInt8 :=
  if unreservedByte c then [c]
  else if c = slash ∧ ¬ encodeSlash then [slash]
  else escapeByte c

def uriEncode (s : List UInt8) (encodeSlash : Bool) : List UInt8 :=
  s.flatMap (encodeByte encodeSlash)

/-- A parameter, escaped. -/
def encodeParam (p : List UInt8 × List UInt8) : List UInt8 × List UInt8 :=
  (uriEncode p.1 true, uriEncode p.2 true)

/-- A name and its value. -/
def renderParam (p : List UInt8 × List UInt8) : List UInt8 := p.1 ++ equals :: p.2

def canonicalQuery (params : List (List UInt8 × List UInt8)) : List UInt8 :=
  if params.length = 0 then []
  else
    let encoded := params.map fun p => renderParam (encodeParam p)
    [ampersand].intercalate (sortStrings encoded)

/-! ### The order that is asked for -/

/-- By name, and then by value. -/
def ParamLe (p q : List UInt8 × List UInt8) : Prop := p.1 < q.1 ∨ p.1 = q.1 ∧ p.2 ≤ q.2

instance : DecidableRel ParamLe := fun p q => inferInstanceAs (Decidable (p.1 < q.1 ∨ _))

instance : Std.Total ParamLe where
  total p q := by
    by_cases hlt : p.1 < q.1
    · exact .inl (.inl hlt)
    by_cases heq : p.1 = q.1
    · rcases List.le_total p.2 q.2 with hle | hle
      · exact .inl (.inr ⟨heq, hle⟩)
      · exact .inr (.inr ⟨heq.symm, hle⟩)
    · exact .inr (.inl (lt_of_not_lt_of_ne hlt heq))

instance : IsTrans (List UInt8 × List UInt8) ParamLe where
  trans := by
    rintro p q r (hpq | ⟨hpq, hle⟩) (hqr | ⟨hqr, hle'⟩)
    · exact .inl (List.lt_trans hpq hqr)
    · exact .inl (hqr ▸ hpq)
    · exact .inl (hpq ▸ hqr)
    · exact .inr ⟨hpq.trans hqr, List.le_trans hle hle'⟩

/-- The query with the parameters in the order that the signature asks for. -/
def sigV4Query (params : List (List UInt8 × List UInt8)) : List UInt8 :=
  [ampersand].intercalate (((params.map encodeParam).insertionSort ParamLe).map renderParam)

/-- No escaped name goes on from another one with a byte below the equals sign. -/
def NoLowExtension (params : List (List UInt8 × List UInt8)) : Prop :=
  ∀ p ∈ params, ∀ q ∈ params, ∀ c t, uriEncode q.1 true = uriEncode p.1 true ++ c :: t → equals < c

/-! ### Escaped bytes -/

theorem not_mem_uriEncode {b : UInt8} (hb : ∀ c, b ∉ encodeByte true c) (s : List UInt8) :
  b ∉ uriEncode s true
  := by
  simp [uriEncode, hb]

theorem equals_not_mem_uriEncode (s : List UInt8) :
  equals ∉ uriEncode s true
  := by
  apply not_mem_uriEncode
  apply forall_byte
  decide +kernel

theorem ampersand_not_mem_uriEncode (s : List UInt8) :
  ampersand ∉ uriEncode s true
  := by
  apply not_mem_uriEncode
  apply forall_byte
  decide +kernel

theorem ampersand_not_mem_renderParam (p : List UInt8 × List UInt8) :
  ampersand ∉ renderParam (encodeParam p)
  := by
  simp only [renderParam, encodeParam, mem_append, mem_cons, not_or]
  exact ⟨ampersand_not_mem_uriEncode _, by decide, ampersand_not_mem_uriEncode _⟩

variable {p q : List UInt8 × List UInt8}

/-- A name that another one goes on from comes with its parameter before that, unless a byte below
the equals sign follows. -/
theorem renderParam_lt (h : p.1 < q.1) (hlow : ∀ c t, q.1 = p.1 ++ c :: t → equals < c) :
  renderParam p < renderParam q
  := by
  rw [renderParam, renderParam]
  rcases lt_cases h with ⟨c, t, hq⟩ | ⟨u, x, s, y, t, hp, hq, hxy⟩
  · rw [hq, append_assoc]
    exact append_cons_lt (hlow c t hq) _ _ _
  · rw [hp, hq, append_assoc, append_assoc]
    exact append_cons_lt hxy _ _ _

theorem renderParam_le (h : ParamLe p q) (hlow : ∀ c t, q.1 = p.1 ++ c :: t → equals < c) :
  renderParam p ≤ renderParam q
  := by
  rcases h with hlt | ⟨heq, hle⟩
  · exact List.le_of_lt (renderParam_lt hlt hlow)
  · rw [renderParam, heq]
    exact append_left_le (cons_le_cons_iff.mpr (.inr ⟨rfl, hle⟩))

/-- A parameter whose name goes on from another one comes after that one's only if it goes on with a
byte above the equals sign. -/
theorem low_of_renderParam_le {c : UInt8} {t : List UInt8}
    (hext : uriEncode q.1 true = uriEncode p.1 true ++ c :: t)
    (hle : renderParam (encodeParam p) ≤ renderParam (encodeParam q)) :
  equals < c
  := by
  have hne : c ≠ equals := by
    rintro rfl
    exact equals_not_mem_uriEncode q.1 (by simp [hext])
  by_contra hlow
  have hlt : c < equals := by
    rcases UInt8.lt_or_lt_of_ne hne with h | h
    · exact h
    · exact absurd h hlow
  refine List.not_lt.mpr hle ?_
  simp only [renderParam, encodeParam, hext, append_assoc, cons_append]
  exact append_cons_lt hlt _ _ _

/-- Both queries list the same parameters, so they agree when the lists do. -/
theorem canonicalQuery_eq_sigV4Query_iff (params : List (List UInt8 × List UInt8)) :
  canonicalQuery params = sigV4Query params
    ↔ (((params.map encodeParam).insertionSort ParamLe).map renderParam).Pairwise (· ≤ ·)
  := by
  have hperm : (((params.map encodeParam).insertionSort ParamLe).map renderParam).Perm
      (params.map fun p => renderParam (encodeParam p)) := by
    have := (perm_insertionSort ParamLe (params.map encodeParam)).map renderParam
    rwa [map_map] at this
  rw [canonicalQuery, sigV4Query]
  by_cases hnil : params = []
  · simp [hnil]
  rw [if_neg (by simpa using hnil)]
  generalize ((params.map encodeParam).insertionSort ParamLe).map renderParam = asked at hperm
  have hmem : ∀ s ∈ asked, ampersand ∉ s := by
    intro s hs
    obtain ⟨p, -, rfl⟩ := mem_map.mp (hperm.mem_iff.mp hs)
    exact ampersand_not_mem_renderParam p
  constructor
  · intro heq
    have hsorted := sortStrings_perm (params.map fun p => renderParam (encodeParam p))
    have hne : params.map (fun p => renderParam (encodeParam p)) ≠ [] := by simpa using hnil
    have hsplit := congrArg (splitOn ampersand) heq
    rw [splitOn_intercalate, splitOn_intercalate _ hmem] at hsplit
    · rw [← hsplit]
      exact pairwise_sortStrings _
    · exact fun h => hne (h ▸ hperm).symm.eq_nil
    · exact fun s hs => hmem s ((hsorted.trans hperm.symm).mem_iff.mp hs)
    · exact fun h => hne (h ▸ hsorted).symm.eq_nil
  · intro hsorted
    rw [eq_sortStrings hperm hsorted]

/-- The canonical query is in the order of the signature just when no escaped name goes on from
another one with a byte below the equals sign.  It is the same for every order of the parameters. -/
theorem canonicalQuery_eq_iff (params : List (List UInt8 × List UInt8)) :
  (canonicalQuery params = sigV4Query params ↔ NoLowExtension params)
    ∧ ∀ params', params'.Perm params → canonicalQuery params' = canonicalQuery params
  := by
  refine ⟨?_, fun params' hperm => ?_⟩
  · have hsorted := pairwise_insertionSort ParamLe (params.map encodeParam)
    have hmem : ∀ {p}, p ∈ (params.map encodeParam).insertionSort ParamLe
        ↔ ∃ q ∈ params, encodeParam q = p := by
      intro p
      rw [mem_insertionSort, mem_map]
    rw [canonicalQuery_eq_sigV4Query_iff, pairwise_map]
    constructor
    · intro hle p hp q hq c t hext
      have hlt : (encodeParam p).1 < (encodeParam q).1 := by
        rw [encodeParam, encodeParam, hext]
        exact lt_append_cons _ _ _
      have hne : encodeParam p ≠ encodeParam q := by
        intro heq
        rw [heq] at hlt
        exact List.lt_irrefl _ hlt
      -- both orders put the same one of the two parameters first
      have hboth := rel_or_rel (hsorted.and hle) (hmem.mpr ⟨p, hp, rfl⟩) (hmem.mpr ⟨q, hq, rfl⟩) hne
      rcases hboth with ⟨-, hle⟩ | ⟨hle, -⟩
      · exact low_of_renderParam_le hext hle
      rcases hle with hgt | ⟨heq, -⟩
      · exact absurd hgt (List.lt_asymm hlt)
      · exact absurd (heq ▸ hlt) (List.lt_irrefl _)
    · intro hlow
      refine hsorted.imp_of_mem fun hp hq hpq => renderParam_le hpq ?_
      obtain ⟨p, hp', rfl⟩ := hmem.mp hp
      obtain ⟨q, hq', rfl⟩ := hmem.mp hq
      exact hlow p hp' q hq'
  · have hlength := hperm.length_eq
    rw [canonicalQuery, canonicalQuery, hlength]
    split
    · rfl
    · dsimp only
      rw [sortStrings_congr (hperm.map _)]

/-- The name `a-` comes after `a`, but its parameter before. -/
theorem canonicalQuery_low_extension :
  canonicalQuery [(lit "a", lit "1"), (lit "a-", lit "2")] = lit "a-=2&a=1"
    ∧ sigV4Query [(lit "a", lit "1"), (lit "a-", lit "2")] = lit "a=1&a-=2"
  := by
  decide +kernel

end Aws
