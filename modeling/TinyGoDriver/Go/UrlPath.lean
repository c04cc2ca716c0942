import TinyGoDriver.Go.Basic

/-!
# Paths of URLs

From `net/url`, the escaping of paths: `unescape` takes a path to the bytes it stands for and
`escape` writes bytes as a path.  From `path`, `clean`, which resolves the elements `.` and `..` of
a path that begins with a slash and drops empty ones.

An escape sequence contains no slash, so that cutting an escaped path at its slashes does not cut
through one (`isSome_unescape_slash`).
-/

namespace GoRt

open List

/-- A string of ASCII characters, as its bytes. -/
def lit (s : String) : List UInt8 := s.toList.map (fun c => UInt8.ofNat c.toNat)

def slash : UInt8 := 0x2f
def percent : UInt8 := 0x25
def question : UInt8 := 0x3f

/-! ### Escaping -/

def isHex (b : UInt8) : Bool :=
  0x30 ≤ b ∧ b ≤ 0x39 ∨ 0x61 ≤ b ∧ b ≤ 0x66 ∨ 0x41 ≤ b ∧ b ≤ 0x46

def unhex (b : UInt8) : UInt8 :=
  if 0x30 ≤ b ∧ b ≤ 0x39 then b - 0x30
  else if 0x61 ≤ b ∧ b ≤ 0x66 then b - 0x61 + 10
  else if 0x41 ≤ b ∧ b ≤ 0x46 then b - 0x41 + 10
  else 0

/-- `upperhex[n]` -/
def upperHex (n : UInt8) : UInt8 := if n < 10 then 0x30 + n else 0x41 + (n - 10)

/-- `url.PathUnescape`, which is `none` where it returns an error. -/
def unescape : List UInt8 → Option (List UInt8)
  | [] => some []
  | b :: s =>
    if b = percent then
      match s with
      | h :: l :: s =>
        if isHex h ∧ isHex l then (unescape s).map ((unhex h * 16 + unhex l) :: ·)
        else none
      | _ => none
    else (unescape s).map (b :: ·)

def isAlnum (b : UInt8) : Bool :=
  0x61 ≤ b ∧ b ≤ 0x7a ∨ 0x41 ≤ b ∧ b ≤ 0x5a ∨ 0x30 ≤ b ∧ b ≤ 0x39

/-- `shouldEscape`, for paths. -/
def shouldEscape (b : UInt8) : Bool :=
  if isAlnum b ∨ b ∈ lit "-_.~" then false
  else if b ∈ lit "$&+,/:;=?@" then b = question
  else true

/-- The escape sequence of a byte. -/
def escapeByte (b : UInt8) : List UInt8 :=
  [percent, upperHex (b >>> 4), upperHex (b &&& 15)]

/-- `escape`, for paths. -/
def escape (s : List UInt8) : List UInt8 :=
  s.flatMap (fun b => if shouldEscape b then escapeByte b else [b])

/-- `validEncoded`, for paths. -/
def validEncoded (s : List UInt8) : Bool :=
  s.all (fun b => b ∈ lit "!$&'()*+,;=:@[]%" ∨ ¬ shouldEscape b)

/-- What can be checked for the numbers below 256 holds for every byte. -/
theorem forall_byte {P : UInt8 → Prop} (h : ∀ n : Fin 256, P (UInt8.ofNat n)) (b : UInt8) :
  P b
  := by
  have := h ⟨b.toNat, b.toNat_lt⟩
  rwa [UInt8.ofNat_toNat] at this

theorem unescape_cons_of_ne {b : UInt8} (h : b ≠ percent) (s : List UInt8) :
  unescape (b :: s) = (unescape s).map (b :: ·)
  := by
  rw [unescape.eq_def]
  simp only [if_neg h]

/-- An escape sequence stands for its byte. -/
theorem unescape_escapeByte (b : UInt8) :
  unescape (escapeByte b) = some [b]
  := by
  revert b
  apply forall_byte
  decide +kernel

variable {s p e : List UInt8} {elems es : List (List UInt8)} {P : List UInt8 → Prop}

theorem unescape_append {a : List UInt8} (hs : unescape s = some a) (t : List UInt8) :
  unescape (s ++ t) = (unescape t).map (a ++ ·)
  := by
  fun_induction unescape s generalizing a with
  | case1 =>
    cases hs
    simp
  | case2 h l s hhex ih =>
    obtain ⟨a', ha', rfl⟩ := Option.map_eq_some_iff.mp hs
    rw [cons_append, cons_append, cons_append, unescape, if_pos rfl]
    simp only [hhex, and_self, if_true, ih ha', Option.map_map]
    rfl
  | case3 => cases hs
  | case4 => cases hs
  | case5 b s hb ih =>
    obtain ⟨a', ha', rfl⟩ := Option.map_eq_some_iff.mp hs
    rw [cons_append, unescape_cons_of_ne hb, ih ha', Option.map_map]
    rfl

theorem isSome_unescape_append (hs : (unescape s).isSome) (t : List UInt8) :
  (unescape (s ++ t)).isSome = (unescape t).isSome
  := by
  obtain ⟨a, ha⟩ := Option.isSome_iff_exists.mp hs
  rw [unescape_append ha, Option.isSome_map]

/-- A slash is not part of an escape sequence. -/
theorem isSome_unescape_slash {t : List UInt8} :
  (unescape (s ++ slash :: t)).isSome ↔ (unescape s).isSome ∧ (unescape t).isSome
  := by
  have hslash : (unescape (slash :: t)).isSome = (unescape t).isSome := by
    rw [unescape_cons_of_ne (by decide), Option.isSome_map]
  constructor
  · intro h
    have hs : (unescape s).isSome := by
      fun_induction unescape s with
      | case1 => rfl
      | case2 h' l s hhex ih =>
        rw [cons_append, cons_append, cons_append, unescape, if_pos rfl] at h
        simp only [hhex, and_self, if_true, Option.isSome_map] at h ⊢
        exact ih h
      | case3 h' l s hhex =>
        rw [cons_append, cons_append, cons_append, unescape, if_pos rfl] at h
        simp only [if_neg hhex] at h
        cases h
      | case4 s hs =>
        match s with
        | [] =>
          cases t with
          | nil => simp [unescape] at h
          | cons c t =>
            have hhex : ¬ isHex slash := by decide
            simp [unescape, hhex] at h
        | [c] =>
          have hhex : ¬ isHex slash := by decide
          simp [unescape, hhex] at h
        | c :: d :: s => exact absurd rfl (hs c d s)
      | case5 b s hb ih =>
        rw [cons_append, unescape_cons_of_ne hb, Option.isSome_map] at h
        rw [Option.isSome_map]
        exact ih h
    exact ⟨hs, by rwa [isSome_unescape_append hs, hslash] at h⟩
  · rintro ⟨hs, ht⟩
    rwa [isSome_unescape_append hs, hslash]

/-- What is encoded byte by byte is decoded if each byte is. -/
theorem unescape_flatMap {encode : UInt8 → List UInt8} (h : ∀ b, unescape (encode b) = some [b])
    (s : List UInt8) :
  unescape (s.flatMap encode) = some s
  := by
  induction s with
  | nil => rfl
  | cons b s ih =>
    rw [flatMap_cons, unescape_append (h b), ih]
    rfl

theorem unescape_escape (s : List UInt8) :
  unescape (escape s) = some s
  := by
  apply unescape_flatMap
  apply forall_byte
  decide +kernel

theorem validEncoded_append (s t : List UInt8) :
  validEncoded (s ++ t) ↔ validEncoded s ∧ validEncoded t
  := by
  simp [validEncoded]

theorem validEncoded_flatMap {encode : UInt8 → List UInt8} (h : ∀ b, validEncoded (encode b))
    (s : List UInt8) :
  validEncoded (s.flatMap encode)
  := by
  induction s with
  | nil => rfl
  | cons b s ih =>
    rw [flatMap_cons, validEncoded_append]
    exact ⟨h b, ih⟩

theorem validEncoded_escape (s : List UInt8) :
  validEncoded (escape s)
  := by
  apply validEncoded_flatMap
  apply forall_byte
  decide +kernel

/-! ### Cleaning -/

/-- `strings.Join`, with a slash. -/
def joinSlash (elems : List (List UInt8)) : List UInt8 := [slash].intercalate elems

def dot : List UInt8 := lit "."
def dotDot : List UInt8 := lit ".."

/-- Adds an element to those of a path that begins with a slash. -/
def cleanStep (elems : List (List UInt8)) (e : List UInt8) : List (List UInt8) :=
  if e = [] ∨ e = dot then elems
  else if e = dotDot then elems.dropLast
  else elems ++ [e]

/-- The elements that are left of a path. -/
def cleanElems (p : List UInt8) : List (List UInt8) := (p.splitOn slash).foldl cleanStep []

/-- `path.Clean`, for a path that begins with a slash. -/
def clean (p : List UInt8) : List UInt8 := slash :: joinSlash (cleanElems p)

/-- Elements that cleaning leaves as they are. -/
def Proper (elems : List (List UInt8)) : Prop :=
  ∀ e ∈ elems, e ≠ [] ∧ e ≠ dot ∧ e ≠ dotDot ∧ slash ∉ e

theorem Proper.nil : Proper [] := fun _ h => absurd h List.not_mem_nil

theorem Proper.append {l m : List (List UInt8)} (hl : Proper l) (hm : Proper m) :
  Proper (l ++ m)
  := by
  intro e he
  rcases mem_append.mp he with he | he
  · exact hl e he
  · exact hm e he

theorem joinSlash_cons (e : List UInt8) (h : elems ≠ []) :
  joinSlash (e :: elems) = e ++ slash :: joinSlash elems
  := by
  obtain ⟨next, rest, rfl⟩ := exists_cons_of_ne_nil h
  rw [joinSlash, intercalate_cons_cons, joinSlash]
  simp

/-- What holds of both parts of a path at every slash holds of its elements, which have no slash. -/
theorem splitOn_induction (h : ∀ s t, P (s ++ slash :: t) → P s ∧ P t) (hp : P p) :
  ∀ e ∈ p.splitOn slash, P e ∧ slash ∉ e
  := by
  induction hn : p.length using Nat.strong_induction_on generalizing p with
  | _ n ih =>
    intro e he
    by_cases hmem : slash ∈ p
    · obtain ⟨s, t, rfl⟩ := append_of_mem hmem
      rw [splitOn_append_cons_self, mem_append] at he
      rw [length_append, length_cons] at hn
      obtain ⟨hs, ht⟩ := h s t hp
      rcases he with he | he
      · exact ih s.length (by omega) hs rfl e he
      · exact ih t.length (by omega) ht rfl e he
    · rw [splitOn_eq_singleton hmem, mem_singleton] at he
      subst he
      exact ⟨hp, hmem⟩

theorem slash_not_mem_of_mem_splitOn (h : e ∈ p.splitOn slash) :
  slash ∉ e
  := (splitOn_induction (fun _ _ (_ : True) => ⟨trivial, trivial⟩) trivial e h).2

theorem proper_foldl_cleanStep (hes : ∀ e ∈ es, slash ∉ e) (h : Proper elems) :
  Proper (es.foldl cleanStep elems)
  := by
  induction es generalizing elems with
  | nil => exact h
  | cons e es ih =>
    apply ih (fun x hx => hes x (by simp [hx]))
    rw [cleanStep]
    split
    · exact h
    split
    · exact fun x hx => h x (mem_of_mem_dropLast hx)
    rename_i h₁ h₂
    simp only [not_or] at h₁
    apply h.append
    intro x hx
    rw [mem_singleton.mp hx]
    exact ⟨h₁.1, h₁.2, h₂, hes e (by simp)⟩

theorem proper_cleanElems (p : List UInt8) :
  Proper (cleanElems p)
  := proper_foldl_cleanStep (fun _ => slash_not_mem_of_mem_splitOn) Proper.nil

/-- Proper elements are added as they are. -/
theorem foldl_cleanStep_of_proper (h : Proper es) (elems : List (List UInt8)) :
  es.foldl cleanStep elems = elems ++ es
  := by
  induction es generalizing elems with
  | nil => simp
  | cons e es ih =>
    obtain ⟨h₁, h₂, h₃, -⟩ := h e (by simp)
    rw [foldl_cons, cleanStep, if_neg (by simp [h₁, h₂]), if_neg h₃,
      ih (fun x hx => h x (by simp [hx])), append_assoc]
    rfl

/-- Elements that are proper are those of the path they make, with a slash at its end or without. -/
theorem cleanElems_join (h : Proper elems) {tail : List UInt8}
    (htail : tail = [] ∨ tail = [slash]) :
  cleanElems (slash :: joinSlash elems ++ tail) = elems
  := by
  have hsplit : (slash :: joinSlash elems).splitOn slash = [] :: elems ∨ elems = [] := by
    by_cases hnil : elems = []
    · exact .inr hnil
    left
    have := splitOn_append_cons_self (a := slash) [] (joinSlash elems)
    rw [nil_append] at this
    rw [this, joinSlash, splitOn_intercalate slash (fun e he => (h e he).2.2.2) hnil]
    rfl
  have hfold : ((slash :: joinSlash elems).splitOn slash).foldl cleanStep [] = elems := by
    rcases hsplit with hsplit | rfl
    · rw [hsplit, foldl_cons, cleanStep, if_pos (.inl rfl), foldl_cleanStep_of_proper h, nil_append]
    · decide
  rcases htail with rfl | rfl
  · rw [append_nil, cleanElems, hfold]
  · rw [cleanElems, splitOn_append_cons_self, foldl_append, hfold]
    rfl

/-- What holds of the parts of a path that are joined by slashes holds of the path. -/
theorem joinSlash_induction (hnil : P []) (happend : ∀ s t, P s → P t → P (s ++ slash :: t))
    (h : ∀ e ∈ elems, P e) :
  P (joinSlash elems)
  := by
  induction elems with
  | nil => exact hnil
  | cons e elems ih =>
    by_cases hnil' : elems = []
    · subst hnil'
      simpa [joinSlash] using h e (by simp)
    · rw [joinSlash_cons e hnil']
      exact happend _ _ (h e (by simp)) (ih (fun x hx => h x (by simp [hx])))

theorem mem_of_mem_foldl_cleanStep (h : e ∈ es.foldl cleanStep elems) :
  e ∈ elems ∨ e ∈ es
  := by
  induction es generalizing elems with
  | nil => exact .inl h
  | cons x es ih =>
    rcases ih h with h | h
    · rw [cleanStep] at h
      split at h
      · exact .inl h
      split at h
      · exact .inl (mem_of_mem_dropLast h)
      rcases mem_append.mp h with h | h
      · exact .inl h
      · rw [mem_singleton.mp h]
        exact .inr (by simp)
    · exact .inr (by simp [h])

end GoRt
