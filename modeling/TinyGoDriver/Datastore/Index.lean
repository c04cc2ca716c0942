import TinyGoDriver.Go.SortStrings
import TinyGoDriver.Go.UrlPath
import TinyGoDriver.Lib.Search

/-!
# `MarshalIndexYAML`

Indexes are sorted by their kind and then by what `String` makes of them.  That is meant for people:
a comma in the name of a property, or a name that ends like a direction, gives two different indexes
the same string, and the order in which these are written is then that of the input.

The main result is `marshalIndexYAML_perm_iff`: the order of the input is not seen if and only if no
two different indexes have the same string.  What is written can be read back in one way only, so
that such indexes do show in which order they came.
-/

namespace Datastore

open GoRt List

/-- `Direction`, which may be any string. -/
inductive Direction where
  | unset
  | ascending
  | descending
  | other (text : List UInt8)
  deriving DecidableEq

structure IndexProperty where
  name : List UInt8
  direction : Direction := .unset
  deriving DecidableEq

structure Index where
  kind : List UInt8
  ancestor : Bool := false
  properties : List IndexProperty
  deriving DecidableEq

/-- The errors of `Valid`. -/
inductive IndexErr where
  /-- `ErrEmptyIndex` -/
  | empty
  /-- `ErrEmptyIndex`: "a property has no name" -/
  | noName
  | unknownDirection (d : Direction)
  | twice (name : List UInt8)
  deriving DecidableEq

/-- The loop of `Valid` over the properties. -/
def validFrom (seen : List (List UInt8)) : List IndexProperty → Option IndexErr
  | [] => none
  | p :: ps =>
    if p.name = [] then some .noName
    else match p.direction with
    | .other _ => some (.unknownDirection p.direction)
    | _ => if seen.contains p.name then some (.twice p.name) else validFrom (p.name :: seen) ps

def Index.valid (i : Index) : Option IndexErr :=
  if i.kind = [] ∨ i.properties = [] then some .empty else validFrom [] i.properties

/-- A property in `String`. -/
def IndexProperty.text (p : IndexProperty) : List UInt8 :=
  p.name ++ if p.direction = .descending then lit " desc" else []

def Index.string (i : Index) : List UInt8 :=
  i.kind ++ ((if i.ancestor then lit " (ancestor)" else []) ++ (lit ": "
    ++ (lit ", ").intercalate (i.properties.map IndexProperty.text)))

/-- What the sort compares, the kind first. -/
def Index.key (i : Index) : List UInt8 × List UInt8 := (i.kind, i.string)

abbrev Index.NotAfter : Index → Index → Prop :=
  Order.Preimage Index.key (Prod.Lex (· < ·) (· ≤ ·))

/-- The bytes of a plain scalar, from the second one on or from the first. -/
def isPlain (inner : Bool) (c : UInt8) : Bool :=
  (0x61 ≤ c && c ≤ 0x7a) || (0x41 ≤ c && c ≤ 0x5a) || c == 0x5f
    || inner && ((0x30 ≤ c && c ≤ 0x39) || c == 0x2e || c == 0x2d)

def escape (s : List UInt8) : List UInt8 :=
  s.flatMap fun c => if c = 0x5c ∨ c = 0x22 then [0x5c, c] else [c]

/-- `yamlScalar`; a byte that is not ASCII is part of a character that is not plain. -/
def yamlScalar (s : List UInt8) : List UInt8 :=
  if s = [] then lit "\"\""
  else if s.head?.all (isPlain false) && s.tail.all (isPlain true) then s
  else 0x22 :: (escape s ++ [0x22])

/-- What is written for a property. -/
def IndexProperty.yaml (p : IndexProperty) : List UInt8 :=
  lit "  - name: " ++ (yamlScalar p.name ++ (lit "\n"
    ++ if p.direction = .descending then lit "    direction: desc\n" else []))

/-- What is written for an index. -/
def Index.yaml (i : Index) : List UInt8 :=
  lit "- kind: " ++ (yamlScalar i.kind ++ (lit "\n  ancestor: "
    ++ ((if i.ancestor then lit "yes\n" else lit "no\n") ++ (lit "  properties:\n"
    ++ i.properties.flatMap IndexProperty.yaml))))

/-- `MarshalIndexYAML`; `sort.SliceStable` is a stable sort, as `insertionSort` is. -/
def marshalIndexYAML (indexes : List Index) : Except IndexErr (List UInt8) :=
  match indexes.findSome? Index.valid with
  | some e => .error e
  | none => .ok (lit "indexes:\n" ++ (indexes.insertionSort Index.NotAfter).flatMap Index.yaml)

theorem key_antisymm {a b : List UInt8 × List UInt8} (hab : Prod.Lex (· < ·) (· ≤ ·) a b)
    (hba : Prod.Lex (· < ·) (· ≤ ·) b a) :
  a = b
  := by
  rw [Prod.lex_def] at hab hba
  rcases hab with hlt | ⟨heq, hle⟩
  · rcases hba with hlt' | ⟨heq, -⟩
    · exact absurd hlt' (List.lt_asymm hlt)
    · exact absurd hlt (heq ▸ List.lt_irrefl _)
  rcases hba with hlt' | ⟨-, hle'⟩
  · exact absurd hlt' (heq ▸ List.lt_irrefl _)
  · exact Prod.ext heq (List.le_antisymm hle hle')

/-! ### Reading back -/

def IndexProperty.content (p : IndexProperty) : List UInt8 × Bool :=
  (p.name, p.direction = .descending)

/-- What an index says; no direction is the ascending one. -/
def Index.content (i : Index) : List UInt8 × Bool × List (List UInt8 × Bool) :=
  (i.kind, i.ancestor, i.properties.map IndexProperty.content)

variable {s t u v : List UInt8}

theorem escape_inj (h : escape s ++ 0x22 :: u = escape t ++ 0x22 :: v) :
  s = t ∧ u = v
  := by
  have hcons : ∀ c s, escape (c :: s)
      = (if c = 0x5c ∨ c = 0x22 then [0x5c, c] else [c]) ++ escape s := fun _ _ => rfl
  induction s generalizing t with
  | nil =>
    cases t with
    | nil => exact ⟨rfl, (cons.inj h).2⟩
    | cons d t =>
      rw [hcons] at h
      split at h <;> simp_all [escape]
  | cons c s ih =>
    cases t with
    | nil =>
      rw [hcons] at h
      split at h <;> simp_all [escape]
    | cons d t =>
      rw [hcons, hcons, append_assoc, append_assoc] at h
      have hhead : c = d ∧ escape s ++ 0x22 :: u = escape t ++ 0x22 :: v := by
        split at h <;> split at h <;> simp_all
      obtain ⟨rfl, hrest⟩ := hhead
      obtain ⟨rfl, huv⟩ := ih hrest
      exact ⟨rfl, huv⟩

/-- A scalar is plain, or quoted. -/
theorem yamlScalar_cases (s : List UInt8) :
  (yamlScalar s = s ∧ s ≠ [] ∧ ∀ c ∈ s, c ≠ 0x0a ∧ c ≠ 0x22)
    ∨ yamlScalar s = 0x22 :: (escape s ++ [0x22])
  := by
  have hplain : ∀ {inner c}, isPlain inner c = true → c ≠ 0x0a ∧ c ≠ 0x22 := by
    intro inner c h
    constructor <;> rintro rfl <;> cases inner <;> revert h <;> decide
  rw [yamlScalar]
  split
  · rename_i hs
    subst hs
    exact .inr rfl
  rename_i hs
  split
  · rename_i h
    refine .inl ⟨rfl, hs, fun c hc => ?_⟩
    obtain ⟨a, s, rfl⟩ := exists_cons_of_ne_nil hs
    simp only [head?_cons, Option.all_some, tail_cons, Bool.and_eq_true, all_eq_true] at h
    rcases mem_cons.mp hc with rfl | hc
    · exact hplain h.1
    · exact hplain (h.2 c hc)
  · exact .inr rfl

theorem yamlScalar_inj (h : yamlScalar s ++ 0x0a :: u = yamlScalar t ++ 0x0a :: v) :
  s = t ∧ u = v
  := by
  -- a plain scalar does not begin with a quote
  have hquote : ∀ {s u v : List UInt8}, s ≠ [] → (∀ c ∈ s, c ≠ 0x0a ∧ c ≠ 0x22) →
      s ++ u ≠ 0x22 :: v := by
    intro s u v hs hplain h
    obtain ⟨a, s, rfl⟩ := exists_cons_of_ne_nil hs
    exact (hplain a (by simp)).2 (cons.inj h).1
  rcases yamlScalar_cases s with ⟨hs, hne, hplain⟩ | hs
    <;> rcases yamlScalar_cases t with ⟨ht, hne', hplain'⟩ | ht <;> rw [hs, ht] at h
  · have hcut := congrArg (Search.cut 0x0a) h
    rw [Search.cut_append (fun hc => (hplain _ hc).1 rfl),
      Search.cut_append (fun hc => (hplain' _ hc).1 rfl)] at hcut
    simpa using hcut
  · exact absurd h (hquote hne hplain)
  · exact absurd h.symm (hquote hne' hplain')
  · simp only [cons_append, append_assoc, cons.injEq, true_and, nil_append] at h
    obtain ⟨rfl, huv⟩ := escape_inj h
    exact ⟨rfl, (cons.inj huv).2⟩

/-- Where the properties of an index end. -/
def AtIndex (x : List UInt8) : Prop := x = [] ∨ ∃ z, x = lit "- kind: " ++ z

theorem atIndex_yaml (l : List Index) :
  AtIndex (l.flatMap Index.yaml)
  := by
  cases l with
  | nil => exact .inl rfl
  | cons i l =>
    rw [flatMap_cons, Index.yaml, append_assoc]
    exact .inr ⟨_, rfl⟩

variable {x y : List UInt8}

theorem properties_inj {ps qs : List IndexProperty} (hx : AtIndex x) (hy : AtIndex y)
    (h : ps.flatMap IndexProperty.yaml ++ x = qs.flatMap IndexProperty.yaml ++ y) :
  ps.map IndexProperty.content = qs.map IndexProperty.content ∧ x = y
  := by
  have hcons : ∀ p (ps : List IndexProperty) x, (p :: ps).flatMap IndexProperty.yaml ++ x
      = lit "  - name: " ++ (yamlScalar p.name ++ 0x0a ::
        ((if p.direction = .descending then lit "    direction: desc\n" else [])
          ++ (ps.flatMap IndexProperty.yaml ++ x))) := by
    intro p ps x
    have hnl : lit "\n" = [0x0a] := by decide
    rw [flatMap_cons, IndexProperty.yaml, hnl]
    simp only [append_assoc, cons_append, nil_append]
  -- neither a property nor the next index begins like a direction
  have hnext : ∀ {ps : List IndexProperty} {x z}, AtIndex x →
      ps.flatMap IndexProperty.yaml ++ x ≠ lit "    direction: desc\n" ++ z := by
    intro ps x z hx h
    have hthird := congrArg (fun l : List UInt8 => l[2]?) h
    cases ps with
    | nil => rcases hx with rfl | ⟨z, rfl⟩ <;> simp [lit] at hthird
    | cons p ps =>
      rw [hcons] at hthird
      simp [lit] at hthird
  have hend : ∀ {p ps x} {y : List UInt8}, AtIndex y →
      (p :: ps).flatMap IndexProperty.yaml ++ x ≠ y := by
    intro p ps x y hy h
    have hhead := congrArg List.head? h
    rw [hcons] at hhead
    rcases hy with rfl | ⟨z, rfl⟩ <;> simp [lit] at hhead
  induction ps generalizing qs with
  | nil =>
    cases qs with
    | nil => exact ⟨rfl, h⟩
    | cons q qs => exact absurd h.symm (hend hx)
  | cons p ps ih =>
    cases qs with
    | nil => exact absurd h (hend hy)
    | cons q qs =>
      rw [hcons, hcons, append_cancel_left_eq] at h
      obtain ⟨hname, hrest⟩ := yamlScalar_inj h
      have hboth : (p.direction = .descending ↔ q.direction = .descending)
          ∧ ps.flatMap IndexProperty.yaml ++ x = qs.flatMap IndexProperty.yaml ++ y := by
        split at hrest <;> split at hrest
        · exact ⟨by simp [*], append_cancel_left hrest⟩
        · exact absurd hrest.symm (hnext hy)
        · exact absurd hrest (hnext hx)
        · exact ⟨by simp [*], hrest⟩
      obtain ⟨hmap, hxy⟩ := ih hboth.2
      rw [map_cons, map_cons, hmap, IndexProperty.content, IndexProperty.content, hname,
        decide_eq_decide.mpr hboth.1]
      exact ⟨rfl, hxy⟩

/-- Of an index its content can be read. -/
theorem content_eq_of_yaml {i j : Index} (hx : AtIndex x) (hy : AtIndex y)
    (h : i.yaml ++ x = j.yaml ++ y) :
  i.content = j.content
  := by
  have hnl : lit "\n  ancestor: " = 0x0a :: lit "  ancestor: " := by decide
  rw [Index.yaml, Index.yaml, hnl] at h
  simp only [append_assoc, append_cancel_left_eq, cons_append] at h
  obtain ⟨hkind, hrest⟩ := yamlScalar_inj h
  have hanc : i.ancestor = j.ancestor := by
    cases hi : i.ancestor <;> cases hj : j.ancestor <;> simp [hi, hj, lit] at hrest ⊢
  rw [hanc] at hrest
  simp only [append_cancel_left_eq] at hrest
  rw [Index.content, Index.content, hkind, hanc, (properties_inj hx hy hrest).1]

/-- Nothing else is written. -/
theorem yaml_eq_of_content {i j : Index} (h : i.content = j.content) :
  i.yaml = j.yaml
  := by
  obtain ⟨hkind, hanc, hprops⟩ := by simpa only [Index.content, Prod.mk.injEq] using h
  have hyaml : ∀ ps : List IndexProperty, ps.flatMap IndexProperty.yaml
      = (ps.map IndexProperty.content).flatMap fun c => lit "  - name: " ++ (yamlScalar c.1
        ++ (lit "\n" ++ if c.2 then lit "    direction: desc\n" else [])) := by
    intro ps
    rw [flatMap_map]
    exact flatMap_congr fun p _ => by simp [IndexProperty.yaml, IndexProperty.content]
  rw [Index.yaml, Index.yaml, hkind, hanc, hyaml, hyaml, hprops]

/-! ### The order of the input -/

/-- What is compared as equal stays in the order in which it came. -/
theorem orderedInsert_pair {α : Type*} {r : α → α → Prop} [DecidableRel r] {i j : α}
    (hiff : ∀ k, r i k ↔ r j k) (hj : r j j) (hi : r i i) (l : List α) :
  ∃ before after, orderedInsert r i (orderedInsert r j l) = before ++ i :: j :: after
    ∧ orderedInsert r j (orderedInsert r i l) = before ++ j :: i :: after
  := by
  have hij := (hiff j).mpr hj
  have hji := (hiff i).mp hi
  induction l with
  | nil => exact ⟨[], [], by simp [hij], by simp [hji]⟩
  | cons k l ih =>
    by_cases hk : r j k
    · have hk' := (hiff k).mpr hk
      exact ⟨[], k :: l, by simp [hij, hk], by simp [hji, hk']⟩
    · have hk' := mt (hiff k).mp hk
      obtain ⟨before, after, hl, hl'⟩ := ih
      exact ⟨k :: before, after, by simp [hk, hk', hl], by simp [hk, hk', hl']⟩

theorem marshalIndexYAML_valid {l : List Index} (h : ∀ i ∈ l, i.valid = none) :
  marshalIndexYAML l
    = .ok (lit "indexes:\n" ++ (l.insertionSort Index.NotAfter).flatMap Index.yaml)
  := by
  rw [marshalIndexYAML, findSome?_eq_none_iff.mpr h]

/-- There is an error, whichever index it names. -/
theorem marshalIndexYAML_invalid {l : List Index} (h : ∃ i ∈ l, i.valid ≠ none) :
  (marshalIndexYAML l).toOption = none
  := by
  obtain ⟨i, hi, hinvalid⟩ := h
  rw [marshalIndexYAML]
  cases hsome : l.findSome? Index.valid with
  | some e => rfl
  | none => exact absurd (findSome?_eq_none_iff.mp hsome i hi) hinvalid

/-- Where indexes that are compared as equal have the same content, what is written in sorted order
does not depend on the order before. -/
theorem yaml_insertionSort_perm {l l' : List Index} (hperm : l.Perm l')
    (hcontent : ∀ i ∈ l, ∀ j ∈ l, i.key = j.key → i.content = j.content) :
  (l.insertionSort Index.NotAfter).flatMap Index.yaml
    = (l'.insertionSort Index.NotAfter).flatMap Index.yaml
  := by
  -- The lists of what is compared and written are sorted, which is possible in one way only.
  have hsorted : ∀ l : List Index, ((l.insertionSort Index.NotAfter).map
      fun i => (i.key, i.yaml)).Pairwise fun a b => Prod.Lex (· < ·) (· ≤ ·) a.1 b.1 :=
    fun l => pairwise_map.mpr (pairwise_insertionSort Index.NotAfter l)
  have htell : (l.insertionSort Index.NotAfter).map (fun i => (i.key, i.yaml))
      = (l'.insertionSort Index.NotAfter).map fun i => (i.key, i.yaml) := by
    apply List.Perm.eq_of_pairwise _ (hsorted l) (hsorted l')
    · apply List.Perm.map
      exact (perm_insertionSort _ l).trans (hperm.trans (perm_insertionSort _ l').symm)
    intro a b ha hb hab hba
    obtain ⟨i, hi, rfl⟩ := mem_map.mp ha
    obtain ⟨j, hj, rfl⟩ := mem_map.mp hb
    rw [mem_insertionSort] at hi hj
    have hkey := key_antisymm hab hba
    exact Prod.ext hkey (yaml_eq_of_content (hcontent i hi j (hperm.mem_iff.mpr hj) hkey))
  have hyaml := congrArg (map Prod.snd) htell
  rw [map_map, map_map] at hyaml
  rw [flatMap_def, flatMap_def]
  exact congrArg flatten hyaml

/-- The bytes are the same for every order of the input if and only if an index is not valid, when
there are none, or every two indexes that are compared as equal have the same content. -/
theorem marshalIndexYAML_perm_iff (l : List Index) :
  (∀ l', l.Perm l' → (marshalIndexYAML l).toOption = (marshalIndexYAML l').toOption)
    ↔ (∃ i ∈ l, i.valid ≠ none) ∨ ∀ i ∈ l, ∀ j ∈ l, i.key = j.key → i.content = j.content
  := by
  by_cases hinvalid : ∃ i ∈ l, i.valid ≠ none
  · refine iff_of_true (fun l' hperm => ?_) (.inl hinvalid)
    obtain ⟨i, hi, h⟩ := hinvalid
    rw [marshalIndexYAML_invalid ⟨i, hi, h⟩, marshalIndexYAML_invalid ⟨i, hperm.mem_iff.mp hi, h⟩]
  have hvalid : ∀ {l'}, l.Perm l' → ∀ i ∈ l', i.valid = none := fun hperm i hi => by
    by_contra h
    exact hinvalid ⟨i, hperm.mem_iff.mpr hi, h⟩
  simp only [hinvalid, false_or]
  constructor
  · intro h i hi j hj hkey
    by_contra hne
    have hij : i ≠ j := fun hij => hne (congrArg _ hij)
    -- `i` and `j` at the head of the input, in both orders
    have hperm := (perm_cons_erase hi).trans
      ((perm_cons_erase ((mem_erase_of_ne hij.symm).mpr hj)).cons i)
    have hself : ∀ k, Index.NotAfter k k := fun k => .right _ (List.le_refl _)
    obtain ⟨before, after, hsort, hsort'⟩ := orderedInsert_pair (r := Index.NotAfter)
      (fun k => by unfold Index.NotAfter Order.Preimage; rw [hkey]) (hself j) (hself i)
      (((l.erase i).erase j).insertionSort Index.NotAfter)
    have hswap := hperm.trans (.swap ..)
    have heq := (h _ hperm).symm.trans (h _ hswap)
    rw [marshalIndexYAML_valid (hvalid hperm), marshalIndexYAML_valid (hvalid hswap),
      insertionSort_cons, insertionSort_cons, insertionSort_cons, insertionSort_cons, hsort,
      hsort'] at heq
    simp only [Except.toOption, Option.some.injEq, append_cancel_left_eq, flatMap_append,
      flatMap_cons] at heq
    exact hne (content_eq_of_yaml (atIndex_yaml (j :: after)) (atIndex_yaml (i :: after)) heq)
  · intro hcontent l' hperm
    rw [marshalIndexYAML_valid (hvalid (.refl _)), marshalIndexYAML_valid (hvalid hperm),
      yaml_insertionSort_perm hperm hcontent]

/-- An index on `a` and `b` and one on the property `a, b`. -/
theorem marshalIndexYAML_comma :
  let one : Index := ⟨lit "K", false, [⟨lit "a, b", .unset⟩]⟩
  let two : Index := ⟨lit "K", false, [⟨lit "a", .unset⟩, ⟨lit "b", .unset⟩]⟩
  marshalIndexYAML [one, two] ≠ marshalIndexYAML [two, one]
  := by decide

end Datastore
