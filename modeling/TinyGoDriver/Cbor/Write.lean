import TinyGoDriver.Cbor.Encoder

/-!
# What an encoder writes

A `Write` is a call of one of the writing methods of `Encoder`, and `Encoder.emit` the item that it
builds.  `WriteTag`, `WriteArray` and `WriteMap` validate their children one by one, each as if it
stood alone, so that an item can be written whose children lie one level too deep for `WriteRaw`.

`Write.children` are the items handed to a write.  `Encoder.emit_spells` says which tree is written:
its root is in deterministic form and its children are the ones validated.  What `WriteRaw` demands
of the whole is then what `validateRaw` demands of each child with one level less.
-/

namespace Cbor

open GoRt Ieee DeterministicParser List Item Encoder

/-! ### Writes -/

def appendHead (dst : List UInt8) (major n : ℕ) : List UInt8 :=
  if n < 24 then
    dst ++ [UInt8.ofNat (major * 32 + n)]
  else if n ≤ 0xff then
    dst ++ UInt8.ofNat (major * 32 + 24) :: beBytes 1 n
  else if n ≤ 0xffff then
    dst ++ UInt8.ofNat (major * 32 + 25) :: beBytes 2 n
  else if n ≤ 0xffffffff then
    dst ++ UInt8.ofNat (major * 32 + 26) :: beBytes 4 n
  else
    dst ++ UInt8.ofNat (major * 32 + 27) :: beBytes 8 n

structure MapEntry where
  key : Slice
  value : Slice

/-- A call that writes one item. -/
inductive Write where
  /-- `WriteUint` -/
  | uint (v : UInt64)
  /-- `WriteInt` -/
  | int (v : Int64)
  /-- `WriteBytes` -/
  | bytes (v : Slice)
  /-- `WriteText` -/
  | text (v : Slice)
  /-- `WriteBool` -/
  | bool (v : Bool)
  /-- `WriteNull` -/
  | null
  /-- `WriteFloat`, of the `float64` with these bits -/
  | float (v : UInt64)
  /-- `WriteTag` -/
  | tag (tag : UInt64) (content : Slice)
  /-- `WriteRaw` -/
  | raw (raw : Slice)
  /-- `WriteArray` -/
  | array (items : List Slice)
  /-- `WriteMap` -/
  | map (entries : List MapEntry)

/-- The items that a write puts below the one it writes. -/
def Write.children : Write → List Slice
  | .tag _ content => [content]
  | .array items => items
  | .map entries => entries.flatMap fun e => [e.key, e.value]
  | _ => []

/-- Why a write fails. -/
inductive WriteErr where
  /-- an error of `validateRaw` -/
  | invalid (e : Err)
  /-- `ErrLimitExceeded`, `byte string` -/
  | byteString
  /-- `ErrLimitExceeded`, `text string` -/
  | textString
  /-- `ErrMalformed`, `invalid UTF-8` -/
  | invalidUtf8
  /-- `ErrLimitExceeded`, `array items` -/
  | arrayItems
  /-- `ErrLimitExceeded`, `map pairs` -/
  | mapPairs
  /-- `cbor: map key: %w` -/
  | mapKey (e : Err)
  /-- `cbor: map value: %w` -/
  | mapValue (e : Err)
  /-- `ErrDuplicateMapKey` -/
  | duplicateMapKey
  deriving DecidableEq, Repr

namespace Encoder

/-- The item in the buffer; `append` panics where it would grow beyond what an `int` counts. -/
def built (b : List UInt8) : Go WriteErr Slice :=
  if h : b.length < maxSliceLen then .ok ⟨b, h⟩ else .error .panic

/-- `validateRaw`, with its error wrapped by `f`. -/
def validateWith (f : Err → WriteErr) (o : EncoderLimits) (raw : Slice) : Go WriteErr Unit :=
  match validateRaw o raw with
  | .ok () => .ok ()
  | .error e => .error (e.map f)

/-- What `WriteMap` validates of an entry. -/
def validateEntry (o : EncoderLimits) (e : MapEntry) : Go WriteErr Unit := do
  validateWith .mapKey o e.key
  validateWith .mapValue o e.value

/-- `slices.SortFunc` by key.  Which of two entries with one key comes first does not matter:
`WriteMap` refuses both. -/
def sortEntries (order : KeyOrder) (entries : List MapEntry) : List MapEntry :=
  entries.mergeSort fun a b => order.compare a.key.bytes b.key.bytes != .gt

/-- `bytes.Equal(ordered[i-1].Key, ordered[i].Key)` for some `i` -/
def hasDuplicate : List MapEntry → Bool
  | a :: b :: l => a.key.bytes == b.key.bytes || hasDuplicate (b :: l)
  | _ => false

/-- The item that a write builds. -/
def emit (o : EncoderLimits) : Write → Go WriteErr Slice
  | .uint v => built (appendHead [] 0 v.toNat)
  | .int v =>
    if 0 ≤ v.toInt then
      built (appendHead [] 0 v.toInt.toNat)
    else
      built (appendHead [] 1 (-(v.toInt + 1)).toNat)
  | .bytes v =>
    if o.maxStringBytes < v.bytes.length then
      .error (.fail .byteString)
    else
      built (appendHead [] 2 v.bytes.length ++ v.bytes)
  | .text v =>
    if utf8Valid v.bytes = false then
      .error (.fail .invalidUtf8)
    else if o.maxStringBytes < v.bytes.length then
      .error (.fail .textString)
    else
      built (appendHead [] 3 v.bytes.length ++ v.bytes)
  | .bool v => built [if v then 0xf5 else 0xf4]
  | .null => built [0xf6]
  | .float v => built (appendFloat [] v.toNat)
  | .tag tag content => do
    validateWith .invalid o content
    built (appendHead [] 6 tag.toNat ++ content.bytes)
  | .raw raw => do
    validateWith .invalid o raw
    pure raw
  | .array items =>
    if o.maxContainerItems < items.length then
      .error (.fail .arrayItems)
    else do
      forM items (validateWith .invalid o)
      built (appendHead [] 4 items.length ++ items.flatMap Slice.bytes)
  | .map entries =>
    if o.maxContainerItems < entries.length then
      .error (.fail .mapPairs)
    else do
      forM entries (validateEntry o)
      let ordered := sortEntries o.keyOrder entries
      if hasDuplicate ordered then
        .error (.fail .duplicateMapKey)
      else
        built (appendHead [] 5 ordered.length
          ++ ordered.flatMap fun e => e.key.bytes ++ e.value.bytes)

/-- A call of a writing method. -/
def perform (w : Write) : GoM WriteErr Encoder Unit := do
  let e ← get
  let item ← GoM.call (emit e.opts w)
  modify fun e => { e with written := e.written ++ item.bytes }

end Encoder

/-! ### Heads -/

/-- The shortest spelling of an argument. -/
def Arg.shortest (n : ℕ) (h : n < 2 ^ 64) : Arg where
  ai := if n < 24 then n else if n ≤ 0xff then 24 else if n ≤ 0xffff then 25
    else if n ≤ 0xffffffff then 26 else 27
  val := n
  fits := by
    rw [ArgFits, argWidth]
    split_ifs <;> simp <;> omega

variable {n v : ℕ} {a b : List UInt8} {raw : Slice} {i : Item} {o : EncoderLimits} {w : Write}

theorem appendHead_eq (dst : List UInt8) (major : ℕ) (h : n < 2 ^ 64) :
  appendHead dst major n = dst ++ ((Arg.shortest n h).head major).bytes
  := by
  rw [appendHead, Head.bytes]
  simp only [Arg.head, Arg.shortest]
  split_ifs with h0 h1 h2 h3
  · have : argWidth n = 0 := by
      rw [argWidth, if_neg (by omega)]
    rw [this]
    rfl
  all_goals rfl

theorem permitsHead_shortest (h : n < 2 ^ 64) (major : ℕ) :
  PermitsHead ((Arg.shortest n h).head major)
  := by
  refine permitsHead_arg.mpr fun _ => ?_
  rw [nonMinimal_eq_false]
  simp only [Arg.shortest]
  split_ifs <;> omega

/-! ### Floats -/

theorem singleOfFloat64_lt (hv : v < 2 ^ 64) (hn : isNaN v = false) :
  singleOfFloat64 v < 2 ^ 32
  := by
  have hle := Format.convert_le (g := Format.single) hn
  have hinf : Format.single.inf < 2 ^ 31 := by decide
  change singleOfFloat64 v ≤ v / 2 ^ 63 * 2 ^ 31 + Format.single.inf at hle
  omega

/-- Floats that are equal are the same or zeros. -/
theorem eq_or_zero_of_same {w : ℕ} (h : Format.double.same v w = true) :
  v = w ∨ (v % 2 ^ 63 = 0 ∧ w % 2 ^ 63 = 0)
  := by
  have hsign : Format.double.signBit = 2 ^ 63 := rfl
  simp only [Format.same, hsign, Bool.and_eq_true, Bool.or_eq_true, beq_iff_eq] at h
  exact h.2

theorem not_isNaN_of_same {w : ℕ} (h : Format.double.same v w = true) :
  isNaN v = false
  := by
  simp only [Format.same, Bool.and_eq_true, Bool.not_eq_true'] at h
  exact h.1.1

/-- The half that `exactHalf` finds. -/
theorem exactHalf_spec {h : ℕ} (hv : v < 2 ^ 64) (hn : isNaN v = false)
    (hh : exactHalf v = some h) :
  h < 2 ^ 16 ∧ isNaN (float16 h) = false
  := by
  rw [exactHalf, if_neg (by simp [hn])] at hh
  have hb := singleOfFloat64_lt hv hn
  generalize singleOfFloat64 v = b at hb hh
  dsimp only at hh
  have hchecked : ∀ {h'}, exactHalf.checked v h' = some h →
      h = h' ∧ isNaN (float16 h') = false := by
    intro h' hc
    rw [exactHalf.checked] at hc
    split at hc
    · rename_i hsame
      exact ⟨(Option.some.inj hc).symm, not_isNaN_of_same hsame⟩
    · cases hc
  split at hh
  · rename_i hsame
    have hnan := not_isNaN_of_same hsame
    rw [isNaN_float64OfSingle, Format.isNaN_eq_false] at hnan
    change b % 2 ^ 31 ≤ 0x7f800000 at hnan
    have hhalf : isNaN (float16 h) = false ↔ h % 2 ^ 15 ≤ 0x7c00 := by
      rw [isNaN_float16, Format.isNaN_eq_false]
      rfl
    split_ifs at hh with h255 hmant h0 hmant hnormal hlow hsub hlow
    · rw [hhalf]
      have := Option.some.inj hh
      omega
    · omega
    · rw [hhalf]
      have := Option.some.inj hh
      omega
    · obtain ⟨rfl, hnot⟩ := hchecked hh
      exact ⟨by omega, hnot⟩
    · obtain ⟨rfl, hnot⟩ := hchecked hh
      have hshift : (b % 2 ^ 23 + 2 ^ 23) / 2 ^ (126 - b / 2 ^ 23 % 2 ^ 8)
          ≤ (b % 2 ^ 23 + 2 ^ 23) / 2 ^ 14 :=
        Nat.div_le_div_left (Nat.pow_le_pow_right (by decide) (by omega)) (by decide)
      exact ⟨by omega, hnot⟩
  · cases hh

theorem exactHalf_zero (hv : v < 2 ^ 64) (h : v % 2 ^ 63 = 0) :
  (exactHalf v).isSome = true
  := by
  obtain rfl | rfl : v = 0 ∨ v = 2 ^ 63 := by omega
  · decide
  · decide

/-- What `appendFloat` writes. -/
theorem appendFloat_spells (dst : List UInt8) (hv : v < 2 ^ 64) :
  ∃ a : Arg, appendFloat dst v = dst ++ (Item.simple a).bytes ∧ (Item.simple a).Shaped
    ∧ PermitsSimple a
  := by
  rw [appendFloat]
  by_cases hn : isNaN v = true
  · rw [if_pos hn]
    exact ⟨⟨25, 0x7e00, by decide⟩, rfl, by simp [Item.Shaped], by simp [PermitsSimple]⟩
  rw [if_neg hn]
  rw [Bool.not_eq_true] at hn
  cases hhalf : exactHalf v with
  | some h =>
    obtain ⟨hlt, hnot⟩ := exactHalf_spec hv hn hhalf
    refine ⟨⟨25, h, .inr ⟨by decide, by decide, hlt⟩⟩, rfl, by simp [Item.Shaped], ?_⟩
    simp [PermitsSimple, hnot]
  | none =>
    by_cases hsame : Format.double.same (float64OfSingle (singleOfFloat64 v)) v = true
    · rw [if_pos hsame]
      have hlong : exactHalf (float64OfSingle (singleOfFloat64 v)) = none := by
        -- a zero would have been a half
        rcases eq_or_zero_of_same hsame with heq | ⟨-, hzero⟩
        · rw [heq, hhalf]
        have := exactHalf_zero hv hzero
        rw [hhalf] at this
        exact absurd this (by decide)
      exact ⟨⟨26, singleOfFloat64 v, .inr ⟨by decide, by decide, singleOfFloat64_lt hv hn⟩⟩, rfl,
        by simp [Item.Shaped], by simp, fun _ => ⟨not_isNaN_of_same hsame, hlong⟩, by simp⟩
    · rw [if_neg hsame]
      exact ⟨⟨27, v, .inr ⟨by decide, by decide, hv⟩⟩, rfl, by simp [Item.Shaped], by simp,
        by simp, fun _ => ⟨hn, Bool.not_eq_true _ ▸ hsame⟩⟩

/-! ### Sorting -/

theorem compare_eq {o : KeyOrder} (h : o.compare a b = .eq) :
  a = b
  := by
  cases o with
  | lengthFirst =>
    rw [KeyOrder.compare, Ordering.then_eq_eq] at h
    exact Std.LawfulEqCmp.eq_of_compare h.2
  | bytewise =>
    rw [KeyOrder.compare] at h
    exact Std.LawfulEqCmp.eq_of_compare h

theorem compare_gt {o : KeyOrder} (h : o.compare a b = .gt) :
  o.Before b a
  := by
  cases o with
  | lengthFirst =>
    rw [KeyOrder.compare, Ordering.then_eq_gt, Nat.compare_eq_gt, Nat.compare_eq_eq] at h
    rw [before_lengthFirst]
    rcases h with h | ⟨h, h'⟩
    · exact .inl h
    · exact .inr ⟨h.symm, Std.OrientedCmp.gt_iff_lt.mp h'⟩
  | bytewise =>
    rw [before_bytewise]
    exact Std.OrientedCmp.gt_iff_lt.mp h

theorem compare_ne_gt {o : KeyOrder} :
  (o.compare a b != .gt) = true ↔ o.Before a b ∨ a = b
  := by
  constructor
  · intro h
    cases hab : o.compare a b with
    | lt => exact .inl hab
    | eq => exact .inr (compare_eq hab)
    | gt => simp [hab] at h
  · intro h
    rw [bne_iff_ne]
    intro hgt
    rcases h with h | rfl
    · exact h.asymm (compare_gt hgt)
    · exact KeyOrder.Before.irrefl o a (compare_gt hgt)

namespace Encoder

theorem sortEntries_perm (order : KeyOrder) (entries : List MapEntry) :
  (sortEntries order entries).Perm entries
  := mergeSort_perm _ _

/-- After sorting, keys that stand next to each other are in order or equal. -/
theorem sorted_sortEntries (order : KeyOrder) (entries : List MapEntry) :
  (sortEntries order entries).Pairwise
    fun a b => order.Before a.key.bytes b.key.bytes ∨ a.key.bytes = b.key.bytes
  := by
  have hsorted := @pairwise_mergeSort MapEntry
    (fun a b => order.compare a.key.bytes b.key.bytes != .gt) (fun a b c hab hbc => ?_)
    (fun a b => ?_) entries
  · exact hsorted.imp compare_ne_gt.mp
  · rw [compare_ne_gt] at *
    rcases hab with hab | hab <;> rcases hbc with hbc | hbc
    · exact .inl (hab.trans hbc)
    · exact .inl (hbc ▸ hab)
    · exact .inl (hab ▸ hbc)
    · exact .inr (hab.trans hbc)
  · rw [Bool.or_eq_true, compare_ne_gt, compare_ne_gt]
    cases hab : order.compare a.key.bytes b.key.bytes with
    | lt => exact .inl (.inl hab)
    | eq => exact .inl (.inr (compare_eq hab))
    | gt => exact .inr (.inl (compare_gt hab))

/-- Without duplicates, sorted entries have their keys in strict order. -/
theorem before_of_sorted {order : KeyOrder} {l : List MapEntry}
    (hsorted : l.Pairwise
      fun a b => order.Before a.key.bytes b.key.bytes ∨ a.key.bytes = b.key.bytes)
    (hdup : hasDuplicate l = false) :
  l.Pairwise fun a b => order.Before a.key.bytes b.key.bytes
  := by
  induction l with
  | nil => exact .nil
  | cons a l ih =>
    obtain ⟨ha, hl⟩ := pairwise_cons.mp hsorted
    cases l with
    | nil => simp
    | cons b l =>
      rw [hasDuplicate, Bool.or_eq_false_iff, beq_eq_false_iff_ne] at hdup
      have hab := (ha b (by simp)).resolve_right hdup.1
      have hrest := ih hl hdup.2
      refine pairwise_cons.mpr ⟨fun c hc => ?_, hrest⟩
      rcases mem_cons.mp hc with rfl | hc
      · exact hab
      · exact hab.trans ((pairwise_cons.mp hrest).1 c hc)

theorem validateWith_eq_ok {f : Err → WriteErr} {o : EncoderLimits} :
  validateWith f o raw = .ok () ↔ validateRaw o raw = .ok ()
  := by
  rw [validateWith]
  cases validateRaw o raw with
  | ok u => simp
  | error e => simp

theorem validateEntry_eq_ok {o : EncoderLimits} {e : MapEntry} (h : validateEntry o e = .ok ()) :
  validateRaw o e.key = .ok () ∧ validateRaw o e.value = .ok ()
  := by
  rw [validateEntry] at h
  obtain ⟨_, hkey, h⟩ := bind_eq_ok h
  exact ⟨validateWith_eq_ok.mp hkey, validateWith_eq_ok.mp h⟩

theorem built_eq_ok {item : Slice} (h : built b = .ok item) :
  item.bytes = b
  := by
  rw [built] at h
  split at h
  · rw [← Except.ok.inj h]
  · cases h

end Encoder

/-! ### The tree that is written -/

/-- The same limits with one level less. -/
def EncoderLimits.below (o : EncoderLimits) : EncoderLimits :=
  { o with maxNestedLevels := o.maxNestedLevels - 1 }

/-- One level down, an item has to do with one level less. -/
theorem all_permits_below (ho : 0 < o.maxNestedLevels) (i : Item) (d : ℕ) :
  i.All deeper (Permits o) (d + 1) ↔ i.All deeper (Permits o.below) d
  := by
  induction i using induction_children generalizing d with
  | step i ih =>
    have hnode : Permits o (d + 1) i ↔ Permits o.below d i := by
      have hlevel : d + 1 < o.maxNestedLevels ↔ d < o.maxNestedLevels - 1 := by omega
      cases i <;> simp only [Permits, PermitsNode, EncoderLimits.below, hlevel]
    rw [all_iff, all_iff, hnode]
    exact and_congr_right fun _ => forall₂_congr fun j hj => ih j hj (d + 1)

/-- `raw` is the spelling of `i`, which `validateRaw` accepts. -/
def Validated (o : EncoderLimits) (raw : Slice) (i : Item) : Prop :=
  raw.bytes = i.bytes ∧ i.All deeper (Permits o) 0

/-- Whether an item is accepted one level down can be seen from its spelling. -/
theorem Validated.below_iff (ho : 0 < o.maxNestedLevels) (h : Validated o raw i) :
  Encoder.validateRaw o.below raw = .ok () ↔ i.All deeper (Permits o) 1
  := by
  rw [validateRaw_eq_ok, all_permits_below ho]
  constructor
  · rintro ⟨j, hbytes, hj⟩
    obtain rfl := eq_of_bytes_eq (h.2.formed fun _ _ h => h.1) (hj.formed fun _ _ h => h.1)
      (h.1.symm.trans hbytes)
    exact hj
  · exact fun hi => ⟨i, h.1, hi⟩

theorem exists_validated (h : Encoder.validateRaw o raw = .ok ()) :
  ∃ i, Validated o raw i
  := (validateRaw_eq_ok o raw).mp h

/-- `l` spells an item below which the items `children` stand; it is accepted if each of them is one
level down. -/
def Emits (o : EncoderLimits) (children : List Slice) (l : List UInt8) : Prop :=
  ∃ i : Item, l = i.bytes ∧ i.Formed
    ∧ (i.All deeper (Permits o) 0 ↔ ∀ c ∈ children, Encoder.validateRaw o.below c = .ok ())

theorem exists_items {children : List Slice}
    (h : ∀ c ∈ children, Encoder.validateRaw o c = .ok ()) :
  ∃ f : Slice → Item, ∀ c ∈ children, Validated o c (f c)
  := by
  have hex : ∀ c : Slice, ∃ i : Item, c ∈ children → Validated o c i := by
    intro c
    by_cases hc : c ∈ children
    · obtain ⟨i, hi⟩ := exists_validated (h c hc)
      exact ⟨i, fun _ => hi⟩
    · exact ⟨.number false ⟨0, 0, by decide⟩, fun h => absurd h hc⟩
  choose f hf using hex
  exact ⟨f, hf⟩

section Emits

variable {o : EncoderLimits} (ho : 0 < o.maxNestedLevels)
include ho

/-- A node in deterministic form over validated children. -/
theorem Emits.node {children : List Slice} (hi : Permits o 0 i) {f : Slice → Item}
    (hf : ∀ c ∈ children, Validated o c (f c))
    (hmem : ∀ j, j ∈ i.children ↔ ∃ c ∈ children, f c = j) :
  Emits o children i.bytes
  := by
  refine ⟨i, rfl, ?_, ?_⟩
  · refine formed_iff.mpr ⟨hi.1, fun j hj => ?_⟩
    obtain ⟨c, hc, rfl⟩ := (hmem j).mp hj
    exact (hf c hc).2.formed fun _ _ h => h.1
  constructor
  · rintro ⟨-, hbelow⟩ c hc
    exact ((hf c hc).below_iff ho).mpr (hbelow _ ((hmem _).mpr ⟨c, hc, rfl⟩))
  · refine fun h => ⟨hi, fun j hj => ?_⟩
    obtain ⟨c, hc, rfl⟩ := (hmem j).mp hj
    exact ((hf c hc).below_iff ho).mp (h c hc)

theorem Emits.leaf (hi : Permits o 0 i) (hchildren : i.children = []) :
  Emits o [] i.bytes
  := Emits.node ho hi (f := fun _ => i) (by simp) (by simp [hchildren])

theorem emits_number (negative : Bool) (h : n < 2 ^ 64) :
  Emits o [] (appendHead [] (if negative then 1 else 0) n)
  := by
  rw [appendHead_eq _ _ h]
  refine Emits.leaf ho (i := .number negative (.shortest n h)) ?_ rfl
  exact ⟨trivial, permitsHead_shortest h _, trivial⟩

theorem emits_string (text : Bool) {v : Slice} (hlen : v.bytes.length ≤ o.maxStringBytes)
    (hutf8 : text = true → utf8Valid v.bytes = true) :
  Emits o [] (appendHead [] (if text then 3 else 2) v.bytes.length ++ v.bytes)
  := by
  have h : v.bytes.length < 2 ^ 64 := lt_trans v.length_lt (by decide)
  rw [appendHead_eq _ _ h]
  refine Emits.leaf ho (i := .string text (.shortest _ h) v.bytes) ?_ rfl
  exact ⟨rfl, permitsHead_shortest h _, hlen, hutf8⟩

theorem emits_simple {a : Arg} (hshaped : (Item.simple a).Shaped) (ha : PermitsSimple a) :
  Emits o [] (Item.simple a).bytes
  := Emits.leaf ho ⟨hshaped, permitsHead_arg.mpr (by simp), ha⟩ rfl

theorem emits_tag (h : n < 2 ^ 64) {content : Slice}
    (hcontent : Encoder.validateRaw o content = .ok ()) :
  Emits o [content] (appendHead [] 6 n ++ content.bytes)
  := by
  obtain ⟨i, hi⟩ := exists_validated hcontent
  rw [appendHead_eq _ _ h, hi.1]
  refine Emits.node ho (i := .tagged (.shortest n h) i) ?_ (f := fun _ => i) (by simp [hi]) ?_
  · exact ⟨trivial, permitsHead_shortest h _, ho⟩
  · simp [children, eq_comm]

theorem emits_array {items : List Slice} (hlen : items.length ≤ o.maxContainerItems)
    (hlt : items.length < 2 ^ 64) (h : ∀ c ∈ items, Encoder.validateRaw o c = .ok ()) :
  Emits o items (appendHead [] 4 items.length ++ items.flatMap Slice.bytes)
  := by
  obtain ⟨f, hf⟩ := exists_items h
  have hbytes : items.flatMap Slice.bytes = bytesAll (items.map f) := by
    rw [bytesAll_eq, flatMap_map]
    exact flatMap_congr fun c hc => (hf c hc).1
  rw [appendHead_eq _ _ hlt, hbytes]
  refine Emits.node ho (i := .container false (.shortest _ hlt) (items.map f)) ?_ hf
    fun j => mem_map
  exact ⟨length_map _, permitsHead_shortest hlt _, ho, hlen, by simp⟩

theorem emits_map {entries ordered : List MapEntry} (hperm : ordered.Perm entries)
    (hlen : ordered.length ≤ o.maxContainerItems) (hlt : ordered.length < 2 ^ 64)
    (h : ∀ c ∈ (Write.map entries).children, Encoder.validateRaw o c = .ok ())
    (hsorted : ordered.Pairwise fun a b => o.keyOrder.Before a.key.bytes b.key.bytes) :
  Emits o (Write.map entries).children
    (appendHead [] 5 ordered.length ++ ordered.flatMap fun e => e.key.bytes ++ e.value.bytes)
  := by
  obtain ⟨f, hf⟩ := exists_items h
  have hchild : ∀ c, c ∈ (Write.map entries).children ↔ ∃ e ∈ ordered, c = e.key ∨ c = e.value := by
    simp [Write.children, hperm.mem_iff]
  have hkey : ∀ e ∈ ordered, Validated o e.key (f e.key) ∧ Validated o e.value (f e.value) :=
    fun e he => ⟨hf _ ((hchild _).mpr ⟨e, he, .inl rfl⟩), hf _ ((hchild _).mpr ⟨e, he, .inr rfl⟩)⟩
  let pairs := ordered.map fun e => (f e.key, f e.value)
  have hbytes : (ordered.flatMap fun e => e.key.bytes ++ e.value.bytes)
      = bytesAll (unpair pairs) := by
    rw [bytesAll_eq, unpair, flatMap_assoc, flatMap_map]
    refine flatMap_congr fun e he => ?_
    simp [(hkey e he).1.1, (hkey e he).2.1]
  have hkeys : (keysOf (unpair pairs)).map bytes = ordered.map (·.key.bytes) := by
    rw [keysOf, pairsOf_unpair, map_map, map_map]
    exact map_congr_left fun e he => (hkey e he).1.1.symm
  rw [appendHead_eq _ _ hlt, hbytes]
  refine Emits.node ho (i := .container true (.shortest _ hlt) (unpair pairs)) ?_ hf
    fun j => ?_
  · refine ⟨?_, permitsHead_shortest hlt _, ho, hlen, fun _ => ?_⟩
    · rw [Item.Shaped, length_unpair, length_map]
      rfl
    · rw [hkeys, pairwise_map]
      exact hsorted
  · simp only [children, unpair, pairs, flatMap_map, mem_flatMap, hchild]
    simp only [mem_cons, not_mem_nil, or_false]
    constructor
    · rintro ⟨e, he, rfl | rfl⟩
      · exact ⟨e.key, ⟨e, he, .inl rfl⟩, rfl⟩
      · exact ⟨e.value, ⟨e, he, .inr rfl⟩, rfl⟩
    · rintro ⟨c, ⟨e, he, rfl | rfl⟩, rfl⟩
      · exact ⟨e, he, .inl rfl⟩
      · exact ⟨e, he, .inr rfl⟩

end Emits

theorem forM_eq_ok {ε α : Type} {f : α → Go ε Unit} {l : List α} :
  forM l f = .ok () ↔ ∀ a ∈ l, f a = .ok ()
  := by
  induction l with
  | nil => exact iff_of_true rfl (by simp)
  | cons a l ih =>
    rw [forM_cons, forall_mem_cons]
    cases ha : f a with
    | error e => simp
    | ok u => simp [ih]

/-- Every write, if it succeeds, emits the spelling of an item over the children of the write. -/
theorem Encoder.emit_spells (ho : 0 < o.maxNestedLevels)
    (hcount : o.maxContainerItems ≤ maxSliceLen) {item : Slice} (h : Encoder.emit o w = .ok item) :
  Emits o w.children item.bytes
  := by
  have hlt : ∀ {n}, n ≤ o.maxContainerItems → n < 2 ^ 64 :=
    fun hn => lt_of_le_of_lt (hn.trans hcount) (by decide)
  cases w with
  | uint v =>
    rw [built_eq_ok h]
    exact emits_number ho false v.toNat_lt
  | int v =>
    have := v.toInt_lt
    have := v.le_toInt
    rw [emit] at h
    split at h
    · rw [built_eq_ok h]
      exact emits_number ho false (by omega)
    · rw [built_eq_ok h]
      exact emits_number ho true (by omega)
  | bytes v =>
    rw [emit] at h
    split at h
    · cases h
    · rw [built_eq_ok h]
      exact emits_string ho false (by omega) (by simp)
  | text v =>
    rw [emit] at h
    split at h
    · cases h
    rename_i hutf8
    split at h
    · cases h
    · rw [built_eq_ok h]
      exact emits_string ho true (by omega) fun _ => by simpa using hutf8
  | bool v =>
    rw [built_eq_ok h]
    cases v with
    | true =>
      exact emits_simple ho (a := ⟨21, 21, by decide⟩) (by simp [Item.Shaped])
        (by simp [PermitsSimple])
    | false =>
      exact emits_simple ho (a := ⟨20, 20, by decide⟩) (by simp [Item.Shaped])
        (by simp [PermitsSimple])
  | null =>
    rw [built_eq_ok h]
    exact emits_simple ho (a := ⟨22, 22, by decide⟩) (by simp [Item.Shaped])
      (by simp [PermitsSimple])
  | float v =>
    rw [built_eq_ok h]
    obtain ⟨a, hbytes, hshaped, ha⟩ := appendFloat_spells [] v.toNat_lt
    rw [hbytes]
    exact emits_simple ho hshaped ha
  | tag tag content =>
    rw [emit] at h
    obtain ⟨_, hcontent, h⟩ := bind_eq_ok h
    rw [built_eq_ok h]
    exact emits_tag ho tag.toNat_lt (validateWith_eq_ok.mp hcontent)
  | raw raw =>
    rw [emit] at h
    obtain ⟨_, hraw, h⟩ := bind_eq_ok h
    cases h
    obtain ⟨i, hi⟩ := exists_validated (validateWith_eq_ok.mp hraw)
    exact ⟨i, hi.1, hi.2.formed fun _ _ h => h.1, iff_of_true hi.2 (by simp [Write.children])⟩
  | array items =>
    rw [emit] at h
    split at h
    · cases h
    rename_i hlen
    rw [not_lt] at hlen
    obtain ⟨_, hitems, h⟩ := bind_eq_ok h
    rw [built_eq_ok h]
    refine emits_array ho hlen (hlt hlen) fun c hc => ?_
    exact validateWith_eq_ok.mp (forM_eq_ok.mp hitems c hc)
  | map entries =>
    rw [emit] at h
    split at h
    · cases h
    rename_i hlen
    rw [not_lt, ← (sortEntries_perm o.keyOrder entries).length_eq] at hlen
    obtain ⟨_, hentries, h⟩ := bind_eq_ok h
    dsimp only at h
    split at h
    · cases h
    rename_i hdup
    rw [built_eq_ok h]
    refine emits_map ho (sortEntries_perm _ _) hlen (hlt hlen) (fun c hc => ?_)
      (before_of_sorted (sorted_sortEntries _ _) (by simpa using hdup))
    obtain ⟨e, he, hc⟩ := mem_flatMap.mp hc
    have hentry := validateEntry_eq_ok (forM_eq_ok.mp hentries e he)
    simp only [mem_cons, not_mem_nil, or_false] at hc
    rcases hc with rfl | rfl
    · exact hentry.1
    · exact hentry.2

theorem Encoder.perform_apply (w : Write) (e : Encoder) :
  Encoder.perform w e = match Encoder.emit e.opts w with
    | .ok item => .ok () { e with written := e.written ++ item.bytes }
    | .error err => .error err e
  := by
  rw [perform, GoM.get_bind]
  cases emit e.opts w <;> rfl

theorem Encoder.perform_eq_ok {e e' : Encoder} (h : Encoder.perform w e = .ok () e') :
  ∃ item, Encoder.emit e.opts w = .ok item ∧ e' = { e with written := e.written ++ item.bytes }
  := by
  rw [perform_apply] at h
  cases hemit : emit e.opts w with
  | error err => simp [hemit] at h
  | ok item =>
    simp only [hemit, EStateM.Result.ok.injEq, true_and] at h
    exact ⟨item, rfl, h.symm⟩

/-- The limits of a new encoder. -/
theorem newEncoder_limits {opts : EncoderOptions} {e : Encoder} (h : newEncoder opts = .ok e) :
  0 < e.opts.maxNestedLevels ∧ e.opts.maxContainerItems ≤ maxSliceLen
  := by
  rw [newEncoder] at h
  split at h
  · cases h
  cases h
  refine ⟨?_, orDefault_le _ (by decide)⟩
  change 0 < orDefault opts.maxNestedLevels 10000
  rw [orDefault]
  split
  · decide
  rename_i hneg hzero
  have hne : opts.maxNestedLevels.toInt ≠ 0 := fun h => hzero (Int64.toInt_inj.mp h)
  have hle : 0 ≤ opts.maxNestedLevels.toInt := by
    have hnot : ¬ opts.maxNestedLevels < 0 := fun h => hneg (.inl h)
    rwa [Int64.not_lt, Int64.le_iff_toInt_le] at hnot
  omega

/-- The encoder that made a write takes the item in `WriteRaw` if each child of the write would be
taken by an encoder with one level less. -/
theorem written_accepted_iff (opts : EncoderOptions) (e₀ e e' : Encoder) (w : Write) (item : Slice)
    (hnew : newEncoder opts = .ok e₀) (hopts : e.opts = e₀.opts)
    (hwrite : Encoder.perform w e = .ok () e') (hitem : e'.written = e.written ++ item.bytes) :
  (∃ e'', Encoder.writeRaw item e' = .ok () e'')
    ↔ ∀ c ∈ w.children, Encoder.validateRaw e.opts.below c = .ok ()
  := by
  obtain ⟨hlevels, hcount⟩ := newEncoder_limits hnew
  rw [← hopts] at hlevels hcount
  obtain ⟨item', hemit, rfl⟩ := perform_eq_ok hwrite
  have hbytes : item.bytes = item'.bytes := (append_cancel_left hitem).symm
  obtain ⟨i, hi, hformed, hiff⟩ := emit_spells hlevels hcount hemit
  simp only [writeRaw_eq_ok, exists_and_left, exists_eq, and_true, ← hiff]
  rw [validateRaw_eq_ok, hbytes, hi]
  constructor
  · rintro ⟨j, hj, hall⟩
    rwa [eq_of_bytes_eq hformed (hall.formed fun _ _ h => h.1) hj]
  · exact fun hall => ⟨i, rfl, hall⟩

/-- An array in an array, written by an encoder with one level, and refused by it. -/
theorem array_written_refused :
  let opts : EncoderOptions := ⟨1, 0, 0, .lengthFirst⟩
  let inner : Slice := ⟨[0x80], by decide⟩
  let outer : Slice := ⟨[0x81, 0x80], by decide⟩
  ∃ e e', newEncoder opts = .ok e ∧ Encoder.perform (.array [inner]) e = .ok () e'
    ∧ e'.written = e.written ++ outer.bytes
    ∧ Encoder.writeRaw outer e' = .error (.fail (.limitExceeded .nestingDepth)) e'
  := ⟨_, _, rfl, rfl, by decide +kernel, by rfl⟩

/-- The empty array in a tag, by an encoder with two levels. -/
theorem written_accepted_iff_tag :
  let opts : EncoderOptions := ⟨2, 0, 0, .lengthFirst⟩
  let inner : Slice := ⟨[0x80], by decide⟩
  let outer : Slice := ⟨[0xc1, 0x80], by decide⟩
  ∃ e e', newEncoder opts = .ok e ∧ Encoder.perform (.tag 1 inner) e = .ok () e'
    ∧ ((∃ e'', Encoder.writeRaw outer e' = .ok () e'')
      ↔ ∀ c ∈ (Write.tag 1 inner).children, Encoder.validateRaw e.opts.below c = .ok ())
  := ⟨_, _, rfl, rfl, written_accepted_iff ⟨2, 0, 0, .lengthFirst⟩ _ _ _ (.tag 1 _) _ rfl rfl rfl
    (by decide +kernel)⟩

/-! ### The order of entries -/

namespace Encoder

theorem hasDuplicate_of_nodup {l : List MapEntry} (h : (l.map fun e => e.key.bytes).Nodup) :
  hasDuplicate l = false
  := by
  fun_induction hasDuplicate l with
  | case1 a b l ih =>
    obtain ⟨ha, hl⟩ := nodup_cons.mp h
    rw [ih hl, Bool.or_false, beq_eq_false_iff_ne]
    exact fun heq => ha (by simp [heq])
  | case2 => rfl

theorem hasDuplicate_sortEntries (order : KeyOrder) (entries : List MapEntry) :
  hasDuplicate (sortEntries order entries) = false ↔ (entries.map fun e => e.key.bytes).Nodup
  := by
  rw [← ((sortEntries_perm order entries).map _).nodup_iff]
  constructor
  · intro h
    refine pairwise_map.mpr ((before_of_sorted (sorted_sortEntries _ _) h).imp ?_)
    exact fun hab heq => KeyOrder.Before.irrefl order _ (heq ▸ hab)
  · exact hasDuplicate_of_nodup

/-- Entries with different keys can be sorted in one way only. -/
theorem sortEntries_eq (order : KeyOrder) {entries entries' : List MapEntry}
    (hperm : entries'.Perm entries) (hnodup : (entries.map fun e => e.key.bytes).Nodup) :
  sortEntries order entries' = sortEntries order entries
  := by
  have hnodup' := (hperm.map fun e => e.key.bytes).nodup_iff.mpr hnodup
  refine List.Perm.eq_of_pairwise (fun a b _ _ hab hba => absurd hba hab.asymm)
    (before_of_sorted (sorted_sortEntries order _) ((hasDuplicate_sortEntries order _).mpr hnodup'))
    (before_of_sorted (sorted_sortEntries order _) ((hasDuplicate_sortEntries order _).mpr hnodup))
    ?_
  exact ((sortEntries_perm _ _).trans hperm).trans (sortEntries_perm _ _).symm

theorem emit_map {o : EncoderLimits} {entries : List MapEntry}
    (hlen : entries.length ≤ o.maxContainerItems)
    (hvalid : ∀ e ∈ entries, validateEntry o e = .ok ()) :
  emit o (.map entries) = if hasDuplicate (sortEntries o.keyOrder entries) then
      .error (.fail .duplicateMapKey)
    else
      built (appendHead [] 5 (sortEntries o.keyOrder entries).length
        ++ (sortEntries o.keyOrder entries).flatMap fun e => e.key.bytes ++ e.value.bytes)
  := by
  rw [emit, if_neg hlen.not_gt, forM_eq_ok.mpr hvalid, ok_bind]

end Encoder

/-- The entries that `WriteMap` takes may come in any order.  If two of them have the same key they
are refused; else they are written with their keys in strict order, unless there is too much of them
for a slice. -/
theorem writeMap_perm (e : Encoder) (entries entries' : List MapEntry)
    (hlen : entries.length ≤ e.opts.maxContainerItems)
    (hvalid : ∀ m ∈ entries, Encoder.validateEntry e.opts m = .ok ())
    (hperm : entries'.Perm entries) :
  Encoder.perform (.map entries') e = Encoder.perform (.map entries) e
  ∧ (Encoder.perform (.map entries) e = .error (.fail .duplicateMapKey) e
    ↔ ¬ (entries.map fun m => m.key.bytes).Nodup)
  ∧ ((entries.map fun m => m.key.bytes).Nodup →
    (appendHead [] 5 entries.length
      ++ entries.flatMap fun m => m.key.bytes ++ m.value.bytes).length < maxSliceLen →
    ∃ ordered : List MapEntry,
      ordered.Perm entries ∧ (ordered.map fun m => m.key.bytes).Pairwise e.opts.keyOrder.Before
      ∧ Encoder.perform (.map entries) e = .ok () { e with
        written := e.written ++ (appendHead [] 5 ordered.length
          ++ ordered.flatMap fun m => m.key.bytes ++ m.value.bytes) })
  := by
  have hemit := emit_map hlen hvalid
  have hemit' := emit_map (hperm.length_eq ▸ hlen) fun m hm =>
    hvalid m (hperm.mem_iff.mp hm)
  have hkeys := hasDuplicate_sortEntries e.opts.keyOrder entries
  have hkeys' := hasDuplicate_sortEntries e.opts.keyOrder entries'
  rw [(hperm.map fun m => m.key.bytes).nodup_iff] at hkeys'
  by_cases hnodup : (entries.map fun m => m.key.bytes).Nodup
  · rw [hkeys.mpr hnodup, if_neg (by simp)] at hemit
    rw [hkeys'.mpr hnodup, if_neg (by simp), sortEntries_eq _ hperm hnodup, ← hemit] at hemit'
    refine ⟨?_, iff_of_false (fun h => ?_) (not_not.mpr hnodup), fun _ hsize => ?_⟩
    · rw [perform_apply, perform_apply, hemit']
    · rw [perform_apply, hemit, built] at h
      split_ifs at h
      simp at h
    · have hsorted := sortEntries_perm e.opts.keyOrder entries
      have hbytes := (hsorted.flatMap_right fun m => m.key.bytes ++ m.value.bytes).length_eq
      refine ⟨_, hsorted, pairwise_map.mpr (before_of_sorted
        (sorted_sortEntries e.opts.keyOrder entries) (hkeys.mpr hnodup)), ?_⟩
      rw [length_append, ← hbytes, ← hsorted.length_eq, ← length_append] at hsize
      rw [perform_apply, hemit, built, dif_pos hsize]
  · rw [if_pos (by simpa using mt hkeys.mp hnodup)] at hemit
    rw [if_pos (by simpa using mt hkeys'.mp hnodup)] at hemit'
    rw [perform_apply, perform_apply, hemit', hemit]
    exact ⟨rfl, iff_of_true rfl hnodup, fun h => absurd h hnodup⟩

/-- An entry with a number as its key. -/
def entryOf (key : UInt8) : MapEntry := ⟨⟨[key], by simp [maxSliceLen]⟩, ⟨[0], by decide⟩⟩

/-- Two entries in the wrong order, and one of them twice. -/
theorem writeMap_perm_swap :
  ∃ e, newEncoder ⟨0, 0, 0, .lengthFirst⟩ = .ok e
    ∧ Encoder.perform (.map [entryOf 2, entryOf 1]) e
      = .ok () { e with written := [0xa2, 1, 0, 2, 0] }
    ∧ Encoder.perform (.map [entryOf 1, entryOf 2, entryOf 1]) e
      = .error (.fail .duplicateMapKey) e
  := by
  refine ⟨_, rfl, ?_, ?_⟩
  · have hmap := writeMap_perm ⟨⟨orDefault 0 10000, orDefault 0 4096, orDefault 0 (2 ^ 20),
      .lengthFirst, by decide⟩, []⟩ [entryOf 1, entryOf 2] _ (by decide) (fun m hm => ?_)
      (.swap _ _ [])
    · obtain ⟨ordered, hperm, hsorted, hok⟩ := hmap.2.2 (by decide) (by decide)
      have heq : ordered = [entryOf 1, entryOf 2] := hperm.eq_of_pairwise
        (fun _ _ _ _ h h' => absurd h' h.asymm) (pairwise_map.mp hsorted) (by decide)
      rw [heq] at hok
      exact hmap.1.trans hok
    · rcases mem_pair.mp hm with rfl | rfl <;> rfl
  · refine (writeMap_perm _ _ _ (by decide) (fun m hm => ?_) (.refl _)).2.1.mpr (by decide)
    simp only [mem_cons, not_mem_nil, or_false] at hm
    rcases hm with rfl | rfl | rfl <;> rfl

/-! ### A sequence of items -/

/-- What a writing method adds, unless it fails. -/
def EncoderLimits.adds (o : EncoderLimits) (w : Write) : Option (List UInt8) :=
  match Encoder.emit o w with
  | .ok item => some item.bytes
  | .error _ => none

section Writer

-- A writer takes the first bytes of what it is given, as many as it says, and returns an error or
-- not.  Its answer depends on its state, which it changes.
variable {σ : Type} (wr : σ → List UInt8 → ℕ × Bool × σ)

/-- `Encoder.write`: whether it succeeds, and what the writer has taken. -/
def Encoder.writeTo : σ → List UInt8 → Bool × List UInt8 × σ
  | s, [] => (true, [], s)
  | s, b :: p =>
    match wr s (b :: p) with
    | (n, true, s) => (false, (b :: p).take n, s)
    | (0, false, s) => (false, [], s)
    | (n + 1, false, s) =>
      let (ok, taken, s) := writeTo s (p.drop n)
      (ok, b :: p.take n ++ taken, s)
termination_by _ p => p.length
decreasing_by
  rw [length_drop, length_cons]
  omega

/-- Calls of writing methods: whether each succeeds, and what it has the writer take. -/
def EncoderLimits.calls (o : EncoderLimits) : List Write → σ → List (Bool × List UInt8)
  | [], _ => []
  | w :: ws, s =>
    match o.adds w with
    | none => (false, []) :: o.calls ws s
    | some p =>
      let (ok, taken, s) := Encoder.writeTo wr s p
      (ok, taken) :: o.calls ws s

/-- The writer takes a beginning of what is to be written, and all of it if no error comes up. -/
theorem Encoder.writeTo_taken (s : σ) (p : List UInt8) :
  (writeTo wr s p).2.1 <+: p ∧ ((writeTo wr s p).1 = true → (writeTo wr s p).2.1 = p)
  := by
  fun_induction writeTo wr s p with
  | case1 => simp
  | case2 =>
    refine ⟨?_, by simp⟩
    exact take_prefix _ _
  | case3 => simp
  | case4 s b p n s' hwr ok taken s'' hrest ih =>
    simp only [hrest] at ih
    dsimp only
    rw [cons_append, prefix_cons_inj]
    refine ⟨?_, fun hok => ?_⟩
    · conv_rhs => rw [← take_append_drop n p]
      exact (prefix_append_right_inj _).mpr ih.1
    · rw [ih.2 hok, take_append_drop]

/-- What a call adds is a beginning of its item, and the whole item if it succeeds. -/
theorem calls_taken (o : EncoderLimits) (ws : List Write) (s : σ) :
  Forall₂ (fun w c => c.2 <+: (o.adds w).getD [] ∧ (c.1 = true → o.adds w = some c.2)) ws
    (o.calls wr ws s)
  := by
  induction ws generalizing s with
  | nil => exact .nil
  | cons w ws ih =>
    rw [EncoderLimits.calls]
    cases hadds : o.adds w with
    | none => exact .cons (by simp [hadds]) (ih s)
    | some p =>
      obtain ⟨hpre, hall⟩ := Encoder.writeTo_taken wr s p
      refine .cons ?_ (ih _)
      rw [hadds, Option.getD_some]
      exact ⟨hpre, fun hok => by rw [hall hok]⟩

theorem flatten_calls {o : EncoderLimits} {ws : List Write} {cs : List (Bool × List UInt8)}
    (htaken : Forall₂ (fun w c => c.2 <+: (o.adds w).getD [] ∧ (c.1 = true → o.adds w = some c.2))
      ws cs)
    (hok : Forall₂ (fun w c => c.1 = true ∨ o.adds w = none) ws cs) :
  (cs.map Prod.snd).flatten = (ws.filterMap o.adds).flatten
  := by
  induction htaken with
  | nil => rfl
  | @cons w c ws cs hc htaken ih =>
    obtain ⟨hpre, hall⟩ := hc
    cases hok with
    | cons hok hrest =>
      rw [map_cons, flatten_cons, ih hrest, filterMap_cons]
      rcases hok with hok | hnone
      · rw [hall hok, flatten_cons]
      · rw [hnone] at hpre ⊢
        rw [prefix_nil.mp hpre, nil_append]

end Writer

/-- What is added one after the other is a sequence of items. -/
theorem exists_spelled {o : EncoderLimits} (ho : 0 < o.maxNestedLevels)
    (hcount : o.maxContainerItems ≤ maxSliceLen) (ws : List Write) :
  ∃ items : List Item, (∀ i ∈ items, i.Formed) ∧ items.map bytes = ws.filterMap o.adds
  := by
  induction ws with
  | nil => exact ⟨[], by simp, rfl⟩
  | cons w ws ih =>
    obtain ⟨items, hformed, hitems⟩ := ih
    rw [filterMap_cons, EncoderLimits.adds]
    cases hemit : Encoder.emit o w with
    | error err => exact ⟨items, hformed, hitems⟩
    | ok item =>
      obtain ⟨i, hi, hi', -⟩ := Encoder.emit_spells ho hcount hemit
      exact ⟨i :: items, forall_mem_cons.mpr ⟨hi', hformed⟩, by rw [map_cons, hitems, ← hi]⟩

/-- Whatever calls are made and whatever the writer answers, each call has added a beginning of the
item that it would add alone, all of it if it succeeds, and nothing if it fails by itself.  As long
as the writer does not fail, a sequence of items has been written, which can be read in one way
only: those of the calls that succeed. -/
theorem written_items {σ : Type} (wr : σ → List UInt8 → ℕ × Bool × σ) (s : σ)
    (opts : EncoderOptions) (e : Encoder) (ws : List Write) (hnew : newEncoder opts = .ok e) :
  Forall₂ (fun w c => c.2 <+: (e.opts.adds w).getD [] ∧ (c.1 = true → e.opts.adds w = some c.2))
      ws (e.opts.calls wr ws s)
    ∧ (Forall₂ (fun w c => c.1 = true ∨ e.opts.adds w = none) ws (e.opts.calls wr ws s) →
      ∃ items : List Item, (∀ i ∈ items, i.Formed) ∧ items.map bytes = ws.filterMap e.opts.adds
        ∧ ((e.opts.calls wr ws s).map Prod.snd).flatten = bytesAll items
        ∧ ∀ items' : List Item, (∀ i ∈ items', i.Formed) →
          ((e.opts.calls wr ws s).map Prod.snd).flatten = bytesAll items' → items' = items)
  := by
  obtain ⟨hlevels, hcount⟩ := newEncoder_limits hnew
  have htaken := calls_taken wr e.opts ws s
  refine ⟨htaken, fun hok => ?_⟩
  obtain ⟨items, hformed, hitems⟩ := exists_spelled hlevels hcount ws
  have hwritten : ((e.opts.calls wr ws s).map Prod.snd).flatten = bytesAll items := by
    rw [flatten_calls htaken hok, ← hitems, bytesAll_eq, flatMap_def]
  refine ⟨items, hformed, hitems, hwritten, fun items' hformed' h => ?_⟩
  rw [hwritten, bytesAll_eq, bytesAll_eq] at h
  refine (flatMap_inj (fun a ha b hb s s' => ?_) (.inr ?_) (congrArg (· ++ []) h.symm)).1
  · exact bytes_inj (hformed' a ha) (hformed b hb)
  · simp [bytes_ne_nil]

/-- A writer that takes one byte at a time. -/
def bytewise (_ : Unit) (_ : List UInt8) : ℕ × Bool × Unit := (1, false, ())

/-- `WriteRaw` of a break fails between two writes. -/
theorem written_items_null :
  let ws : List Write := [.uint 500, .raw ⟨[0xff], by decide⟩, .bool true]
  ∃ e items, newEncoder ⟨0, 0, 0, .lengthFirst⟩ = .ok e
    ∧ ((e.opts.calls bytewise ws ()).map Prod.snd).flatten = bytesAll items
    ∧ items.map bytes = [[0x19, 0x01, 0xf4], [0xf5]]
  := by
  obtain ⟨items, -, hitems, hwritten, -⟩ := (written_items bytewise () ⟨0, 0, 0, .lengthFirst⟩ _
    [.uint 500, .raw ⟨[0xff], by decide⟩, .bool true] rfl).2 (by
      refine .cons (.inl ?_) (.cons (.inr rfl) (.cons (.inl ?_) .nil))
      · change (Encoder.writeTo bytewise () [0x19, 0x01, 0xf4]).1 = true
        simp [Encoder.writeTo, bytewise]
      · change (Encoder.writeTo bytewise () [0xf5]).1 = true
        simp [Encoder.writeTo, bytewise])
  exact ⟨_, items, rfl, hwritten, hitems⟩

end Cbor
