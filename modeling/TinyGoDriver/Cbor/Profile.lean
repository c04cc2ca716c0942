import TinyGoDriver.Cbor.Reading

/-!
# Profiles

`Profile.Validate` walks one item and refuses what the profile does not permit.  Which items it
accepts is `Profile.Permits`, a condition on every node: `validate_eq_ok`.

The restrictions on maps are not the same for all maps.  `mapItem` looks at the keys of a map of
definite length; a map of indefinite length goes through `indefiniteContainer`, which looks at no
key.
-/

namespace Cbor

open GoRt List GoM Item Reads

structure Profile where
  name : List UInt8
  requireSortedKeys : Bool
  keyOrder : KeyOrder
  rejectMaps : Bool
  rejectTags : Bool
  rejectFloats : Bool
  rejectIndefinite : Bool
  rejectTextKeys : Bool
  deriving DecidableEq, Repr

namespace Profile

/-- `Profile{}` -/
def zero : Profile := ⟨[], false, .lengthFirst, false, false, false, false, false⟩

/-- `Canonical`, whose name is `canonical` -/
def canonical : Profile :=
  { zero with
    name := [0x63, 0x61, 0x6e, 0x6f, 0x6e, 0x69, 0x63, 0x61, 0x6c]
    requireSortedKeys := true
    keyOrder := .lengthFirst
    rejectIndefinite := true }

/-- `Deterministic`, whose name is `deterministic` -/
def deterministic : Profile :=
  { zero with
    name := [0x64, 0x65, 0x74, 0x65, 0x72, 0x6d, 0x69, 0x6e, 0x69, 0x73, 0x74, 0x69, 0x63]
    requireSortedKeys := true
    keyOrder := .bytewise
    rejectIndefinite := true }

def applyTo (p : Profile) (opts : DecoderOptions) : DecoderOptions :=
  if p.rejectFloats then { opts with rejectFloats := true } else opts

/-- `refuse`; a profile without a name is called `this`. -/
def refuse (p : Profile) (what : Refusal) : Err :=
  .profileViolation (if p.name = [] then [0x74, 0x68, 0x69, 0x73] else p.name) what

variable (p : Profile) (o : Limits)

/-- `profileValidator.stringItem` -/
def stringItem (h : Head) : GoM Failure Cursor Unit :=
  if h.indefinite then
    unplaced (skipString o ⟨h.major, 31, 0⟩)
  else if o.maxStringBytes < h.arg ∨ maxSliceLen < h.arg then
    GoM.fail (.plain (.limitExceeded .stringBytes))
  else do
    let _ ← unplaced (take (toInt h.arg))
    pure ()

/-- `profileValidator.indefiniteContainer`, with `x` for one turn of its inner loop and `room` for
how many turns are left. -/
def indefiniteContainer (x : GoM Failure Cursor Unit) : ℕ → GoM Failure Cursor Unit
  | 0 => do
    if ← located (unplaced atBreak) then
      pure ()
    else
      located (GoM.fail (.plain (.limitExceeded .containerItems)))
  | room + 1 => do
    if ← located (unplaced atBreak) then
      pure ()
    else
      x
      indefiniteContainer x room

/-- `profileValidator.arrayItem`, with `item` for `item(depth + 1)`. -/
def arrayItem (item : GoM Failure Cursor Unit) (h : Head) : GoM Failure Cursor Unit :=
  if h.indefinite then
    indefiniteContainer item o.maxContainerItems
  else if o.maxContainerItems < h.arg then
    GoM.fail (.plain (.limitExceeded .containerItems))
  else
    times item h.arg

/-- `profileValidator.key`, with `item` for `item(depth + 1)`. -/
def key (item : GoM Failure Cursor Unit) : GoM Failure Cursor Unit := do
  let c ← get
  let kind ← located peek
  if kind = .textString ∧ p.rejectTextKeys then
    failAt c (p.refuse .textKeys)
  else
    item

/-- `profileValidator.mapItem`, with `item` for `item(depth + 1)`. -/
def mapItem (item : GoM Failure Cursor Unit) (h : Head) : GoM Failure Cursor Unit :=
  if h.indefinite then
    indefiniteContainer (times item 2) o.maxContainerItems
  else if o.maxContainerItems < h.arg then
    GoM.fail (.plain (.limitExceeded .mapPairs))
  else
    pairs (p.key item) item (ordered p.requireSortedKeys p.keyOrder)
      (fun c => ⟨some c.off, .malformed (.keyOrder p.keyOrder)⟩) none h.arg

/-- `profileValidator.item` after the head, with `item` for `item(depth + 1)`. -/
def itemBody (item : GoM Failure Cursor Unit) (h : Head) : GoM Failure Cursor Unit :=
  if h.indefinite ∧ h.major ≠ 2 ∧ h.major ≠ 3 ∧ h.major ≠ 4 ∧ h.major ≠ 5 ∧ h.major ≠ 7 then
    GoM.fail (.plain (.malformed .invalidIndefinite))
  else if h.indefinite ∧ p.rejectIndefinite then
    GoM.fail (.plain (p.refuse .indefiniteLengths))
  else
    match h.major with
    | 0 | 1 => pure ()
    | 2 | 3 => stringItem o h
    | 4 => arrayItem o item h
    | 5 => if p.rejectMaps then GoM.fail (.plain (p.refuse .maps)) else p.mapItem o item h
    | 6 => if p.rejectTags then GoM.fail (.plain (p.refuse .tags)) else item
    | _ =>
      if h.ai = 20 ∨ h.ai = 21 ∨ h.ai = 22 then
        pure ()
      else if h.ai = 25 ∨ h.ai = 26 ∨ h.ai = 27 then
        if p.rejectFloats then GoM.fail (.plain .floatRefused) else pure ()
      else
        GoM.fail (.plain (.malformed (.unsupportedSimple h.ai)))

/-- `profileValidator.item`, called with how many levels `MaxNestedLevels` still allows. -/
def item : ℕ → GoM Failure Cursor Unit
  | 0 => located (GoM.fail (.plain (.limitExceeded .nestingDepth)))
  | levels + 1 => located (unplaced head >>= p.itemBody o (item levels))

/-- `Profile.Validate` -/
def validate (data : Slice) (opts : DecoderOptions) : Go Failure Unit :=
  match normalizeDecoderOptions (p.applyTo opts) with
  | .error e => .error (e.map Failure.plain)
  | .ok o =>
    match p.item o (o.maxNestedLevels + 1) (Cursor.start data) with
    | .error e _ => .error e
    | .ok _ c =>
      if c.off ≠ data.bytes.length then
        .error (.fail ⟨some c.off, .extraneousData⟩)
      else
        .ok ()

end Profile

/-! ### What a profile permits -/

/-- One level down. -/
def deeper (_ : Item) (d : ℕ) : ℕ := d + 1

variable {i : Item}

namespace Profile

/-- What `mapItem` demands of the keys of a map. -/
def PermitsKeys (p : Profile) (elements : List Item) : Prop :=
  (p.rejectTextKeys = true → ∀ k ∈ Item.keysOf elements, k.head.major ≠ 3)
    ∧ (p.requireSortedKeys = true →
      ((Item.keysOf elements).map Item.bytes).Pairwise p.keyOrder.Before)

/-- What `Validate` demands of a node, apart from its depth. -/
def PermitsNode (p : Profile) (o : Limits) : Item → Prop
  | .number _ _ => True
  | .string _ _ payload => payload.length ≤ o.maxStringBytes
  | .chunked _ chunks => p.rejectIndefinite = false ∧ chunkTotal chunks ≤ o.maxStringBytes
  | .container isMap a elements =>
    a.val ≤ o.maxContainerItems ∧ (isMap = true → p.rejectMaps = false ∧ p.PermitsKeys elements)
  | .unbounded isMap elements =>
    p.rejectIndefinite = false ∧ (isMap = true → p.rejectMaps = false)
      ∧ elements.length ≤ (if isMap then 2 else 1) * o.maxContainerItems
  | .tagged _ _ => p.rejectTags = false
  | .simple a => 25 ≤ a.ai → p.rejectFloats = false

/-- What `Validate` demands of a node with `d` levels above it. -/
def Permits (p : Profile) (o : Limits) (d : ℕ) (i : Item) : Prop :=
  i.Shaped ∧ d ≤ o.maxNestedLevels ∧ p.PermitsNode o i

variable {p : Profile} {o : Limits} {x : GoM Failure Cursor Unit} {Q : Item → Prop}

theorem reads_indefiniteContainer {P : List UInt8 → Prop} (hx : Reads cursorFeed x (fun _ => P))
    (hP : BreakFree P) (room : ℕ) :
  Reads cursorFeed (indefiniteContainer x room)
    (fun _ l => ∃ ls : List (List UInt8), ls.length ≤ room ∧ (∀ m ∈ ls, P m)
      ∧ l = ls.flatten ++ [0xff])
  := by
  have htest := testsBreak_atBreak.unplaced.located
  induction room with
  | zero =>
    refine (htest.reads (reads_located (fail _)) fun _ => False.elim).congr fun _ l => ?_
    constructor
    · rintro (rfl | h)
      · exact ⟨[], le_rfl, by simp, rfl⟩
      · exact h.elim
    · rintro ⟨ls, hlen, -, rfl⟩
      rw [length_eq_zero_iff.mp (Nat.le_zero.mp hlen)]
      exact .inl rfl
  | succ room ih =>
    refine (htest.reads ((hx.bind fun _ _ => ih).congr fun _ n => ?_) (hP.append
      (Q := fun m => ∃ ls : List (List UInt8), ls.length ≤ room ∧ (∀ m ∈ ls, P m)
        ∧ m = ls.flatten ++ [0xff]))).congr fun _ l => ?_
    · constructor
      · rintro ⟨-, l, m, rfl, hl, h⟩
        exact ⟨l, m, rfl, hl, h⟩
      · rintro ⟨l, m, rfl, hl, h⟩
        exact ⟨(), l, m, rfl, hl, h⟩
    constructor
    · rintro (rfl | ⟨l, m, rfl, hl, ls, hlen, hls, rfl⟩)
      · exact ⟨[], Nat.zero_le _, by simp, rfl⟩
      · exact ⟨l :: ls, by simpa using hlen, by simpa [hl] using hls, by simp⟩
    rintro ⟨ls, hlen, hls, rfl⟩
    cases ls with
    | nil => exact .inl rfl
    | cons l ls =>
      exact .inr ⟨l, ls.flatten ++ [0xff], by simp, hls l (by simp), ls,
        by simpa using hlen,
        fun m hm => hls m (by simp [hm]), rfl⟩

/-- Every item has a kind, and text strings have their own. -/
theorem kindOf_item (hi : i.Shaped) :
  ∃ kind, kindOf i.head.major i.head.ai = some kind ∧ (kind = .textString ↔ i.head.major = 3)
  := by
  cases i with
  | number negative a => cases negative <;> exact ⟨_, rfl, by simp [Item.head, Arg.head]⟩
  | string text a payload => cases text <;> exact ⟨_, rfl, by simp [Item.head, Arg.head]⟩
  | chunked text chunks => cases text <;> exact ⟨_, rfl, by simp [Item.head, Head.open]⟩
  | container isMap a elements => cases isMap <;> exact ⟨_, rfl, by simp [Item.head, Arg.head]⟩
  | unbounded isMap elements => cases isMap <;> exact ⟨_, rfl, by simp [Item.head, Head.open]⟩
  | tagged a content => exact ⟨_, rfl, by simp [Item.head, Arg.head]⟩
  | simple a =>
    have hshape : a.ai ∈ [20, 21, 22, 25, 26, 27] := hi
    simp only [mem_cons, not_mem_nil, or_false] at hshape
    simp only [Item.head, Arg.head]
    rcases hshape with h | h | h | h | h | h <;> rw [h] <;> exact ⟨_, rfl, by simp⟩

/-- `Peek` sees the kind of the item ahead. -/
theorem peek_item {c : Cursor} {r : List UInt8} (hi : i.Shaped) (hrest : c.rest = i.bytes ++ r) :
  ∃ kind, peek c = .ok kind c ∧ (kind = .textString ↔ i.head.major = 3)
  := by
  have hv := i.head_valid
  have hai := hv.ai_lt
  obtain ⟨kind, hkind, htext⟩ := kindOf_item hi
  obtain ⟨b, l, hbytes, hb⟩ : ∃ b l, c.rest = b :: l ∧ b.toNat = i.head.major * 32 + i.head.ai :=
    ⟨_, _, by rw [hrest, i.bytes_eq]; rfl, Head.toNat_first hv⟩
  have hff : b ≠ 0xff := by
    rintro rfl
    exact bytes_ne_break (hrest.symm.trans hbytes)
  refine ⟨kind, ?_, htext⟩
  rw [peek, get_bind, hbytes]
  dsimp only
  rw [if_neg hff, show b.toNat / 32 = i.head.major by omega,
    show b.toNat % 32 = i.head.ai by omega, hkind]
  rfl

theorem peek_state {c c' : Cursor} {kind : TokenKind} (h : peek c = .ok kind c') :
  c' = c
  := by
  rw [peek, get_bind] at h
  cases hrest : c.rest with
  | nil =>
    rw [hrest] at h
    cases h
  | cons b l =>
    rw [hrest] at h
    dsimp only at h
    split at h
    · exact (EStateM.Result.ok.inj h).2.symm
    cases hkind : kindOf (b.toNat / 32) (b.toNat % 32) with
    | some k =>
      rw [hkind] at h
      exact (EStateM.Result.ok.inj h).2.symm
    | none =>
      rw [hkind] at h
      exact absurd h (by simp [failAt])

/-- A key is an item that may not be a text string. -/
theorem reads_key (hx : Reads cursorFeed x (fun _ l => ∃ i : Item, l = i.bytes ∧ Q i))
    (hQ : ∀ i, Q i → i.Shaped) :
  Reads cursorFeed (p.key x) (fun _ l => ∃ i : Item, l = i.bytes ∧ Q i
    ∧ (p.rejectTextKeys = true → i.head.major ≠ 3))
  := by
  have hpeek : ∀ {c : Cursor} {i : Item} {r : List UInt8}, i.Shaped → c.rest = i.bytes ++ r →
      ∃ kind, located peek c = .ok kind c ∧ (kind = .textString ↔ i.head.major = 3) := by
    intro c i r hi hrest
    obtain ⟨kind, hkind, htext⟩ := peek_item hi hrest
    exact ⟨kind, by rw [located, hkind], htext⟩
  intro c u c'
  rw [key, GoM.get_bind, GoM.bind_eq_ok]
  constructor
  · rintro ⟨kind, t, hkind, h⟩
    have ht : t = c := by
      rw [located] at hkind
      split at hkind
      · rename_i hpeek
        rw [← (EStateM.Result.ok.inj hkind).2]
        exact peek_state hpeek
      · cases hkind
    subst ht
    split at h
    · exact absurd h (by simp [failAt])
    rename_i hnot
    obtain ⟨_, hstep, i, rfl, hi⟩ := (hx t u c').mp h
    refine ⟨_, hstep, i, rfl, hi, fun hreject hmajor => hnot ⟨?_, hreject⟩⟩
    obtain ⟨kind', hkind', htext⟩ := hpeek (hQ i hi) hstep.2
    rw [hkind'] at hkind
    rw [← (EStateM.Result.ok.inj hkind).1]
    exact htext.mpr hmajor
  · rintro ⟨_, hstep, i, rfl, hi, htextKey⟩
    obtain ⟨kind, hkind, htext⟩ := hpeek (hQ i hi) hstep.2
    refine ⟨kind, c, hkind, ?_⟩
    rw [if_neg (fun h => htextKey h.2 (htext.mp h.1))]
    exact (hx c u c').mpr ⟨_, hstep, i, rfl, hi⟩

/-- `stringItem` does what `skipString` does. -/
theorem stringItem_eq (h : Head) :
  stringItem o h = unplaced (skipString o h)
  := by
  rw [stringItem]
  split_ifs with hindef hlimit
  · have hopen : skipString o ⟨h.major, 31, 0⟩ = skipString o h := by
      rw [skipString, skipString, if_pos hindef]
      rfl
    rw [hopen]
  · rw [skipString, if_neg hindef, if_pos hlimit]
    rfl
  · rw [skipString, if_neg hindef, if_neg hlimit]
    funext c
    rw [bind_apply, unplaced, unplaced, bind_apply]
    cases take (toInt h.arg) c <;> rfl

theorem reads_stringItem {m : ℕ} (hm : m < 7) (a : Arg) :
  Reads cursorFeed (stringItem o (a.head m))
    (fun _ l => l.length = a.val ∧ l.length ≤ o.maxStringBytes)
  := by
  rw [stringItem_eq]
  refine (reads_unplaced (reads_skipString hm)).congr fun _ l => ?_
  have hval : (a.head m).arg = a.val := rfl
  simp only [Arg.indefinite_head, Bool.false_eq_true, false_and, false_or, true_and, hval]
  exact and_congr_right fun hlen => by rw [hlen]

theorem reads_stringItem_open {m : ℕ} (hm : m < 7) :
  Reads cursorFeed (stringItem o (Head.open m))
    (fun _ l => ∃ chunks : List (Arg × List UInt8), (∀ c ∈ chunks, c.2.length = c.1.val)
      ∧ chunkTotal chunks ≤ o.maxStringBytes ∧ l = Item.chunkBytes m chunks ++ [0xff])
  := by
  rw [stringItem_eq]
  refine (reads_unplaced (reads_skipString hm)).congr fun _ l => ?_
  have hmajor : (Head.open m).major = m := rfl
  simp [hmajor]

section

variable (hx : Reads cursorFeed x (fun _ l => ∃ i : Item, l = i.bytes ∧ Q i))
include hx

/-- What an array takes after its head. -/
theorem reads_arrayItem (m : ℕ)
    (a : Arg) :
  Reads cursorFeed (arrayItem o x (a.head m))
    (fun _ l => a.val ≤ o.maxContainerItems ∧ ∃ elements : List Item, elements.length = a.val
      ∧ (∀ i ∈ elements, Q i) ∧ l = Item.bytesAll elements)
  := by
  rw [arrayItem, if_neg (by simp)]
  refine (ite (fun _ => fail _) fun _ => reads_times hx _).congr fun _ l => ?_
  have hval : (a.head m).arg = a.val := rfl
  rw [hval, exists_bytesAll (R := (· = a.val))]
  simp

theorem reads_arrayItem_open (m : ℕ) :
  Reads cursorFeed (arrayItem o x (Head.open m))
    (fun _ l => ∃ elements : List Item, elements.length ≤ o.maxContainerItems
      ∧ (∀ i ∈ elements, Q i) ∧ l = Item.bytesAll elements ++ [0xff])
  := (reads_indefiniteContainer hx breakFree_items _).congr fun _ l =>
    exists_bytesAll (R := (· ≤ o.maxContainerItems)) (S := (l = · ++ [0xff]))

/-- What a map takes after its head. -/
theorem reads_mapItem (hQ : ∀ i, Q i → i.Shaped) (m : ℕ) (a : Arg) :
  Reads cursorFeed (p.mapItem o x (a.head m))
    (fun _ l => a.val ≤ o.maxContainerItems ∧ ∃ elements : List Item, elements.length = 2 * a.val
      ∧ (∀ i ∈ elements, Q i) ∧ p.PermitsKeys elements ∧ l = Item.bytesAll elements)
  := by
  rw [mapItem, if_neg (by simp)]
  refine (ite (fun _ => fail _) fun _ =>
    reads_pairs (p.reads_key hx hQ) hx none _).congr fun _ l => ?_
  have hval : (a.head m).arg = a.val := rfl
  rw [hval, exists_entries]
  simp only [and_false, false_or, not_lt, chained_ordered]
  constructor
  · rintro ⟨hle, elements, hlen, hQ, htext, hsorted, rfl⟩
    exact ⟨hle, elements, hlen, hQ, ⟨fun h k hk => htext k hk h, hsorted⟩, rfl⟩
  · rintro ⟨hle, elements, hlen, hQ, ⟨htext, hsorted⟩, rfl⟩
    exact ⟨hle, elements, hlen, hQ, fun k hk h => htext h k hk, hsorted, rfl⟩

theorem reads_mapItem_open (m : ℕ) :
  Reads cursorFeed (p.mapItem o x (Head.open m))
    (fun _ l => ∃ elements : List Item, 2 ∣ elements.length
      ∧ elements.length ≤ 2 * o.maxContainerItems ∧ (∀ i ∈ elements, Q i)
      ∧ l = Item.bytesAll elements ++ [0xff])
  := by
  have hpair : Reads cursorFeed (times x 2)
      (fun _ l => ∃ e : Item × Item, l = e.1.bytes ++ e.2.bytes ∧ Q e.1 ∧ Q e.2) := by
    refine (reads_times hx 2).congr fun _ l => ?_
    rw [exists_bytesAll (R := (· = 2))]
    constructor
    · rintro ⟨elements, hlen, hQ, rfl⟩
      obtain ⟨k, v, rfl⟩ := length_eq_two.mp hlen
      exact ⟨(k, v), by simp [bytesAll], hQ k (by simp), hQ v (by simp)⟩
    · rintro ⟨⟨k, v⟩, rfl, hk, hv⟩
      exact ⟨[k, v], rfl, by simp [hk, hv], by simp [bytesAll]⟩
  have hfree : BreakFree (fun l => ∃ e : Item × Item, l = e.1.bytes ++ e.2.bytes
      ∧ Q e.1 ∧ Q e.2) := by
    rintro _ ⟨⟨k, v⟩, rfl, hk, -⟩
    obtain ⟨first, m, hbytes, hfirst⟩ := breakFree_items k.bytes ⟨k, rfl, hk⟩
    exact ⟨first, m ++ v.bytes, by rw [hbytes]; rfl, hfirst⟩
  refine (reads_indefiniteContainer hpair hfree _).congr fun _ l => ?_
  constructor
  · rintro ⟨ls, hlen, hls, rfl⟩
    obtain ⟨es, rfl, hes⟩ := exists_map.mp hls
    rw [length_map] at hlen
    refine ⟨unpair es, ⟨_, length_unpair es⟩, ?_, forall_mem_unpair.mpr hes, ?_⟩
    · rw [length_unpair]
      omega
    · rw [bytesAll_unpair, flatMap]
  · rintro ⟨elements, heven, hlen, hQ, rfl⟩
    obtain ⟨es, rfl⟩ : ∃ es, elements = unpair es := ⟨_, (unpair_pairsOf heven).symm⟩
    rw [length_unpair] at hlen
    refine ⟨es.map fun e => e.1.bytes ++ e.2.bytes, by rw [length_map]; omega,
      exists_map.mpr ⟨es, rfl, forall_mem_unpair.mp hQ⟩, ?_⟩
    rw [bytesAll_unpair, flatMap]

end

theorem reads_chunked (text : Bool) :
  Reads cursorFeed
    (if true ∧ p.rejectIndefinite then GoM.fail (.plain (p.refuse .indefiniteLengths))
      else stringItem o (Head.open (if text then 3 else 2)))
    (fun _ => Spells (fun i => i.Shaped ∧ p.PermitsNode o i ∧ ∀ j ∈ i.children, Q j)
      (Head.open (if text then 3 else 2)))
  := by
  have hm : (if text then 3 else 2) < 7 := by cases text <;> decide
  refine (ite (fun _ => fail _) fun _ => reads_stringItem_open hm).congr
    fun _ l => Iff.trans ?_ (spells_chunked text).symm
  simp only [and_false, false_or, true_and, Bool.not_eq_true]
  constructor
  · rintro ⟨hindef, chunks, hchunks, htotal, rfl⟩
    exact ⟨chunks, rfl, hchunks, ⟨hindef, htotal⟩, by simp [children]⟩
  · rintro ⟨chunks, rfl, hchunks, ⟨hindef, htotal⟩, -⟩
    exact ⟨hindef, chunks, hchunks, htotal, rfl⟩

/-- What `item` takes after a head. -/
theorem reads_itemBody (hx : Reads cursorFeed x (fun _ l => ∃ i : Item, l = i.bytes ∧ Q i))
    (hQ : ∀ i, Q i → i.Shaped) (h : Head) (hv : h.Valid) :
  Reads cursorFeed (p.itemBody o x h)
    (fun _ => Spells (fun i => i.Shaped ∧ p.PermitsNode o i ∧ ∀ j ∈ i.children, Q j) h)
  := by
  rw [itemBody]
  rcases hv.cases with ⟨m, a, hm, rfl⟩ | ⟨m, hm, rfl⟩
  · rw [if_neg (by simp), if_neg (by simp)]
    interval_cases m
    · refine (pure ()).congr fun _ l => Iff.trans ?_ (spells_number false).symm
      simp [Item.Shaped, PermitsNode, children]
    · refine (pure ()).congr fun _ l => Iff.trans ?_ (spells_number true).symm
      simp [Item.Shaped, PermitsNode, children]
    · refine (reads_stringItem (by decide) a).congr fun _ l =>
        Iff.trans ?_ (spells_string false).symm
      simp [Item.Shaped, PermitsNode, children]
    · refine (reads_stringItem (by decide) a).congr fun _ l =>
        Iff.trans ?_ (spells_string true).symm
      simp [Item.Shaped, PermitsNode, children]
    · refine (reads_arrayItem hx 4 a).congr fun _ l => Iff.trans ?_ (spells_container false).symm
      constructor
      · rintro ⟨hle, elements, hlen, hQ, rfl⟩
        exact ⟨elements, rfl, hlen, ⟨hle, by simp⟩, hQ⟩
      · rintro ⟨elements, rfl, hlen, ⟨hle, -⟩, hQ⟩
        exact ⟨hle, elements, hlen, hQ, rfl⟩
    · refine (ite (fun _ => fail _) fun _ => p.reads_mapItem hx hQ 5 a).congr
        fun _ l => Iff.trans ?_ (spells_container true).symm
      simp only [and_false, false_or, Bool.not_eq_true]
      constructor
      · rintro ⟨hmaps, hle, elements, hlen, hQ, hkeys, rfl⟩
        exact ⟨elements, rfl, hlen, ⟨hle, fun _ => ⟨hmaps, hkeys⟩⟩, hQ⟩
      · rintro ⟨elements, rfl, hlen, ⟨hle, hmap⟩, hQ⟩
        exact ⟨(hmap rfl).1, hle, elements, hlen, hQ, (hmap rfl).2, rfl⟩
    · refine (ite (fun _ => fail _) fun _ => hx).congr
        fun _ l => Iff.trans ?_ spells_tagged.symm
      simp only [and_false, false_or, Bool.not_eq_true]
      constructor
      · rintro ⟨htags, i, rfl, hi⟩
        exact ⟨i, rfl, trivial, htags, by simpa [children] using hi⟩
      · rintro ⟨i, rfl, -, htags, hi⟩
        exact ⟨htags, i, rfl, hi i (by simp [children])⟩
    · refine (ite (fun _ => pure ()) fun _ => ite (fun _ =>
        ite (fun _ => fail _) fun _ => pure ()) fun _ => fail _).congr
          fun _ l => Iff.trans ?_ spells_simple.symm
      have hai : (a.head 7).ai = a.ai := rfl
      simp only [Item.Shaped, PermitsNode, children, hai, mem_cons, not_mem_nil, or_false]
      constructor
      · rintro (⟨h, -, rfl⟩ | ⟨-, (⟨h, ⟨-, h'⟩ | ⟨hfloat, -, rfl⟩⟩ | ⟨-, h'⟩)⟩)
        · exact ⟨rfl, by omega, by omega, by simp⟩
        · exact h'.elim
        · exact ⟨rfl, by omega, fun _ => by simpa using hfloat, by simp⟩
        · exact h'.elim
      · rintro ⟨rfl, hshape, hfloat, -⟩
        by_cases h : a.ai = 20 ∨ a.ai = 21 ∨ a.ai = 22
        · exact .inl ⟨h, trivial, rfl⟩
        · exact .inr ⟨h, .inl ⟨by omega, .inr ⟨by simpa using hfloat (by omega), trivial, rfl⟩⟩⟩
  · have hmajor : (Head.open m).major = m := rfl
    have hai : (Head.open m).ai = 31 := rfl
    rw [Head.indefinite_open, hmajor, hai]
    have hnone : (m ≤ 1 ∨ 6 ≤ m) → ∀ l,
        ¬ Spells (fun i => i.Shaped ∧ p.PermitsNode o i ∧ ∀ j ∈ i.children, Q j) (Head.open m) l :=
      fun hm l => not_spells_open hm
    interval_cases m
    · exact (Reads.fail _).congr fun _ l => iff_of_false id (hnone (by omega) l)
    · exact (Reads.fail _).congr fun _ l => iff_of_false id (hnone (by omega) l)
    · exact p.reads_chunked false
    · exact p.reads_chunked true
    · refine (ite (fun _ => fail _) fun _ => reads_arrayItem_open hx 4).congr
        fun _ l => Iff.trans ?_ (spells_unbounded false).symm
      simp only [and_false, false_or, true_and, Bool.not_eq_true]
      constructor
      · rintro ⟨hindef, elements, hlen, hQ, rfl⟩
        exact ⟨elements, rfl, by simp [Item.Shaped], ⟨hindef, by simp, by simpa using hlen⟩, hQ⟩
      · rintro ⟨elements, rfl, -, ⟨hindef, -, hlen⟩, hQ⟩
        exact ⟨hindef, elements, by simpa using hlen, hQ, rfl⟩
    · refine (ite (fun _ => fail _) fun _ => ite (fun _ => fail _) fun _ =>
        p.reads_mapItem_open hx 5).congr fun _ l => Iff.trans ?_ (spells_unbounded true).symm
      simp only [and_false, false_or, true_and, Bool.not_eq_true]
      constructor
      · rintro ⟨hindef, hmaps, elements, heven, hlen, hQ, rfl⟩
        exact ⟨elements, rfl, fun _ => heven, ⟨hindef, fun _ => hmaps, hlen⟩, hQ⟩
      · rintro ⟨elements, rfl, heven, ⟨hindef, hmaps, hlen⟩, hQ⟩
        exact ⟨hindef, hmaps rfl, elements, heven rfl, hlen, hQ, rfl⟩
    · exact (Reads.fail _).congr fun _ l => iff_of_false id (hnone (by omega) l)
    · refine (ite (fun _ => fail _) fun _ => fail _).congr
        fun _ l => iff_of_false (by simp) (hnone (by omega) l)

/-- `item` takes the items that the profile permits. -/
theorem reads_item (d levels : ℕ) (h : d + levels = o.maxNestedLevels + 1) :
  Reads cursorFeed (p.item o levels)
    (fun _ l => ∃ i : Item, l = i.bytes ∧ i.All deeper (p.Permits o) d)
  := by
  induction levels generalizing d with
  | zero =>
    refine (reads_located (fail _)).congr fun _ l => iff_of_false id ?_
    rintro ⟨i, -, hall⟩
    have := (all_iff.mp hall).1.2.1
    omega
  | succ levels ih =>
    have hbody := p.reads_itemBody (o := o) (ih (d + 1) (by omega)) fun i hi =>
      (all_iff.mp hi).1.1
    refine (reads_located (Cbor.reads_item (reads_unplaced reads_head) hbody)).congr fun _ l => ?_
    refine exists_congr fun i => and_congr_right fun _ => ?_
    constructor
    · rintro ⟨hshaped, hnode, hbelow⟩
      exact ⟨⟨hshaped, by omega, hnode⟩, hbelow⟩
    · rintro ⟨⟨hshaped, -, hnode⟩, hbelow⟩
      exact ⟨hshaped, hnode, hbelow⟩

/-- `Validate` accepts the spellings of the items that the profile permits. -/
theorem validate_eq_ok (data : Slice) (opts : DecoderOptions) :
  p.validate data opts = .ok () ↔ ∃ o, normalizeDecoderOptions (p.applyTo opts) = .ok o
    ∧ ∃ i : Item, data.bytes = i.bytes ∧ i.All deeper (p.Permits o) 0
  := by
  rw [validate]
  cases hopts : normalizeDecoderOptions (p.applyTo opts) with
  | error e => simp
  | ok o =>
    have hwhole := reads_whole (p.reads_item (o := o) 0 _ (Nat.zero_add _)) data
    simp only [Except.ok.injEq, exists_eq_left', ← hwhole]
    cases hitem : p.item o (o.maxNestedLevels + 1) (Cursor.start data) with
    | error e c => simp
    | ok u c =>
      dsimp only
      split
      · rename_i hoff
        simp [hoff]
      · rename_i hoff
        simpa using hoff

end Profile

/-! ### Maps within items -/

namespace Item

/-- The elements of a map. -/
def mapElements : Item → Option (List Item)
  | container true _ elements => some elements
  | unbounded true elements => some elements
  | _ => none

/-- The elements of a map of definite length. -/
def definiteElements : Item → Option (List Item)
  | container true _ elements => some elements
  | _ => none

/-- `K` holds of the elements of every map in the item. -/
def EveryMap (i : Item) (K : List Item → Prop) : Prop :=
  i.All (fun _ u => u)
    (fun (_ : Unit) j => ∀ elements, j.mapElements = some elements → K elements) ()

/-- `K` holds of the elements of every map of definite length in the item. -/
def EveryDefiniteMap (i : Item) (K : List Item → Prop) : Prop :=
  i.All (fun _ u => u)
    (fun (_ : Unit) j => ∀ elements, j.definiteElements = some elements → K elements) ()

/-- A condition that follows at every node follows of the item. -/
theorem All.imp {δ δ' : Type} {down : Item → δ → δ} {down' : Item → δ' → δ'} {P : δ → Item → Prop}
    {P' : δ' → Item → Prop} {d : δ} (h : i.All down P d) (hP : ∀ d d' j, P d j → P' d' j)
    (d' : δ') :
  i.All down' P' d'
  := by
  induction h generalizing d' with
  | node here below ih => exact .node (hP _ d' _ here) fun j hj => ih j hj _

end Item

namespace Profile

variable {p : Profile} {o : Limits}

/-- The profile is one whose restrictions on keys reach every map. -/
def ReachesMaps (p : Profile) : Prop :=
  p.rejectIndefinite = true ∨ p.rejectMaps = true
    ∨ (p.requireSortedKeys = false ∧ p.rejectTextKeys = false)

theorem Permits.definite {d : ℕ} (h : p.Permits o d i) (elements : List Item)
    (hi : i.definiteElements = some elements) :
  p.PermitsKeys elements
  := by
  cases i with
  | container isMap a els =>
    cases isMap with
    | false => simp [definiteElements] at hi
    | true =>
      obtain rfl : els = elements := by simpa [definiteElements] using hi
      exact (h.2.2.2 rfl).2
  | _ => simp [definiteElements] at hi

theorem Permits.map {d : ℕ} (hp : p.ReachesMaps) (h : p.Permits o d i) (elements : List Item)
    (hi : i.mapElements = some elements) :
  p.PermitsKeys elements
  := by
  cases i with
  | container isMap a els =>
    cases isMap with
    | false => simp [mapElements] at hi
    | true =>
      obtain rfl : els = elements := by simpa [mapElements] using hi
      exact (h.2.2.2 rfl).2
  | unbounded isMap els =>
    cases isMap with
    | false => simp [mapElements] at hi
    | true =>
      obtain ⟨hindef, hmaps, -⟩ := h.2.2
      rcases hp with hp | hp | ⟨hsorted, htext⟩
      · simp [hp] at hindef
      · simp [hp] at hmaps
      · exact ⟨by simp [htext], by simp [hsorted]⟩
  | _ => simp [mapElements] at hi

/-- A map of indefinite length with the key `a` twice. -/
def repeatedKey : Item :=
  let a : Item := .string true ⟨1, 1, by decide⟩ [0x61]
  let one : Item := .number false ⟨1, 1, by decide⟩
  .unbounded true [a, one, a, one]

theorem repeatedKey_permitted (hindef : p.rejectIndefinite = false) (hmaps : p.rejectMaps = false)
    (hlevels : 1 ≤ o.maxNestedLevels) (hstring : 1 ≤ o.maxStringBytes)
    (hitems : 2 ≤ o.maxContainerItems) :
  repeatedKey.All deeper (p.Permits o) 0
  := by
  refine .node ⟨fun _ => by decide, Nat.zero_le _, hindef, fun _ => hmaps, ?_⟩ ?_
  · change 4 ≤ 2 * _
    omega
  intro j hj
  have hj : j = .string true ⟨1, 1, by decide⟩ [0x61] ∨ j = .number false ⟨1, 1, by decide⟩ := by
    simp [repeatedKey, children] at hj
    tauto
  rcases hj with rfl | rfl
  · exact .node ⟨rfl, hlevels, hstring⟩ (by simp [children])
  · exact .node ⟨trivial, hlevels, trivial⟩ (by simp [children])

theorem applyTo_zero (p : Profile) :
  ∃ o, normalizeDecoderOptions (p.applyTo .zero) = .ok o ∧ 1 ≤ o.maxNestedLevels
    ∧ 1 ≤ o.maxStringBytes ∧ 2 ≤ o.maxContainerItems
  := by
  rw [applyTo]
  split
  · exact ⟨_, rfl, by decide, by decide, by decide⟩
  · exact ⟨_, rfl, by decide, by decide, by decide⟩

/-- What `Validate` accepts is one item, in which every map of definite length meets the
restrictions on keys; every map does, whatever is accepted, exactly if the profile refuses
indefinite lengths, refuses maps, or restricts no keys. -/
theorem validate_maps (p : Profile) :
  (∀ data opts, p.validate data opts = .ok () →
      ∃ i : Item, i.Formed ∧ data.bytes = i.bytes ∧ i.EveryDefiniteMap p.PermitsKeys)
    ∧ ((∀ data opts, p.validate data opts = .ok () →
      ∃ i : Item, i.Formed ∧ data.bytes = i.bytes ∧ i.EveryMap p.PermitsKeys) ↔ p.ReachesMaps)
  := by
  refine ⟨fun data opts hok => ?_, fun h => ?_, fun hp data opts hok => ?_⟩
  · obtain ⟨o, -, i, hi, hall⟩ := (p.validate_eq_ok data opts).mp hok
    exact ⟨i, hall.formed fun _ _ h => h.1, hi, hall.imp (fun _ _ _ h => h.definite) ()⟩
  · by_contra hp
    simp only [ReachesMaps, not_or, Bool.not_eq_true, not_and, Bool.not_eq_false] at hp
    obtain ⟨hindef, hmaps, hkeys⟩ := hp
    obtain ⟨o, ho, hlevels, hstring, hitems⟩ := p.applyTo_zero
    have hall := repeatedKey_permitted hindef hmaps hlevels hstring hitems
    obtain ⟨i, hi, hbytes, hmap⟩ := h ⟨repeatedKey.bytes, by decide⟩ .zero
      ((p.validate_eq_ok _ _).mpr ⟨o, ho, repeatedKey, rfl, hall⟩)
    -- The bytes spell one item only, so the item found is the map with the repeated key.
    obtain rfl := eq_of_bytes_eq (hall.formed fun _ _ h => h.1) hi hbytes
    obtain ⟨htext, hsorted⟩ := (all_iff.mp hmap).1 _ rfl
    cases hs : p.requireSortedKeys with
    | true =>
      have := hsorted hs
      simp [keysOf, pairsOf, KeyOrder.Before.irrefl] at this
    | false =>
      exact absurd rfl (htext (hkeys hs) (.string true ⟨1, 1, by decide⟩ [0x61]) (by
        simp [keysOf, pairsOf]))
  · obtain ⟨o, -, i, hi, hall⟩ := (p.validate_eq_ok data opts).mp hok
    exact ⟨i, hall.formed fun _ _ h => h.1, hi, hall.imp (fun _ _ _ h => h.map hp) ()⟩

/-- The map from 1 to 2 and from 3 to 4 under the canonical profile. -/
theorem validate_maps_canonical :
  canonical.validate ⟨[0xa2, 0x01, 0x02, 0x03, 0x04], by decide⟩ .zero = .ok ()
    ∧ ∃ i : Item, i.Formed ∧ [0xa2, 0x01, 0x02, 0x03, 0x04] = i.bytes
      ∧ i.EveryMap canonical.PermitsKeys
  :=
  have h : canonical.validate ⟨[0xa2, 0x01, 0x02, 0x03, 0x04], by decide⟩ .zero = .ok () := by
    decide +kernel
  ⟨h, (validate_maps canonical).2.mpr (.inl rfl) _ _ h⟩

/-- A profile that refuses text keys, and one that requires sorted keys, accept a map of indefinite
length in which the text key `a` comes twice. -/
theorem indefinite_map_keys :
  let data : Slice := ⟨[0xbf, 0x61, 0x61, 0x01, 0x61, 0x61, 0x01, 0xff], by decide⟩
  let noText : Profile := { zero with rejectTextKeys := true }
  let sorted : Profile := { zero with requireSortedKeys := true }
  data.bytes = repeatedKey.bytes ∧ repeatedKey.mapElements.isSome = true
    ∧ noText.validate data .zero = .ok () ∧ ¬ repeatedKey.EveryMap noText.PermitsKeys
    ∧ sorted.validate data .zero = .ok () ∧ ¬ repeatedKey.EveryMap sorted.PermitsKeys
  := by
  refine ⟨by decide, rfl, by decide +kernel, fun h => ?_, by decide +kernel, fun h => ?_⟩
  · obtain ⟨htext, -⟩ := (all_iff.mp h).1 _ rfl
    exact absurd rfl (htext rfl (.string true ⟨1, 1, by decide⟩ [0x61]) (by
      simp [keysOf, pairsOf]))
  · obtain ⟨-, hsorted⟩ := (all_iff.mp h).1 _ rfl
    have := hsorted rfl
    simp [keysOf, pairsOf, KeyOrder.Before.irrefl] at this

/-! ### Skipping what is validated -/

variable {x y : GoM Failure Cursor Unit} {refuses : Bool}

theorem subsumed_times (h : Subsumed x y) (n : ℕ) :
  Subsumed (times x n) (times y n)
  := by
  induction n with
  | zero => exact fun _ _ _ => id
  | succ n ih => exact h.bind fun _ => ih

theorem subsumed_indefiniteContainer (h : Subsumed x y) (room : ℕ) :
  Subsumed (indefiniteContainer x room) (untilBreak y room)
  := by
  have htest : Subsumed (located (unplaced atBreak)) (unplaced atBreak) :=
    fun _ _ _ => located_eq_ok.mp
  induction room with
  | zero =>
    refine htest.bind fun b c u c' hok => ?_
    cases b with
    | true => exact hok
    | false => exact located_eq_ok.mp hok
  | succ room ih =>
    refine htest.bind fun b => ?_
    cases b with
    | true => exact fun _ _ _ => id
    | false => exact h.bind fun _ => ih

/-- A key is looked at, and walked as any item. -/
theorem subsumed_key (h : Subsumed x y) :
  Subsumed (p.key x) y
  := by
  intro c u c' hok
  rw [key, get_bind] at hok
  obtain ⟨kind, t, hkind, hok⟩ := bind_eq_ok.mp hok
  obtain rfl := peek_state (located_eq_ok.mp hkind)
  split at hok
  · exact absurd hok (by simp [failAt])
  · exact h _ _ _ hok

theorem subsumed_pairs {key : GoM Failure Cursor Unit}
    {inOrder : Option (List UInt8) → List UInt8 → Bool} {refusal : Cursor → Failure}
    (hkey : Subsumed key y) (h : Subsumed x y) (prev : Option (List UInt8)) (n : ℕ) :
  Subsumed (pairs key x inOrder refusal prev n) (times y (n * 2))
  := by
  induction n generalizing prev with
  | zero => exact fun _ _ _ => id
  | succ n ih =>
    intro c u c' hok
    rw [pairs, get_bind] at hok
    obtain ⟨_, t, hk, hok⟩ := bind_eq_ok.mp hok
    rw [get_bind] at hok
    rw [Nat.add_mul, Nat.one_mul, times, bind_ok (hkey _ _ _ hk)]
    split at hok
    · exact (h.bind fun _ => ih _) _ _ _ hok
    · cases hok

theorem skipChunks_refuses (refuses : Bool) (major fuel total : ℕ) :
  skipChunks { o with rejectFloats := refuses } major fuel total = skipChunks o major fuel total
  := by
  induction fuel generalizing total with
  | zero => rfl
  | succ fuel ih => simp only [skipChunks, ih]

theorem subsumed_stringItem (refuses : Bool) (h : Head) :
  Subsumed (stringItem o h) (unplaced (skipString { o with rejectFloats := refuses } h))
  := by
  have hskip : skipString { o with rejectFloats := refuses } h = skipString o h := by
    simp only [skipString, skipChunks_refuses]
  rw [stringItem_eq, hskip]
  exact fun _ _ _ => id

theorem subsumed_arrayItem (hx : Subsumed x y) {h : Head} (refuses : Bool) :
  Subsumed (arrayItem o x h) (skipContainer { o with rejectFloats := refuses } y h 1)
  := by
  rw [arrayItem, skipContainer]
  split
  · exact subsumed_indefiniteContainer
      (fun _ _ _ hok => bind_eq_ok.mpr ⟨_, _, hx _ _ _ hok, rfl⟩) _
  split
  · exact fun _ _ _ hok => absurd hok (by simp)
  · rw [Nat.mul_one]
    exact subsumed_times hx _

theorem subsumed_mapItem (hx : Subsumed x y) {h : Head} (refuses : Bool) :
  Subsumed (p.mapItem o x h) (skipContainer { o with rejectFloats := refuses } y h 2)
  := by
  rw [mapItem, skipContainer]
  split
  · exact subsumed_indefiniteContainer (subsumed_times hx 2) _
  split
  · exact fun _ _ _ hok => absurd hok (by simp)
  · exact subsumed_pairs (subsumed_key hx) hx _ _

/-- What follows a head and is permitted can be skipped, if floats are refused by the profile
whenever they are by the reader. -/
theorem subsumed_itemBody (hfloats : refuses = true → p.rejectFloats = true) (hx : Subsumed x y)
    (h : Head) :
  Subsumed (p.itemBody o x h) (skipBody { o with rejectFloats := refuses } y h)
  := by
  intro c u c' hok
  rw [itemBody] at hok
  split at hok
  · cases hok
  rename_i hopen
  split at hok
  · cases hok
  rw [skipBody]
  rcases hmajor : h.major with _ | _ | _ | _ | _ | _ | _ | n <;> simp only [hmajor] at hok ⊢
  · rw [if_neg (fun hindef => hopen ⟨hindef, by simp [hmajor]⟩)]
    exact hok
  · rw [if_neg (fun hindef => hopen ⟨hindef, by simp [hmajor]⟩)]
    exact hok
  · exact subsumed_stringItem refuses h _ _ _ hok
  · exact subsumed_stringItem refuses h _ _ _ hok
  · exact subsumed_arrayItem hx refuses _ _ _ hok
  · split at hok
    · cases hok
    · exact subsumed_mapItem hx refuses _ _ _ hok
  · rw [if_neg (fun hindef => hopen ⟨hindef, by simp [hmajor]⟩)]
    split at hok
    · cases hok
    · exact hx _ _ _ hok
  · split at hok
    · rename_i hai
      rcases hai with hai | hai | hai <;> simpa only [hai] using hok
    · split at hok
      · rename_i hai
        split at hok
        · cases hok
        rename_i hpermits
        have hfloat : refuses = false := by simpa using mt hfloats hpermits
        rcases hai with hai | hai | hai <;> simpa [hai, hfloat] using hok
      · cases hok

/-- What is permitted can be skipped. -/
theorem subsumed_item (hfloats : refuses = true → p.rejectFloats = true) (levels : ℕ) :
  Subsumed (p.item o levels) (skipItem { o with rejectFloats := refuses } levels)
  := by
  induction levels with
  | zero => exact fun _ _ _ hok => absurd (located_eq_ok.mp hok) (by simp)
  | succ levels ih =>
    intro c u c' hok
    refine located_eq_ok.mpr ?_
    exact (Subsumed.bind (fun _ _ _ => id) fun h => subsumed_itemBody hfloats ih h) _ _ _
      (located_eq_ok.mp hok)

/-- Whether floats are refused does not bear on the other options. -/
theorem normalize_refuses {opts : DecoderOptions} (h : normalizeDecoderOptions opts = .ok o)
    (refuses : Bool) :
  normalizeDecoderOptions { opts with rejectFloats := refuses }
    = .ok { o with rejectFloats := refuses }
  := by
  rw [normalizeDecoderOptions] at h ⊢
  split at h
  · simp at h
  rename_i hneg
  rw [if_neg hneg]
  split at h
  · rename_i hmax
    rw [dif_pos hmax]
    cases h
    rfl
  · simp at h

theorem applyTo_eq (p : Profile) (opts : DecoderOptions) :
  p.applyTo opts = { opts with rejectFloats := opts.rejectFloats || p.rejectFloats }
  := by
  rw [applyTo]
  cases p.rejectFloats <;> simp

/-- A reader with these options skips the data up to its end, and returns it as raw bytes within the
limit for them. -/
def Skippable (data : Slice) (opts : DecoderOptions) : Prop :=
  ∃ o c, normalizeDecoderOptions opts = .ok o ∧ c.off = data.bytes.length
    ∧ skip o (Cursor.start data) = .ok () c
    ∧ (data.bytes.length ≤ o.maxRawMessageBytes →
      Reader.readRaw o (Cursor.start data) = .ok data.bytes c)

theorem skippable_of_validate {data : Slice} {opts : DecoderOptions}
    (hfloats : opts.rejectFloats = true → p.rejectFloats = true)
    (h : p.validate data opts = .ok ()) :
  Skippable data opts
  := by
  rw [validate] at h
  split at h
  · simp at h
  rename_i o ho
  split at h
  · simp at h
  rename_i c hitem
  split at h
  · simp at h
  rename_i hoff
  have hskip := located_eq_ok.mpr (subsumed_item hfloats _ _ _ _ hitem)
  rw [not_not] at hoff
  rw [applyTo_eq] at ho
  refine ⟨_, c, normalize_refuses ho opts.rejectFloats, hoff, hskip, fun hraw => ?_⟩
  have hbytes : bytesBetween (Cursor.start data) c = data.bytes := by
    simp [bytesBetween, Cursor.start, hoff]
  rw [Reader.readRaw, get_bind, bind_ok hskip, get_bind, hbytes, if_neg (not_lt.mpr hraw)]
  rfl

/-- An item in which there is no float. -/
def FloatFree (i : Item) : Prop :=
  i.All (fun _ u => u) (fun (_ : Unit) j => ∀ a, j = .simple a → a.ai < 25) ()

/-- Without floats, a profile that refuses them permits the same. -/
theorem permits_of_floatFree {d : ℕ} (h : i.All deeper (p.Permits o) d) (hfree : FloatFree i) :
  i.All deeper (({ p with rejectFloats := true } : Profile).Permits
    { o with rejectFloats := true }) d
  := by
  induction h with
  | @node d i here below ih =>
    obtain ⟨hfloat, hbelow⟩ := all_iff.mp hfree
    obtain ⟨hshaped, hdepth, hnode⟩ := here
    refine .node ⟨hshaped, hdepth, ?_⟩ fun j hj => ih j hj (hbelow j hj)
    cases i with
    | simple a => exact fun hai => absurd (hfloat a rfl) (not_lt.mpr hai)
    | _ => exact hnode

/-- Where `x` and `y` both return, they do so in the same way, and so does `x'`. -/
def Agrees (x x' y : GoM Failure Cursor Unit) : Prop :=
  ∀ c c' c'', x c = .ok () c' → y c = .ok () c'' → c'' = c' ∧ x' c = .ok () c'

theorem Agrees.of_subsumed (h : Subsumed x y) :
  Agrees x x y
  := by
  intro c c' c'' hx hy
  cases (h _ _ _ hx).symm.trans hy
  exact ⟨rfl, hx⟩

variable {x' : GoM Failure Cursor Unit}

theorem Agrees.bind {f f' g : Unit → GoM Failure Cursor Unit} (hx : Agrees x x' y)
    (hf : Agrees (f ()) (f' ()) (g ())) :
  Agrees (x >>= f) (x' >>= f') (y >>= g)
  := by
  intro c c' c'' h h'
  obtain ⟨_, t, hx₁, hx₂⟩ := bind_eq_ok.mp h
  obtain ⟨_, t', hy₁, hy₂⟩ := bind_eq_ok.mp h'
  obtain ⟨rfl, hx'⟩ := hx _ _ _ hx₁ hy₁
  obtain ⟨rfl, hf'⟩ := hf _ _ _ hx₂ hy₂
  exact ⟨rfl, bind_eq_ok.mpr ⟨_, _, hx', hf'⟩⟩

theorem agrees_times (h : Agrees x x' y) (n : ℕ) :
  Agrees (times x n) (times x' n) (times y n)
  := by
  induction n with
  | zero => exact .of_subsumed fun _ _ _ => id
  | succ n ih => exact h.bind ih

theorem agrees_indefiniteContainer (h : Agrees x x' y) (room : ℕ) :
  Agrees (indefiniteContainer x room) (indefiniteContainer x' room) (untilBreak y room)
  := by
  induction room with
  | zero => exact .of_subsumed (subsumed_indefiniteContainer (fun _ _ _ => id) 0)
  | succ room ih =>
    intro c c' c'' hx hy
    rw [indefiniteContainer] at hx ⊢
    rw [untilBreak] at hy
    obtain ⟨b, t, htest, hx⟩ := bind_eq_ok.mp hx
    rw [bind_ok (located_eq_ok.mp htest)] at hy
    rw [bind_ok htest]
    cases b with
    | true => exact Agrees.of_subsumed (fun _ _ _ => id) _ _ _ hx hy
    | false => exact h.bind ih _ _ _ hx hy

theorem agrees_key (h : Agrees x x' y) :
  Agrees (p.key x) (p.key x') y
  := by
  intro c c' c'' hx hy
  rw [key, get_bind] at hx ⊢
  obtain ⟨kind, t, hkind, hx⟩ := bind_eq_ok.mp hx
  obtain rfl := peek_state (located_eq_ok.mp hkind)
  rw [bind_ok hkind]
  split at hx
  · exact absurd hx (by simp [failAt])
  · rename_i hkey
    rw [if_neg hkey]
    exact h _ _ _ hx hy

theorem agrees_pairs (h : Agrees x x' y) {inOrder : Option (List UInt8) → List UInt8 → Bool}
    {refusal : Cursor → Failure} (prev : Option (List UInt8)) (n : ℕ) :
  Agrees (pairs (p.key x) x inOrder refusal prev n) (pairs (p.key x') x' inOrder refusal prev n)
    (times y (n * 2))
  := by
  induction n generalizing prev with
  | zero => exact .of_subsumed fun _ _ _ => id
  | succ n ih =>
    intro c c' c'' hx hy
    rw [pairs, get_bind] at hx ⊢
    rw [Nat.add_mul, Nat.one_mul, times] at hy
    obtain ⟨_, t, hkey, hx⟩ := bind_eq_ok.mp hx
    obtain ⟨_, t', hy₁, hy⟩ := bind_eq_ok.mp hy
    obtain ⟨rfl, hkey'⟩ := agrees_key h _ _ _ hkey hy₁
    rw [get_bind] at hx
    rw [bind_ok hkey', get_bind]
    split at hx
    · rename_i horder
      rw [if_pos horder]
      exact h.bind (ih _) _ _ _ hx hy
    · cases hx

theorem agrees_arrayItem (hx : Agrees x x' y) {h : Head} :
  Agrees (arrayItem o x h) (arrayItem o x' h) (skipContainer { o with rejectFloats := true } y h 1)
  := by
  have hone : Agrees x x' (times y 1) := by
    intro c c' c'' hok hskip
    obtain ⟨_, t, hy, hpure⟩ := bind_eq_ok.mp hskip
    cases hpure
    exact hx _ _ _ hok hy
  rw [arrayItem, arrayItem, skipContainer]
  split
  · exact agrees_indefiniteContainer hone _
  split
  · exact fun _ _ _ hok => absurd hok (by simp)
  · rw [Nat.mul_one]
    exact agrees_times hx _

theorem agrees_mapItem (hx : Agrees x x' y) {h : Head} :
  Agrees (p.mapItem o x h) (({ p with rejectFloats := true } : Profile).mapItem o x' h)
    (skipContainer { o with rejectFloats := true } y h 2)
  := by
  rw [mapItem, mapItem, skipContainer]
  split
  · exact agrees_indefiniteContainer (agrees_times hx 2) _
  split
  · exact fun _ _ _ hok => absurd hok (by simp)
  · exact agrees_pairs hx _ _

/-- What a profile permits and a reader that refuses floats skips, the profile permits if it refuses
floats as well. -/
theorem agrees_itemBody (hx : Agrees x x' y) (h : Head) :
  Agrees (p.itemBody o x h) (({ p with rejectFloats := true } : Profile).itemBody o x' h)
    (skipBody { o with rejectFloats := true } y h)
  := by
  intro c c' c'' hok hskip
  rw [itemBody] at hok ⊢
  split at hok
  · cases hok
  rename_i hopen
  rw [if_neg hopen]
  split at hok
  · cases hok
  rename_i hindefinite
  rw [if_neg hindefinite]
  rw [skipBody] at hskip
  rcases hmajor : h.major with _ | _ | _ | _ | _ | _ | _ | n <;>
    simp only [hmajor] at hok hskip ⊢
  · rw [if_neg (fun hindef => hopen ⟨hindef, by simp [hmajor]⟩)] at hskip
    exact Agrees.of_subsumed (fun _ _ _ => id) _ _ _ hok hskip
  · rw [if_neg (fun hindef => hopen ⟨hindef, by simp [hmajor]⟩)] at hskip
    exact Agrees.of_subsumed (fun _ _ _ => id) _ _ _ hok hskip
  · exact Agrees.of_subsumed (subsumed_stringItem true h) _ _ _ hok hskip
  · exact Agrees.of_subsumed (subsumed_stringItem true h) _ _ _ hok hskip
  · exact agrees_arrayItem hx _ _ _ hok hskip
  · split at hok
    · cases hok
    rename_i hmaps
    rw [if_neg hmaps]
    exact agrees_mapItem hx _ _ _ hok hskip
  · rw [if_neg (fun hindef => hopen ⟨hindef, by simp [hmajor]⟩)] at hskip
    split at hok
    · cases hok
    rename_i htags
    rw [if_neg htags]
    exact hx _ _ _ hok hskip
  · split at hok
    · rename_i hai
      rw [if_pos hai]
      rcases hai with hai | hai | hai <;> simp only [hai] at hskip <;>
        exact Agrees.of_subsumed (fun _ _ _ => id) _ _ _ hok hskip
    · split at hok
      · rename_i hai
        rcases hai with hai | hai | hai <;> simp [hai] at hskip
      · cases hok

theorem agrees_item (levels : ℕ) :
  Agrees (p.item o levels) (({ p with rejectFloats := true } : Profile).item o levels)
    (skipItem { o with rejectFloats := true } levels)
  := by
  induction levels with
  | zero => exact fun _ _ _ h => absurd (located_eq_ok.mp h) (by simp)
  | succ levels ih =>
    intro c c' c'' hx hy
    obtain ⟨h, t, hhead, hx⟩ := bind_eq_ok.mp (located_eq_ok.mp hx)
    have hy' := located_eq_ok.mp hy
    rw [bind_ok hhead] at hy'
    obtain ⟨rfl, hx'⟩ := agrees_itemBody ih h _ _ _ hx hy'
    exact ⟨rfl, located_eq_ok.mpr (bind_eq_ok.mpr ⟨_, _, hhead, hx'⟩)⟩

theorem floatFree_of_permits {d : ℕ} (h : i.All deeper (p.Permits o) d)
    (hp : p.rejectFloats = true) :
  FloatFree i
  := by
  induction h with
  | @node d i here below ih =>
    refine .node (fun a hi => ?_) ih
    subst hi
    by_contra hai
    exact Bool.false_ne_true ((here.2.2 (not_lt.mp hai)).symm.trans hp)

/-- Data that `Validate` accepts is an item.  It can be skipped if and only if there is no float in
it or the options do not refuse floats. -/
theorem validate_skip_iff (p : Profile) (opts : DecoderOptions) (data : Slice)
    (h : p.validate data opts = .ok ()) :
  ∃ i : Item, i.Formed ∧ data.bytes = i.bytes
    ∧ (Skippable data opts ↔ (opts.rejectFloats = true → FloatFree i))
  := by
  obtain ⟨o, ho, i, hi, hall⟩ := (p.validate_eq_ok data opts).mp h
  have hformed : i.Formed := hall.formed fun _ _ h => h.1
  have hrefuses := ho
  rw [applyTo_eq] at hrefuses
  refine ⟨i, hformed, hi, fun hskip hfloats => ?_, fun hfree => ?_⟩
  · obtain ⟨o', c, ho', -, hskip, -⟩ := hskip
    have hopts : { opts with rejectFloats := true } = opts := by rw [← hfloats]
    rw [hfloats, Bool.true_or, hopts] at hrefuses
    have hnorm := normalize_refuses hrefuses true
    rw [hopts, hrefuses, Except.ok.injEq] at hnorm
    cases ho'.symm.trans hrefuses
    have hvalid : ({ p with rejectFloats := true } : Profile).validate data opts = .ok () := by
      rw [validate, ho] at h
      rw [validate, applyTo_eq, Bool.or_true, hopts, hrefuses]
      cases hitem : p.item o (o.maxNestedLevels + 1) (Cursor.start data) with
      | error e c => simp [hitem] at h
      | ok _ c =>
        rw [hnorm] at hskip
        obtain ⟨-, hitem'⟩ := agrees_item _ _ _ _ hitem (located_eq_ok.mp hskip)
        simp only [hitem] at h
        simpa only [hitem'] using h
    obtain ⟨_, -, i', hi', hall'⟩ := (validate_eq_ok data opts).mp hvalid
    have hformed' : i'.Formed := hall'.formed fun _ _ h => h.1
    rw [eq_of_bytes_eq hformed hformed' (hi.symm.trans hi')]
    exact floatFree_of_permits hall' rfl
  · by_cases hfloats : opts.rejectFloats = true
    · apply skippable_of_validate (p := { p with rejectFloats := true }) fun _ => rfl
      have hall' := permits_of_floatFree hall (hfree hfloats)
      refine (validate_eq_ok data opts).mpr ⟨_, ?_, _, hi, hall'⟩
      rw [applyTo_eq, Bool.or_true]
      exact normalize_refuses hrefuses true
    · exact skippable_of_validate (fun h => absurd h hfloats) h

/-- The map from 1 to `null` can be skipped by a reader that refuses floats. -/
theorem validate_skip_iff_map :
  let data : Slice := ⟨[0xa1, 0x01, 0xf6], by decide⟩
  let opts : DecoderOptions := { DecoderOptions.zero with rejectFloats := true }
  zero.validate data opts = .ok () ∧ Skippable data opts
  := by
  intro data opts
  have hvalid : zero.validate data opts = .ok () := by decide +kernel
  have hrefused : ({ zero with rejectFloats := true } : Profile).validate data opts = .ok () := by
    decide +kernel
  obtain ⟨i, hformed, hi, hiff⟩ := validate_skip_iff zero opts data hvalid
  obtain ⟨_, -, i', hi', hall'⟩ := (validate_eq_ok data opts).mp hrefused
  obtain rfl := eq_of_bytes_eq hformed (hall'.formed fun _ _ h => h.1) (hi.symm.trans hi')
  exact ⟨hvalid, hiff.mpr fun _ => floatFree_of_permits hall' rfl⟩

/-- The profile without restrictions accepts the float 1.0 under options that refuse floats, with
which a reader does not skip it. -/
theorem validate_float_refused :
  let data : Slice := ⟨[0xf9, 0x3c, 0x00], by decide⟩
  let opts : DecoderOptions := { DecoderOptions.zero with rejectFloats := true }
  let o : Limits := { Limits.default with rejectFloats := true }
  zero.validate data opts = .ok () ∧ normalizeDecoderOptions opts = .ok o
    ∧ ∃ c, skip o (Cursor.start data) = .error (.fail ⟨some 0, .floatRefused⟩) c
  := ⟨by decide +kernel, rfl, _, rfl⟩

end Profile

end Cbor
