import TinyGoDriver.Cbor.Profile

/-!
# `Encoder`

`Encoder` writes items in their deterministic form.  An item that a caller has encoded goes through
`validateRaw`, which walks it with a `deterministicParser`: arguments as short as they can be,
floats in the shortest precision that holds them, no indefinite lengths, valid text, and the keys of
a map in the order of the options.  `validateRaw_eq_ok` says which bytes pass.

`Canonical` and `Deterministic` are the profiles of the same form.  They look at the order of keys
and at indefinite lengths only.
-/

namespace Cbor

open GoRt Ieee Reads

structure EncoderOptions where
  maxNestedLevels : Int64
  maxContainerItems : Int64
  maxStringBytes : Int64
  keyOrder : KeyOrder
  deriving DecidableEq, Repr

/-- `EncoderOptions` as `NewEncoder` leaves them. -/
structure EncoderLimits where
  maxNestedLevels : ℕ
  maxContainerItems : ℕ
  maxStringBytes : ℕ
  keyOrder : KeyOrder
  string_le : maxStringBytes ≤ maxSliceLen
  deriving Repr

/-- `Encoder`, with what its writer has received. -/
structure Encoder where
  opts : EncoderLimits
  written : List UInt8
  deriving Repr

def newEncoder (o : EncoderOptions) : Go Err Encoder :=
  if o.maxNestedLevels < 0 ∨ o.maxContainerItems < 0 ∨ o.maxStringBytes < 0 then
    .error (.fail .negativeLimits)
  else
    .ok
      { opts :=
          { maxNestedLevels := orDefault o.maxNestedLevels 10000
            maxContainerItems := orDefault o.maxContainerItems 4096
            maxStringBytes := orDefault o.maxStringBytes (2 ^ 20)
            keyOrder := o.keyOrder
            string_le := orDefault_le _ (by decide) }
        written := [] }

/-! ### The deterministic form -/

namespace DeterministicParser

/-- The argument `arg` could be written in fewer bytes than with `ai`. -/
def nonMinimal (ai arg : ℕ) : Bool :=
  (ai == 24 && arg < 24) || (ai == 25 && arg ≤ 0xff) || (ai == 26 && arg ≤ 0xffff)
    || (ai == 27 && arg ≤ 0xffffffff)

/-- `deterministicParser.head` after the first byte. -/
def headArg (major ai : ℕ) : GoM Err Cursor Head :=
  if ai < 24 then
    pure ⟨major, ai, ai⟩
  else if ai ≤ 27 then do
    let v ← take (2 ^ (ai - 24) : ℕ)
    if major ≠ 7 ∧ nonMinimal ai (beNat v) then
      GoM.fail (.malformed .nonMinimal)
    else
      pure ⟨major, ai, beNat v⟩
  else
    GoM.fail (.malformed .indefiniteOrReserved)

/-- `deterministicParser.head` -/
def head : GoM Err Cursor Head := do
  let b ← nextByte
  headArg (b.toNat / 32) (b.toNat % 32)

variable (o : EncoderLimits)

/-- The strings of `deterministicParser.item`. -/
def stringItem (h : Head) : GoM Err Cursor Unit :=
  if o.maxStringBytes < h.arg ∨ maxSliceLen < h.arg then
    GoM.fail (.limitExceeded .stringBytes)
  else do
    let b ← take (toInt h.arg)
    if h.major = 3 ∧ utf8Valid b = false then
      GoM.fail (.malformed .invalidUtf8)
    else
      pure ()

/-- The simple values of `deterministicParser.item`; `head` has read the bits of a float as the
argument. -/
def simpleItem (h : Head) : GoM Err Cursor Unit :=
  if h.ai = 20 ∨ h.ai = 21 ∨ h.ai = 22 then
    pure ()
  else if h.ai = 25 then
    if isNaN (float16 h.arg) = true ∧ h.arg ≠ 0x7e00 then
      GoM.fail (.malformed .nonCanonicalNaN)
    else
      pure ()
  else if h.ai = 26 then
    if isNaN (float64OfSingle h.arg) = true then
      GoM.fail (.malformed .nonCanonicalNaN)
    else if (exactHalf (float64OfSingle h.arg)).isSome = true then
      GoM.fail (.malformed .floatNotShortest)
    else
      pure ()
  else if h.ai = 27 then
    if isNaN h.arg = true then
      GoM.fail (.malformed .nonCanonicalNaN)
    else if Format.double.same (float64OfSingle (singleOfFloat64 h.arg)) h.arg = true then
      GoM.fail (.malformed .floatNotShortest)
    else
      pure ()
  else
    GoM.fail (.malformed (.unsupportedSimple h.ai))

/-- `deterministicParser.item` after the head, with `below` for `item(depth + 1)` if
`MaxNestedLevels` allows another level. -/
def itemBody (below : Option (GoM Err Cursor Unit)) (h : Head) : GoM Err Cursor Unit :=
  match h.major with
  | 0 | 1 => pure ()
  | 2 | 3 => stringItem o h
  | 4 =>
    match below with
    | none => GoM.fail (.limitExceeded .nestingDepth)
    | some item =>
      if o.maxContainerItems < h.arg then
        GoM.fail (.limitExceeded .arrayItems)
      else
        times item h.arg
  | 5 =>
    match below with
    | none => GoM.fail (.limitExceeded .nestingDepth)
    | some item =>
      if o.maxContainerItems < h.arg then
        GoM.fail (.limitExceeded .mapPairs)
      else
        pairs item item (ordered true o.keyOrder) (fun _ => .malformed (.keyOrder o.keyOrder))
          none h.arg
  | 6 =>
    match below with
    | none => GoM.fail (.limitExceeded .nestingDepth)
    | some item => item
  | _ => simpleItem h

/-- `deterministicParser.item`, called with how many levels `MaxNestedLevels` still allows. -/
def item : ℕ → GoM Err Cursor Unit
  | 0 => head >>= itemBody o none
  | levels + 1 => head >>= itemBody o (some (item levels))

end DeterministicParser

namespace Encoder

/-- `Encoder.validateRaw` -/
def validateRaw (o : EncoderLimits) (raw : Slice) : Go Err Unit :=
  if raw.bytes = [] then
    .error (.fail .truncated)
  else
    match DeterministicParser.item o o.maxNestedLevels (Cursor.start raw) with
    | .error e _ => .error e
    | .ok _ c =>
      if c.off ≠ raw.bytes.length then .error (.fail .extraneousData) else .ok ()

/-- `Encoder.write`, to a writer that takes what it is given. -/
def write (p : List UInt8) : GoM Err Encoder Unit :=
  modify fun e => { e with written := e.written ++ p }

/-- `Encoder.WriteRaw` -/
def writeRaw (raw : Slice) : GoM Err Encoder Unit := do
  let e ← get
  GoM.call (validateRaw e.opts raw)
  write raw.bytes

end Encoder

/-! ### What passes as deterministic -/

variable {d : ℕ} {opts : DecoderOptions} {o : Limits} {order : KeyOrder} {e : EncoderLimits}

namespace DeterministicParser

/-- What `deterministicParser.head` demands of a head. -/
def PermitsHead (h : Head) : Prop :=
  h.indefinite = false ∧ (h.major ≠ 7 → nonMinimal h.ai h.arg = false)

variable {ai : ℕ}

theorem nonMinimal_of_lt {arg : ℕ} (h : ai < 24) :
  nonMinimal ai arg = false
  := by
  simp [nonMinimal]
  omega

theorem headArg_eq_ok {major : ℕ} {c c' : Cursor} {h : Head} :
  headArg major ai c = .ok h c' ↔ Cbor.headArg major ai c = .ok h c' ∧ PermitsHead h
  := by
  rw [headArg, Cbor.headArg]
  split
  · rename_i hlt
    simp only [GoM.pure_apply, EStateM.Result.ok.injEq]
    refine ⟨?_, And.left⟩
    rintro ⟨rfl, rfl⟩
    exact ⟨⟨rfl, rfl⟩, by simp [Head.indefinite]; omega, fun _ => nonMinimal_of_lt hlt⟩
  split
  · simp only [GoM.bind_eq_ok]
    constructor
    · rintro ⟨v, t, hv, h⟩
      split at h
      · cases h
      rename_i hmin
      simp only [GoM.pure_apply, EStateM.Result.ok.injEq] at h
      obtain ⟨rfl, rfl⟩ := h
      refine ⟨⟨v, t, hv, rfl⟩, by simp [Head.indefinite]; omega, fun hmajor => ?_⟩
      rw [← Bool.not_eq_true]
      exact fun h => hmin ⟨hmajor, h⟩
    · rintro ⟨⟨v, t, hv, h⟩, -, hmin⟩
      simp only [GoM.pure_apply, EStateM.Result.ok.injEq] at h
      obtain ⟨rfl, rfl⟩ := h
      refine ⟨v, t, hv, ?_⟩
      rw [if_neg (fun h => by simp [hmin h.1] at h)]
      rfl
  · refine iff_of_false (by simp) ?_
    rintro ⟨h, hdef, -⟩
    split at h
    · rename_i h31
      simp only [GoM.pure_apply, EStateM.Result.ok.injEq] at h
      rw [← h.1] at hdef
      simp [Head.indefinite, h31] at hdef
    · cases h

theorem reads_head :
  Reads cursorFeed head (fun h l => h.Valid ∧ PermitsHead h ∧ l = h.bytes)
  := by
  intro c h c'
  have hok : head c = .ok h c' ↔ Cbor.head c = .ok h c' ∧ PermitsHead h := by
    simp only [head, Cbor.head, GoM.bind_eq_ok, headArg_eq_ok]
    constructor
    · rintro ⟨b, t, hb, harg, hpermits⟩
      exact ⟨⟨b, t, hb, harg⟩, hpermits⟩
    · rintro ⟨⟨b, t, hb, harg⟩, hpermits⟩
      exact ⟨b, t, hb, harg, hpermits⟩
  rw [hok, Cbor.reads_head c h c']
  constructor
  · rintro ⟨⟨l, hstep, hv, rfl⟩, hpermits⟩
    exact ⟨_, hstep, hv, hpermits, rfl⟩
  · rintro ⟨_, hstep, hv, hpermits, rfl⟩
    exact ⟨⟨_, hstep, hv, rfl⟩, hpermits⟩

theorem nonMinimal_eq_false {arg : ℕ} :
  nonMinimal ai arg = false ↔ (ai = 24 → 24 ≤ arg) ∧ (ai = 25 → 2 ^ 8 ≤ arg)
    ∧ (ai = 26 → 2 ^ 16 ≤ arg) ∧ (ai = 27 → 2 ^ 32 ≤ arg)
  := by
  simp [nonMinimal]
  omega

/-- A float is written as `deterministicParser.item` demands. -/
def PermitsSimple (a : Arg) : Prop :=
  (a.ai = 25 → isNaN (float16 a.val) = true → a.val = 0x7e00)
    ∧ (a.ai = 26 → isNaN (float64OfSingle a.val) = false ∧ exactHalf (float64OfSingle a.val) = none)
    ∧ (a.ai = 27 → isNaN a.val = false
      ∧ Format.double.same (float64OfSingle (singleOfFloat64 a.val)) a.val = false)

/-- What `deterministicParser.item` demands of a node after its head, with `d` levels above it. -/
def PermitsNode (o : EncoderLimits) (d : ℕ) : Item → Prop
  | .number _ _ => True
  | .string text _ payload =>
    payload.length ≤ o.maxStringBytes ∧ (text = true → utf8Valid payload = true)
  | .chunked _ _ => False
  | .container isMap a elements =>
    d < o.maxNestedLevels ∧ a.val ≤ o.maxContainerItems
      ∧ (isMap = true → ((Item.keysOf elements).map Item.bytes).Pairwise o.keyOrder.Before)
  | .unbounded _ _ => False
  | .tagged _ _ => d < o.maxNestedLevels
  | .simple a => PermitsSimple a

/-- What `deterministicParser.item` demands of a node with `d` levels above it. -/
def Permits (o : EncoderLimits) (d : ℕ) (i : Item) : Prop :=
  i.Shaped ∧ PermitsHead i.head ∧ PermitsNode o d i

variable {o : EncoderLimits} {x : GoM Err Cursor Unit} {Q : Item → Prop}

theorem reads_stringItem (m : ℕ) (a : Arg) :
  Reads cursorFeed (stringItem o (a.head m))
    (fun _ l => l.length = a.val ∧ l.length ≤ o.maxStringBytes ∧ (m = 3 → utf8Valid l = true))
  := by
  have hmax := o.string_le
  have hval : (a.head m).arg = a.val := rfl
  have hmajor : (a.head m).major = m := rfl
  rw [stringItem, hmajor]
  refine (ite (fun _ => fail _) fun hlimit => (reads_take_toInt (by omega)).bind
    fun b _ => ite (fun _ => fail _) fun _ => pure ()).congr fun _ l => ?_
  simp only [and_false, false_or]
  constructor
  · rintro ⟨hlimit, b, l, r, rfl, ⟨rfl, hlen⟩, hutf8, -, rfl⟩
    rw [List.append_nil]
    exact ⟨hlen, by omega, fun h => by simpa [h] using hutf8⟩
  · rintro ⟨hlen, hle, hutf8⟩
    refine ⟨by omega, l, l, [], by simp, ⟨rfl, hlen⟩, ?_, trivial, rfl⟩
    rintro ⟨h, hbad⟩
    rw [hutf8 h] at hbad
    cases hbad

theorem reads_simpleItem (a : Arg) :
  Reads cursorFeed (simpleItem (a.head 7))
    (fun _ l => l = [] ∧ a.ai ∈ [20, 21, 22, 25, 26, 27] ∧ PermitsSimple a)
  := by
  have hai : (a.head 7).ai = a.ai := rfl
  rw [simpleItem, hai]
  by_cases h20 : a.ai = 20 ∨ a.ai = 21 ∨ a.ai = 22
  · rw [if_pos h20]
    refine (pure ()).congr fun _ l => ?_
    have hshort : PermitsSimple a := ⟨by omega, by omega, by omega⟩
    have hmem : a.ai ∈ [20, 21, 22, 25, 26, 27] := by
      simp only [List.mem_cons, List.not_mem_nil, or_false]
      omega
    simp [hshort, hmem]
  rw [if_neg h20]
  by_cases h25 : a.ai = 25
  · rw [if_pos h25]
    refine (ite (fun _ => fail _) fun _ => pure ()).congr fun _ l => ?_
    simp only [PermitsSimple, h25, and_false, false_or, true_and]
    tauto
  rw [if_neg h25]
  by_cases h26 : a.ai = 26
  · rw [if_pos h26]
    refine (ite (fun _ => fail _) fun _ => ite (fun _ => fail _)
      fun _ => pure ()).congr fun _ l => ?_
    simp only [PermitsSimple, h26, and_false, false_or, true_and]
    simp
    tauto
  rw [if_neg h26]
  by_cases h27 : a.ai = 27
  · rw [if_pos h27]
    refine (ite (fun _ => fail _) fun _ => ite (fun _ => fail _)
      fun _ => pure ()).congr fun _ l => ?_
    simp only [PermitsSimple, h27, and_false, false_or, true_and]
    simp
    tauto
  rw [if_neg h27]
  refine (fail _).congr fun _ l => iff_of_false id ?_
  rintro ⟨-, hmem, -⟩
  simp only [List.mem_cons, List.not_mem_nil, or_false] at hmem
  omega

/-- What `item` takes after a head. -/
theorem reads_itemBody {below : Option (GoM Err Cursor Unit)}
    (hnone : below = none → o.maxNestedLevels ≤ d)
    (hsome : ∀ x, below = some x → d < o.maxNestedLevels
      ∧ Reads cursorFeed x (fun _ l => ∃ i : Item, l = i.bytes ∧ Q i))
    (h : Head) (hv : h.Valid) (hh : PermitsHead h) :
  Reads cursorFeed (itemBody o below h)
    (fun _ => Spells (fun i => i.Shaped ∧ PermitsNode o d i ∧ ∀ j ∈ i.children, Q j) h)
  := by
  unfold itemBody
  rcases hv.cases with ⟨m, a, hm, rfl⟩ | ⟨m, hm, rfl⟩
  · have hval : (a.head m).arg = a.val := rfl
    rw [hval]
    interval_cases m
    · refine (pure ()).congr fun _ l => Iff.trans ?_ (spells_number false).symm
      simp [Item.Shaped, PermitsNode, Item.children]
    · refine (pure ()).congr fun _ l => Iff.trans ?_ (spells_number true).symm
      simp [Item.Shaped, PermitsNode, Item.children]
    · refine (reads_stringItem 2 a).congr fun _ l => Iff.trans ?_ (spells_string false).symm
      simp [Item.Shaped, PermitsNode, Item.children]
    · refine (reads_stringItem 3 a).congr fun _ l => Iff.trans ?_ (spells_string true).symm
      simp [Item.Shaped, PermitsNode, Item.children]
    · cases below with
      | none =>
        refine (fail _).congr fun _ l => Iff.trans ?_ (spells_container false).symm
        refine iff_of_false id ?_
        rintro ⟨elements, -, -, ⟨hlevel, -⟩, -⟩
        exact absurd hlevel (hnone rfl).not_gt
      | some x =>
        obtain ⟨hlevel, hx⟩ := hsome x rfl
        refine (ite (fun _ => fail _) fun _ => reads_times hx _).congr
          fun _ l => Iff.trans ?_ (spells_container false).symm
        rw [exists_bytesAll (R := (· = a.val))]
        simp only [and_false, false_or, not_lt]
        constructor
        · rintro ⟨hle, elements, hlen, hQ, rfl⟩
          exact ⟨elements, rfl, hlen, ⟨hlevel, hle, by simp⟩, hQ⟩
        · rintro ⟨elements, rfl, hlen, ⟨-, hle, -⟩, hQ⟩
          exact ⟨hle, elements, hlen, hQ, rfl⟩
    · cases below with
      | none =>
        refine (fail _).congr fun _ l => Iff.trans ?_ (spells_container true).symm
        refine iff_of_false id ?_
        rintro ⟨elements, -, -, ⟨hlevel, -⟩, -⟩
        exact absurd hlevel (hnone rfl).not_gt
      | some x =>
        obtain ⟨hlevel, hx⟩ := hsome x rfl
        have hkey : Reads cursorFeed x (fun _ l => ∃ i : Item, l = i.bytes ∧ Q i ∧ True) :=
          hx.congr fun _ l => by simp only [and_true]
        refine (ite (fun _ => fail _) fun _ => reads_pairs hkey hx none _).congr
          fun _ l => Iff.trans ?_ (spells_container true).symm
        rw [exists_entries]
        simp only [and_false, false_or, not_lt, chained_ordered]
        constructor
        · rintro ⟨hle, elements, hlen, hQ, -, hsorted, rfl⟩
          exact ⟨elements, rfl, hlen, ⟨hlevel, hle, fun _ => hsorted trivial⟩, hQ⟩
        · rintro ⟨elements, rfl, hlen, ⟨-, hle, hsorted⟩, hQ⟩
          exact ⟨hle, elements, hlen, hQ, by simp, fun _ => hsorted rfl, rfl⟩
    · cases below with
      | none =>
        refine (fail _).congr fun _ l => Iff.trans ?_ spells_tagged.symm
        refine iff_of_false id ?_
        rintro ⟨content, -, -, hlevel, -⟩
        exact absurd hlevel (hnone rfl).not_gt
      | some x =>
        obtain ⟨hlevel, hx⟩ := hsome x rfl
        refine hx.congr fun _ l => Iff.trans ?_ spells_tagged.symm
        constructor
        · rintro ⟨i, rfl, hi⟩
          exact ⟨i, rfl, trivial, hlevel, by simpa [Item.children] using hi⟩
        · rintro ⟨i, rfl, -, -, hi⟩
          exact ⟨i, rfl, hi i (by simp [Item.children])⟩
    · refine (reads_simpleItem a).congr fun _ l => Iff.trans ?_ spells_simple.symm
      simp [Item.Shaped, PermitsNode, Item.children]
  · exact absurd hh.1 (by simp)

/-- `item` takes the items in deterministic form. -/
theorem reads_item (d levels : ℕ) (h : d + levels = o.maxNestedLevels) :
  Reads cursorFeed (item o levels)
    (fun _ l => ∃ i : Item, l = i.bytes ∧ i.All deeper (Permits o) d)
  := by
  induction levels generalizing d with
  | zero =>
    refine (reads_item_where reads_head fun h hv hh => ?_).congr fun _ l => hall l
    refine reads_itemBody (fun _ => ?_) (by simp) h hv hh
    omega
  | succ levels ih =>
    refine (reads_item_where reads_head fun h hv hh => ?_).congr fun _ l => hall l
    refine reads_itemBody (by simp) (fun x hx => ?_) h hv hh
    cases hx
    exact ⟨by omega, ih (d + 1) (by omega)⟩
where
  /-- The condition on an item is the one on its head, its node and its children. -/
  hall {d : ℕ} (l : List UInt8) :
    (∃ i : Item, l = i.bytes ∧ PermitsHead i.head ∧ i.Shaped ∧ PermitsNode o d i
        ∧ ∀ j ∈ i.children, j.All deeper (Permits o) (d + 1))
      ↔ ∃ i : Item, l = i.bytes ∧ i.All deeper (Permits o) d := by
    refine exists_congr fun i => and_congr_right fun _ => ?_
    rw [Item.all_iff]
    constructor
    · rintro ⟨hhead, hshaped, hnode, hbelow⟩
      exact ⟨⟨hshaped, hhead, hnode⟩, hbelow⟩
    · rintro ⟨⟨hshaped, hhead, hnode⟩, hbelow⟩
      exact ⟨hhead, hshaped, hnode, hbelow⟩

end DeterministicParser

/-- `validateRaw` accepts the spellings of items in deterministic form. -/
theorem Encoder.validateRaw_eq_ok (o : EncoderLimits) (raw : Slice) :
  Encoder.validateRaw o raw = .ok ()
    ↔ ∃ i : Item, raw.bytes = i.bytes ∧ i.All deeper (DeterministicParser.Permits o) 0
  := by
  have hwhole := reads_whole (DeterministicParser.reads_item (o := o) 0 _ (Nat.zero_add _)) raw
  rw [Encoder.validateRaw, ← hwhole]
  split
  · rename_i hnil
    refine iff_of_false (by simp) ?_
    rw [hwhole]
    rintro ⟨i, hbytes, -⟩
    exact i.bytes_ne_nil (hbytes.symm.trans hnil)
  cases hitem : DeterministicParser.item o o.maxNestedLevels (Cursor.start raw) with
  | error e c => simp
  | ok u c =>
    dsimp only
    split
    · rename_i hoff
      simp [hoff]
    · rename_i hoff
      simpa using hoff

theorem Encoder.writeRaw_eq_ok (e e' : Encoder) (raw : Slice) :
  Encoder.writeRaw raw e = .ok () e'
    ↔ Encoder.validateRaw e.opts raw = .ok () ∧ e' = { e with written := e.written ++ raw.bytes }
  := by
  rw [Encoder.writeRaw, GoM.get_bind]
  cases h : Encoder.validateRaw e.opts raw with
  | error err => simp [GoM.bind_eq_ok]
  | ok u =>
    rw [GoM.bind_ok (GoM.call_ok u e), Encoder.write]
    simp [eq_comm]

/-! ### The profiles of the deterministic form -/

/-- `Canonical` or `Deterministic`, by the order of keys. -/
def Profile.ofOrder : KeyOrder → Profile
  | .lengthFirst => .canonical
  | .bytewise => .deterministic

/-- The options of an encoder with the limits of a decoder. -/
def DecoderOptions.toEncoder (opts : DecoderOptions) (order : KeyOrder) : EncoderOptions :=
  ⟨opts.maxNestedLevels, opts.maxContainerItems, opts.maxStringBytes, order⟩

/-- A new encoder takes `raw` in `WriteRaw`. -/
def Encoder.Accepts (opts : EncoderOptions) (raw : Slice) : Prop :=
  ∃ e e', newEncoder opts = .ok e ∧ Encoder.writeRaw raw e = .ok () e'

/-- What the profiles do not look at: arguments and floats as short as they can be, text that is
UTF-8, and a container (an empty one) that would be one level too deep. -/
def SpelledShortest (levels d : ℕ) : Item → Prop
  | .number _ a => DeterministicParser.nonMinimal a.ai a.val = false
  | .string text a payload =>
    DeterministicParser.nonMinimal a.ai a.val = false ∧ (text = true → utf8Valid payload = true)
  | .chunked _ _ => True
  | .container _ a _ => DeterministicParser.nonMinimal a.ai a.val = false ∧ d < levels
  | .unbounded _ _ => True
  | .tagged a _ => DeterministicParser.nonMinimal a.ai a.val = false ∧ d < levels
  | .simple a => DeterministicParser.PermitsSimple a

/-- The options of the encoder are those of the decoder. -/
structure SameLimits (e : EncoderLimits) (o : Limits) (order : KeyOrder) : Prop where
  nested : e.maxNestedLevels = o.maxNestedLevels
  container : e.maxContainerItems = o.maxContainerItems
  string : e.maxStringBytes = o.maxStringBytes
  order : e.keyOrder = order

/-- Options that a decoder takes, an encoder takes. -/
theorem newEncoder_of_normalize (order : KeyOrder) (h : normalizeDecoderOptions opts = .ok o) :
  ∃ e, newEncoder (opts.toEncoder order) = .ok e ∧ SameLimits e.opts o order
  := by
  rw [normalizeDecoderOptions] at h
  split at h
  · cases h
  split at h
  · cases h
    rw [newEncoder, if_neg (by
      tauto)]
    exact ⟨_, rfl, rfl, rfl, rfl, rfl⟩
  · cases h

theorem Encoder.accepts_iff {opts : EncoderOptions} {raw : Slice} :
  Encoder.Accepts opts raw ↔ ∃ e, newEncoder opts = .ok e
    ∧ ∃ i : Item, raw.bytes = i.bytes ∧ i.All deeper (DeterministicParser.Permits e.opts) 0
  := by
  simp only [Encoder.Accepts, Encoder.writeRaw_eq_ok, Encoder.validateRaw_eq_ok]
  constructor
  · rintro ⟨e, e', he, hi, -⟩
    exact ⟨e, he, hi⟩
  · rintro ⟨e, he, hi⟩
    exact ⟨e, _, he, hi, rfl⟩

theorem DeterministicParser.permitsHead_arg {m : ℕ} {a : Arg} :
  DeterministicParser.PermitsHead (a.head m)
    ↔ (m ≠ 7 → DeterministicParser.nonMinimal a.ai a.val = false)
  := by
  simp [DeterministicParser.PermitsHead, Arg.head, Head.indefinite]
  have := a.fits.ai_lt
  omega

/-- `Canonical` and `Deterministic` require sorted keys and definite lengths, and nothing else. -/
theorem Profile.permitsNode_ofOrder {i : Item} :
  (Profile.ofOrder order).PermitsNode o i ↔ match i with
    | .number _ _ => True
    | .string _ _ payload => payload.length ≤ o.maxStringBytes
    | .chunked _ _ => False
    | .container isMap a elements => a.val ≤ o.maxContainerItems
        ∧ (isMap = true → ((Item.keysOf elements).map Item.bytes).Pairwise order.Before)
    | .unbounded _ _ => False
    | .tagged _ _ => True
    | .simple _ => True
  := by
  cases order <;> cases i <;>
    simp [Profile.PermitsNode, Profile.PermitsKeys, Profile.ofOrder, Profile.canonical,
      Profile.deterministic, Profile.zero]

/-- At a node, the encoder demands what the profile does and a short spelling. -/
theorem permits_iff (h : SameLimits e o order) (hd : d ≤ o.maxNestedLevels) (i : Item) :
  DeterministicParser.Permits e d i
    ↔ (Profile.ofOrder order).Permits o d i ∧ SpelledShortest o.maxNestedLevels d i
  := by
  rw [DeterministicParser.Permits, Profile.Permits, Profile.permitsNode_ofOrder]
  cases i with
  | number negative a =>
    cases negative <;> simp [Item.head, DeterministicParser.permitsHead_arg,
      DeterministicParser.PermitsNode, SpelledShortest, hd]
  | string text a payload =>
    cases text <;> simp [Item.head, DeterministicParser.permitsHead_arg,
      DeterministicParser.PermitsNode, SpelledShortest, hd, h.string] <;> tauto
  | chunked text chunks | unbounded isMap elements => simp [DeterministicParser.PermitsNode]
  | container isMap a elements =>
    cases isMap <;> simp [Item.head, DeterministicParser.permitsHead_arg,
      DeterministicParser.PermitsNode, SpelledShortest, hd, h.nested, h.container, h.order] <;>
      tauto
  | tagged a content =>
    simp [Item.head, DeterministicParser.permitsHead_arg, DeterministicParser.PermitsNode,
      SpelledShortest, hd, h.nested]
  | simple a =>
    simp [Item.head, DeterministicParser.permitsHead_arg, DeterministicParser.PermitsNode,
      SpelledShortest, hd]

/-- In an item, the encoder demands what the profile does and a short spelling throughout. -/
theorem all_permits_iff (h : SameLimits e o order) (hd : d ≤ o.maxNestedLevels) (i : Item) :
  i.All deeper (DeterministicParser.Permits e) d
    ↔ i.All deeper ((Profile.ofOrder order).Permits o) d
      ∧ i.All deeper (SpelledShortest o.maxNestedLevels) d
  := by
  rw [← Item.all_and]
  induction i using Item.induction_children generalizing d with
  | step i ih =>
    rw [Item.all_iff, Item.all_iff, permits_iff h hd]
    refine and_congr_right fun hnode => forall₂_congr fun j hj => ih j hj ?_
    -- a node with children is not on the last level
    have hlevel : d < o.maxNestedLevels := by
      have hshort := hnode.2
      have hpermits := Profile.permitsNode_ofOrder.mp hnode.1.2.2
      cases i with
      | container isMap a elements | tagged a content => exact hshort.2
      | unbounded isMap elements => exact hpermits.elim
      | _ => simp [Item.children] at hj
    exact hlevel

theorem Profile.validate_ofOrder {data : Slice} :
  (Profile.ofOrder order).validate data opts = .ok () ↔ ∃ o, normalizeDecoderOptions opts = .ok o
    ∧ ∃ i : Item, data.bytes = i.bytes ∧ i.All deeper ((Profile.ofOrder order).Permits o) 0
  := by
  have happly : (Profile.ofOrder order).applyTo opts = opts := by
    cases order <;> rfl
  rw [Profile.validate_eq_ok, happly]

theorem maxNestedLevels_of_normalize (h : normalizeDecoderOptions opts = .ok o) :
  o.maxNestedLevels = orDefault opts.maxNestedLevels 10000
  := by
  rw [normalizeDecoderOptions] at h
  split at h
  · cases h
  split at h
  · rw [← Except.ok.inj h]
  · cases h

/-- Under options that a decoder takes, an encoder accepts what `Canonical` or `Deterministic`, by
its order of keys, accepts and what moreover is spelled as shortly as it can be. -/
theorem ofOrder_validate_iff_writeRaw (order : KeyOrder) (data : Slice) (opts : DecoderOptions) :
  ((Profile.ofOrder order).validate data opts = .ok ()
      ∧ ∀ i : Item, i.Formed → data.bytes = i.bytes →
        i.All deeper (SpelledShortest (orDefault opts.maxNestedLevels 10000)) 0)
    ↔ (∃ o, normalizeDecoderOptions opts = .ok o) ∧ Encoder.Accepts (opts.toEncoder order) data
  := by
  rw [Profile.validate_ofOrder, Encoder.accepts_iff]
  constructor
  · rintro ⟨⟨o, ho, i, hbytes, hi⟩, hshort⟩
    obtain ⟨e, he, hsame⟩ := newEncoder_of_normalize order ho
    have hshort := hshort i (hi.formed fun _ _ h => h.1) hbytes
    rw [← maxNestedLevels_of_normalize ho] at hshort
    exact ⟨⟨o, ho⟩, e, he, i, hbytes, (all_permits_iff hsame (Nat.zero_le _) i).mpr ⟨hi, hshort⟩⟩
  · rintro ⟨⟨o, ho⟩, e, he, i, hbytes, hi⟩
    obtain ⟨e', he', hsame⟩ := newEncoder_of_normalize order ho
    obtain rfl := Except.ok.inj (he'.symm.trans he)
    obtain ⟨hpermits, hshort⟩ := (all_permits_iff hsame (Nat.zero_le _) i).mp hi
    rw [maxNestedLevels_of_normalize ho] at hshort
    refine ⟨⟨o, ho, i, hbytes, hpermits⟩, fun j hj hbytes' => ?_⟩
    -- the bytes spell one item only
    obtain rfl := Item.eq_of_bytes_eq (hi.formed fun _ _ h => h.1) hj (hbytes.symm.trans hbytes')
    exact hshort

/-- `Canonical` accepts, and the encoder does not accept, the integer 5 in two bytes, the float 1 in
double precision, a text string that is not UTF-8, and an empty array one level too deep;
`Deterministic` likewise accepts the integer. -/
theorem canonical_accepts_more :
  let levels : DecoderOptions := { DecoderOptions.zero with maxNestedLevels := 1 }
  let five : Slice := ⟨[0x18, 0x05], by decide⟩
  let one : Slice := ⟨[0xfb, 0x3f, 0xf0, 0, 0, 0, 0, 0, 0], by decide⟩
  let text : Slice := ⟨[0x61, 0xff], by decide⟩
  let nested : Slice := ⟨[0x81, 0x80], by decide⟩
  (Profile.canonical.validate five .zero = .ok ()
      ∧ ¬ Encoder.Accepts (DecoderOptions.zero.toEncoder .lengthFirst) five)
    ∧ (Profile.canonical.validate one .zero = .ok ()
      ∧ ¬ Encoder.Accepts (DecoderOptions.zero.toEncoder .lengthFirst) one)
    ∧ (Profile.canonical.validate text .zero = .ok ()
      ∧ ¬ Encoder.Accepts (DecoderOptions.zero.toEncoder .lengthFirst) text)
    ∧ (Profile.canonical.validate nested levels = .ok ()
      ∧ ¬ Encoder.Accepts (levels.toEncoder .lengthFirst) nested)
    ∧ (Profile.deterministic.validate five .zero = .ok ()
      ∧ ¬ Encoder.Accepts (DecoderOptions.zero.toEncoder .bytewise) five)
  := by
  have hnot : ∀ {opts : EncoderOptions} {raw : Slice} {e : Encoder}, newEncoder opts = .ok e →
      Encoder.validateRaw e.opts raw ≠ .ok () → ¬ Encoder.Accepts opts raw := by
    rintro opts raw e he hraw ⟨e', e'', he', hwrite⟩
    obtain rfl := Except.ok.inj (he.symm.trans he')
    exact hraw ((Encoder.writeRaw_eq_ok e e'' raw).mp hwrite).1
  refine ⟨⟨?_, hnot rfl ?_⟩, ⟨?_, hnot rfl ?_⟩, ⟨?_, hnot rfl ?_⟩, ⟨?_, hnot rfl ?_⟩,
    ⟨?_, hnot rfl ?_⟩⟩ <;> decide +kernel

end Cbor
