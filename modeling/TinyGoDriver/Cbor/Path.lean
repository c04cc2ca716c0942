import TinyGoDriver.Cbor.Reader
import TinyGoDriver.Go.Reads

/-!
# The route to a failing item

When a call of a `Reader` fails at an offset, `Reader.at` walks the input again from the start to
describe the route to that offset.  The walk reads heads and strings as the calls do, so that it
can go wrong where they can: `take` adds the length of a string to the offset as an `int`.

A `Step` is one call of a `Reader`, with its walk, and `trace` the results of a sequence of calls.
`Slice.Modest` says of an input that no string in it ends beyond the largest `int`.  The walk and
the calls are then followed with `Ends`: they return or fail, and the route is left as it was
wherever the walk goes on.
-/

namespace Cbor

open GoRt GoM

/-! ### The walk -/

def maxRouteDepth : ℕ := 32

def maxRouteKeyBytes : ℕ := 40

/-- The bytes of an ASCII text. -/
def ascii (s : String) : List UInt8 := s.toList.map fun c => UInt8.ofNat c.toNat

/-- `strconv.Itoa`, `strconv.FormatUint` -/
def itoa (n : ℕ) : List UInt8 := ascii (toString n)

/-- What is used of `strconv` besides: `Quote`, and `FormatFloat` with format `g`. -/
structure Strconv where
  quote : List UInt8 → List UInt8
  formatFloat : ℕ → List UInt8

structure PathWalker where
  r : Cursor
  target : ℕ
  route : List UInt8
  /-- where each pushed segment began, the last one first -/
  marks : List ℕ

/-- `data[lo:hi]` -/
def Slice.part (data : Slice) (lo hi : ℕ) : Go Unit Slice :=
  if lo ≤ hi ∧ hi ≤ data.bytes.length then
    .ok
      { bytes := (data.bytes.take hi).drop lo
        length_lt := by
          have := data.length_lt
          simp
          omega }
  else
    .error .panic

def describeKey (s : Strconv) (key : Slice) : Go Unit (List UInt8) :=
  if key.bytes = [] then
    .ok (ascii "?")
  else
    match head (Cursor.start key) with
    | .error (.fail _) _ => .ok (ascii "?")
    | .error e _ => .error (e.map fun _ => ())
    | .ok h c =>
      if h.indefinite then
        .ok (ascii "?")
      else
        match h.major with
        | 0 => .ok (itoa h.arg)
        | 1 =>
          if 2 ^ 63 - 1 < h.arg then
            .ok (ascii "-" ++ itoa h.arg ++ ascii "-1")
          else
            .ok (ascii "-" ++ itoa (h.arg + 1))
        | 3 =>
          if h.arg ≤ key.bytes.length - c.off then do
            let text ← slice key.bytes c.off (c.off + h.arg : ℕ)
            if maxRouteKeyBytes < text.length then
              let short ← slice text 0 maxRouteKeyBytes
              pure (s.quote short ++ ascii "...")
            else
              pure (s.quote text)
          else
            .ok (ascii "?")
        | 2 => .ok (ascii "h'" ++ itoa h.arg ++ ascii " bytes'")
        | 7 =>
          match h.ai with
          | 20 => .ok (ascii "false")
          | 21 => .ok (ascii "true")
          | 22 => .ok (ascii "null")
          | 25 => do
            let bits ← slice key.bytes ((c.off : ℤ) - 2) c.off
            pure (s.formatFloat (float16 (beNat bits)))
          | _ => .ok (ascii "?")
        | _ => .ok (ascii "?")

namespace PathWalker

/-- A call of the reader of the walk, whose errors `pathTo` drops. -/
def reading {α : Type} (x : GoM Err Cursor α) : GoM Unit PathWalker α :=
  GoM.on (fun w => some w.r) (fun w c => { w with r := c }) (fun _ => ()) x

def push (segment : List UInt8) (w : PathWalker) : PathWalker :=
  { w with marks := w.route.length :: w.marks, route := w.route ++ segment }

def pop : GoM Unit PathWalker Unit := do
  let w ← get
  match w.marks with
  | [] => pure ()
  | m :: marks =>
    let route ← GoM.call (slice w.route 0 m)
    set { w with route := route, marks := marks }

/-- An item walked under a segment, which is popped unless the target was found. -/
def under (segment : List UInt8) (item : GoM Unit PathWalker Bool) : GoM Unit PathWalker Bool :=
  fun w =>
    match item (w.push segment) with
    | .ok true w' => .ok true w'
    | .ok false w' => (do pop; pure false) w'
    | .error (.fail e) w' => (do pop; GoM.fail e) w'
    | .error e w' => .error e w'

/-- `atBreak`, in a container without a length. -/
def atEnd (h : Head) : GoM Unit PathWalker Bool :=
  if h.indefinite then reading atBreak else pure false

/-- The loop of `walkArray` and `walkMap`. -/
def walkEntries (entry : ℕ → GoM Unit PathWalker Bool) (h : Head) :
    ℕ → ℕ → GoM Unit PathWalker Bool
  | 0, _ => fun w => .error .diverge w
  | fuel + 1, i =>
    if h.indefinite = false ∧ h.arg ≤ i then
      pure false
    else do
      if ← atEnd h then
        pure false
      else if ← entry i then
        pure true
      else
        walkEntries entry h fuel (i + 1)

def walkArray (item : GoM Unit PathWalker Bool) (h : Head) : GoM Unit PathWalker Bool := do
  let w ← get
  walkEntries (fun i => under (ascii "[" ++ itoa i ++ ascii "]") item) h (w.r.rest.length + 1) 0

def walkMap (s : Strconv) (item : GoM Unit PathWalker Bool) (h : Head) :
    GoM Unit PathWalker Bool := do
  let w ← get
  walkEntries entry h (w.r.rest.length + 1) 0
where
  entry (i : ℕ) : GoM Unit PathWalker Bool := do
    let w ← get
    if ← under (ascii "\x7b#" ++ itoa i ++ ascii " key\x7d") item then
      pure true
    else
      let w' ← get
      let key ← GoM.call (w'.r.data.part w.r.off w'.r.off >>= describeKey s)
      under (ascii "\x7b" ++ key ++ ascii "\x7d") item

def walkIndefiniteString (major : ℕ) : ℕ → GoM Unit PathWalker Bool
  | 0 => fun w => .error .diverge w
  | fuel + 1 => do
    if ← reading atBreak then
      pure false
    else
      let h ← reading head
      if h.indefinite ∨ h.major ≠ major ∨ maxSliceLen < h.arg then
        GoM.fail ()
      else
        let _ ← reading (take (toInt h.arg))
        walkIndefiniteString major fuel

/-- What `item` does after the head, where `below` walks an item one level deeper. -/
def itemBody (s : Strconv) (below : GoM Unit PathWalker Bool) (h : Head) :
    GoM Unit PathWalker Bool :=
  match h.major with
  | 2 | 3 =>
    if h.indefinite then do
      let w ← get
      walkIndefiniteString h.major (w.r.rest.length + 1)
    else if maxSliceLen < h.arg then
      GoM.fail ()
    else do
      let _ ← reading (take (toInt h.arg))
      pure false
  | 4 => walkArray below h
  | 5 => walkMap s below h
  | 6 => if h.indefinite then GoM.fail () else under (ascii "(tagged)") below
  | _ => pure false

/-- `item`, with `levels` levels left to `maxRouteDepth`. -/
def item (s : Strconv) (o : Limits) : ℕ → GoM Unit PathWalker Bool
  | 0 => do
    let w ← get
    if w.r.off = w.target then pure true else GoM.fail ()
  | levels + 1 => do
    let w ← get
    if w.r.off = w.target then
      pure true
    else if o.maxNestedLevels < maxRouteDepth - (levels + 1) ∨ w.target < w.r.off then
      GoM.fail ()
    else
      let h ← reading head
      itemBody s (item s o levels) h

end PathWalker

def pathTo (s : Strconv) (o : Limits) (data : Slice) (target : ℕ) : Go Unit (List UInt8) :=
  if target = 0 ∨ data.bytes = [] then
    .ok []
  else
    match PathWalker.item s o maxRouteDepth ⟨Cursor.start data, target, [], []⟩ with
    | .ok true w => .ok (if w.route = [] then [] else ascii "at " ++ w.route)
    | .ok false _ => .ok []
    | .error (.fail _) _ => .ok []
    | .error e _ => .error e

/-! ### Calls -/

/-- `Error`, with the route. -/
structure Routed where
  failure : Failure
  path : List UInt8

/-- A call whose error is completed by `Reader.at`. -/
def routed {α : Type} (s : Strconv) (o : Limits) (x : GoM Failure Cursor α) :
    GoM Routed Cursor α := fun c =>
  match x c with
  | .ok a c' => .ok a c'
  | .error (.fail f) c' =>
    match f.offset with
    | none => .error (.fail ⟨f, []⟩) c'
    | some offset =>
      match pathTo s o c.data offset with
      | .ok path => .error (.fail ⟨f, path⟩) c'
      | .error e => .error (e.map fun _ => ⟨f, []⟩) c'
  | .error e c' => .error (e.map fun f => ⟨f, []⟩) c'

/-- A call of a `Reader`.  `Offset`, `Remaining` and `Done` only look at the offset. -/
inductive Step where
  | call (c : Call)
  | peek
  | reset (data : Slice)

/-- One call. -/
def Step.run (s : Strconv) (o : Limits) : Step → GoM Routed Cursor Unit
  | .call c => routed s o (c.run o)
  | .peek => routed s o (forget Cbor.peek)
  | .reset data => set (Cursor.start data)

/-- The results of a sequence of calls, each of which finds the reader as the last one left it. -/
def trace (s : Strconv) (o : Limits) :
    Cursor → List Step → List (EStateM.Result (Fault Routed) Cursor Unit)
  | _, [] => []
  | c, step :: steps => step.run s o c :: trace s o (after (step.run s o c)) steps

/-- The call returned, with or without an error. -/
def Returned : EStateM.Result (Fault Routed) Cursor Unit → Prop
  | .ok _ _ => True
  | .error (.fail _) _ => True
  | .error _ _ => False

instance decidableReturned :
    (r : EStateM.Result (Fault Routed) Cursor Unit) → Decidable (Returned r)
  | .ok _ _ => .isTrue trivial
  | .error (.fail _) _ => .isTrue trivial
  | .error .panic _ => .isFalse id
  | .error .diverge _ => .isFalse id
  | .error .stray _ => .isFalse id

/-! ### Inputs without huge strings -/

/-- With the cursor at the end of the head `h` of a string, the string ends within an `int`. -/
def Head.Fits (h : Head) (c : Cursor) : Prop :=
  h.major = 2 ∨ h.major = 3 → h.indefinite = false → h.arg ≤ maxSliceLen →
    c.off + h.arg ≤ maxSliceLen

/-- With the cursor after `b`, the first byte of a head, the head ends within an `int`. -/
def HeadFits (b : UInt8) (c : Cursor) : Prop :=
  24 ≤ b.toNat % 32 → b.toNat % 32 ≤ 27 → c.off + 2 ^ (b.toNat % 32 - 24) ≤ maxSliceLen

/-- Wherever a head is read in the input, neither the head nor a string that it begins ends beyond
the largest `int`. -/
structure Slice.Modest (data : Slice) : Prop where
  heads : ∀ (c c' : Cursor) (b : UInt8), c.data = data → nextByte c = .ok b c' → HeadFits b c'
  strings : ∀ (c c' : Cursor) (h : Head), c.data = data → head c = .ok h c' → h.Fits c'

variable {c' c : Cursor} {fuel : ℕ} {h : Head}

section Ends

variable {ε α β : Type} {data : Slice} {c : Cursor}

theorem ends_take {n : ℤ} (h : c.off + n < 2 ^ 63) :
  Ends (fun _ c' => c'.data = c.data ∧ c.off ≤ c'.off) (fun _ c' => c'.data = c.data) (take n) c
  := by
  rw [Ends, take]
  split_ifs <;> first | omega | simp

theorem ends_nextByte :
  Ends (fun _ c' => c'.data = c.data ∧ c.off < c'.off) (fun _ c' => c'.data = c.data) nextByte c
  := by
  rw [Ends, nextByte]
  split_ifs <;> simp

theorem ends_atBreak :
  Ends (fun _ c' => c'.data = c.data ∧ c.off ≤ c'.off) (fun _ c' => c'.data = c.data) atBreak c
  := by
  rw [atBreak]
  refine Ends.get_bind (ends_nextByte.bind fun b c' hb => ?_)
  split
  · exact Ends.pure ⟨hb.1, hb.2.le⟩
  · exact ⟨rfl, le_rfl⟩

theorem rest_length_lt_of_off_lt {c : Cursor} (hdata : c'.data = c.data) (h : c.off < c'.off) :
  c'.rest.length < c.rest.length
  := by
  have hle := rest_length_le c
  have hle' := rest_length_le c'
  rw [hdata] at hle'
  omega

theorem ends_head (hfits : ∀ b c', nextByte c = .ok b c' → HeadFits b c') :
  Ends (fun _ c' => c'.data = c.data ∧ c.off < c'.off) (fun _ c' => c'.data = c.data) head c
  := by
  have hbyte : Ends (fun b c' => (c'.data = c.data ∧ c.off < c'.off) ∧ HeadFits b c')
      (fun _ c' => c'.data = c.data) nextByte c := by
    rcases ends_nextByte.cases with ⟨b, c', hok, hb⟩ | ⟨e, c', herr, hdata⟩
    · rw [Ends, hok]
      exact ⟨hb, hfits b c' hok⟩
    · rw [Ends, herr]
      exact hdata
  refine hbyte.bind fun b c' h => ?_
  have hb := h.1
  rw [headArg]
  split_ifs with h24 h27
  · exact Ends.pure hb
  · have hle := h.2 (by omega) h27
    rw [maxSliceLen] at hle
    refine ((ends_take (by omega)).bind fun v c'' hv => Ends.pure ?_).mono (fun _ _ h => h)
      fun _ _ h => h.trans hb.1
    exact ⟨hv.1.trans hb.1, lt_of_lt_of_le hb.2 hv.2⟩
  · exact Ends.pure hb
  · exact Ends.fail hb.1

/-- Reading a head over a modest input. -/
theorem Slice.Modest.ends_head (hd : data.Modest) (hc : c.data = data) :
  Ends (fun h c' => c'.data = data ∧ c.off < c'.off ∧ h.Fits c') (fun _ c' => c'.data = data) head c
  := by
  rcases (Cbor.ends_head fun b c' h => hd.heads c c' b hc h).cases with
    ⟨h, c', hok, hdata, hoff⟩ | ⟨e, c', herr, hdata⟩
  · rw [Ends, hok]
    exact ⟨hdata.trans hc, hoff, hd.strings c c' h hc hok⟩
  · rw [Ends, herr]
    exact hdata.trans hc

/-- A call over the input `data` returns or fails, and leaves the reader over `data`. -/
def Stays (data : Slice) (x : GoM ε Cursor α) (c : Cursor) : Prop :=
  Ends (fun _ c' => c'.data = data) (fun _ c' => c'.data = data) x c

variable {Q : α → Cursor → Prop} {x : GoM Err Cursor α}

theorem ends_located {x : GoM Failure Cursor α} (h : Ends Q (fun _ c' => c'.data = data) x c) :
  Ends Q (fun _ c' => c'.data = data) (located x) c
  := by
  rcases h.cases with ⟨a, c', hok, hQ⟩ | ⟨e, c', herr, hdata⟩
  · rw [Ends, located, hok]
    exact hQ
  · rw [Ends, located, herr]
    exact hdata

theorem ends_unplaced (h : Ends Q (fun _ c' => c'.data = data) x c) :
  Ends Q (fun _ c' => c'.data = data) (unplaced x) c
  := by
  rcases h.cases with ⟨a, c', hok, hQ⟩ | ⟨e, c', herr, hdata⟩
  · rw [Ends, unplaced, hok]
    exact hQ
  · rw [Ends, unplaced, herr]
    exact hdata

theorem ends_orRewind {c₀ : Cursor} (hc₀ : c₀.data = data)
    (h : Ends Q (fun _ c' => c'.data = data) x c) :
  Ends Q (fun _ c' => c'.data = data) (orRewind c₀ x) c
  := by
  rcases h.cases with ⟨a, c', hok, hQ⟩ | ⟨e, c', herr, hdata⟩
  · rw [Ends, orRewind, hok]
    exact hQ
  · rw [Ends, orRewind, herr]
    exact hc₀

theorem Stays.times {x : GoM ε Cursor Unit} (hx : ∀ c, c.data = data → Stays data x c) (n : ℕ)
    (hc : c.data = data) :
  Stays data (Cbor.times x n) c
  := by
  induction n generalizing c with
  | zero => exact Ends.pure hc
  | succ n ih => exact (hx c hc).bind fun _ _ hc' => ih hc'

theorem Stays.untilBreak {x : GoM Failure Cursor Unit} (hx : ∀ c, c.data = data → Stays data x c)
    (room : ℕ) (hc : c.data = data) :
  Stays data (Cbor.untilBreak x room) c
  := by
  have hbreak : ∀ {c}, c.data = data → Stays data (unplaced atBreak) c := fun hc =>
    ends_unplaced (ends_atBreak.mono (fun _ _ h => h.1.trans hc) fun _ _ h => h.trans hc)
  induction room generalizing c with
  | zero =>
    refine (hbreak hc).bind fun b c' hc' => ?_
    split
    · exact Ends.pure hc'
    · exact Ends.fail hc'
  | succ room ih =>
    refine (hbreak hc).bind fun b c' hc' => ?_
    split
    · exact Ends.pure hc'
    · exact (hx c' hc').bind fun _ _ hc'' => ih hc''

theorem Stays.skipContainer (o : Limits) {item : GoM Failure Cursor Unit}
    (hitem : ∀ c, c.data = data → Stays data item c) (h : Head) (perItem : ℕ) (hc : c.data = data) :
  Stays data (Cbor.skipContainer o item h perItem) c
  := by
  rw [Cbor.skipContainer]
  split_ifs
  · exact Stays.untilBreak (fun c hc => Stays.times hitem _ hc) _ hc
  · exact Ends.fail hc
  · exact Stays.times hitem _ hc

theorem Stays.peek (hc : c.data = data) :
  Stays data (forget Cbor.peek) c
  := by
  refine Ends.bind (Ends.get_bind ?_) fun _ _ h => Ends.pure h
  split
  · exact Ends.fail hc
  split
  · exact Ends.pure hc
  split
  · exact Ends.pure hc
  · exact Ends.fail hc

theorem ends_take_toInt {n : ℕ} (hn : n ≤ maxSliceLen) (h : c.off + n ≤ maxSliceLen)
    (hc : c.data = data) :
  Ends (fun _ c' => c'.data = data ∧ c.off ≤ c'.off) (fun _ c' => c'.data = data)
    (take (toInt n)) c
  := by
  rw [toInt_of_le hn]
  rw [maxSliceLen] at h
  exact (ends_take (by omega)).mono (fun _ _ h => ⟨h.1.trans hc, h.2⟩) fun _ _ h => h.trans hc

namespace Slice.Modest

variable (hd : data.Modest) (o : Limits) {major : ℕ}
include hd

theorem stays_skipChunks (hmajor : major = 2 ∨ major = 3) (total : ℕ) (hc : c.data = data)
    (hfuel : c.rest.length < fuel) :
  Stays data (skipChunks o major fuel total) c
  := by
  induction fuel generalizing c total with
  | zero => omega
  | succ fuel ih =>
    refine (ends_atBreak.mono (fun _ _ h => h) fun _ _ h => h.trans hc).bind fun b c₁ h₁ => ?_
    have hc₁ := h₁.1.trans hc
    split
    · exact Ends.pure hc₁
    refine (hd.ends_head hc₁).bind fun h c₂ h₂ => ?_
    split_ifs with hbad hlimit
    · exact Ends.fail h₂.1
    · exact Ends.fail h₂.1
    have hle : h.arg ≤ maxSliceLen := by omega
    have hfits := h₂.2.2 (by omega) (by simpa using fun h => hbad (.inl h)) hle
    refine (ends_take_toInt hle hfits h₂.1).bind fun _ c₃ h₃ => ih _ h₃.1 ?_
    have := rest_length_lt_of_off_lt (h₃.1.trans hc.symm)
      (lt_of_le_of_lt h₁.2 (lt_of_lt_of_le h₂.2.1 h₃.2))
    omega

theorem stays_skipString (hmajor : h.major = 2 ∨ h.major = 3) (hfits : h.Fits c)
    (hc : c.data = data) :
  Stays data (skipString o h) c
  := by
  rw [skipString]
  split_ifs with hindef hlimit
  · exact Ends.get_bind (hd.stays_skipChunks o hmajor 0 hc (Nat.lt_succ_self _))
  · exact Ends.fail hc
  have hle : h.arg ≤ maxSliceLen := by omega
  have hend := hfits hmajor (by simpa using hindef) hle
  exact (ends_take_toInt hle hend hc).bind fun _ _ h => Ends.pure h.1

theorem stays_skipItem (levels : ℕ) (hc : c.data = data) :
  Stays data (skipItem o levels) c
  := by
  induction levels generalizing c with
  | zero => exact ends_located (Ends.fail hc)
  | succ levels ih =>
    refine ends_located ((ends_unplaced (hd.ends_head hc)).bind fun h c' hc' => ?_)
    have hleaf : ∀ {p : Prop} [Decidable p] {f : Failure},
        Stays data (if p then fail f else pure ()) c' := by
      intro p _ f
      split
      · exact Ends.fail hc'.1
      · exact Ends.pure hc'.1
    rw [skipBody]
    split
    · exact hleaf
    · exact hleaf
    · exact ends_unplaced (hd.stays_skipString o (by omega) hc'.2.2 hc'.1)
    · exact ends_unplaced (hd.stays_skipString o (by omega) hc'.2.2 hc'.1)
    · exact Stays.skipContainer o (fun _ hc => ih hc) h 1 hc'.1
    · exact Stays.skipContainer o (fun _ hc => ih hc) h 2 hc'.1
    · split
      · exact Ends.fail hc'.1
      · exact ih hc'.1
    · split <;> first | exact Ends.pure hc'.1 | exact hleaf | exact Ends.fail hc'.1

theorem ends_orRewind_head {c₀ : Cursor} (hc₀ : c₀.data = data) (hc : c.data = data) :
  Ends (fun h c' => c'.data = data ∧ h.Fits c') (fun _ c' => c'.data = data) (orRewind c₀ head) c
  := ends_orRewind hc₀ ((hd.ends_head hc).mono (fun _ _ h => ⟨h.1, h.2.2⟩) fun _ _ h => h)

theorem ends_expect (want : ℕ) (kind : TokenKind) (hc : c.data = data) :
  Ends (fun h c' => c'.data = data ∧ h.Fits c' ∧ h.major = want) (fun _ c' => c'.data = data)
    (expect want kind) c
  := by
  refine Ends.get_bind ((hd.ends_orRewind_head hc hc).bind fun h c' hc' => ?_)
  split
  · exact hc
  · rename_i hmajor
    exact Ends.pure ⟨hc'.1, hc'.2, not_not.mp hmajor⟩

theorem stays_readArgument (major : ℕ) (kind : TokenKind) (hc : c.data = data) :
  Stays data (readArgument major kind) c
  := by
  refine Ends.get_bind ((hd.ends_expect major kind hc).bind fun h c' hc' => ?_)
  split
  · exact Ends.fail hc'.1
  · exact Ends.pure hc'.1

theorem stays_readInt (hc : c.data = data) :
  Stays data readInt c
  := by
  refine Ends.get_bind ((hd.ends_orRewind_head hc hc).bind fun h c' hc' => ?_)
  split_ifs
  · exact hc
  · exact Ends.fail hc'.1
  · exact Ends.pure hc'.1
  · exact Ends.pure hc'.1

theorem stays_readString (hmajor : major = 2 ∨ major = 3) (kind : TokenKind) (hc : c.data = data) :
  Stays data (readString o major kind) c
  := by
  refine Ends.get_bind ((hd.ends_expect major kind hc).bind fun h c' hc' => ?_)
  split_ifs with hindef hlimit
  · exact hc
  · exact hc
  have hle : h.arg ≤ maxSliceLen := by omega
  have hmajor' : h.major = 2 ∨ h.major = 3 := by rwa [hc'.2.2]
  have hfits := hc'.2.1 hmajor' (by simpa using hindef) hle
  exact ends_orRewind hc ((ends_take_toInt hle hfits hc'.1).mono (fun _ _ h => h.1)
    fun _ _ h => h)

/-- Over a modest input, every call returns or fails. -/
theorem stays_call (call : Call) (hc : c.data = data) :
  Stays data (call.run o) c
  := by
  have hforget : ∀ {γ : Type} {x : GoM Failure Cursor γ}, Stays data x c →
      Stays data (forget x) c := fun hx => Ends.bind hx fun _ _ h => Ends.pure h
  cases call with
  | readUint | readTag => exact hforget (hd.stays_readArgument _ _ hc)
  | readInt => exact hforget (hd.stays_readInt hc)
  | readSigned bits =>
    refine hforget (Ends.get_bind ((hd.stays_readInt hc).bind fun v c' hc' => ?_))
    split
    · exact Ends.fail hc'
    · exact Ends.pure hc'
  | readUnsigned bits =>
    refine hforget (Ends.get_bind ((hd.stays_readArgument _ _ hc).bind fun v c' hc' => ?_))
    split
    · exact Ends.fail hc'
    · exact Ends.pure hc'
  | readBytes => exact hforget (hd.stays_readString o (.inl rfl) _ hc)
  | readTextBytes =>
    refine hforget ((hd.stays_readString o (.inr rfl) _ hc).bind fun b c' hc' => ?_)
    refine Ends.get_bind ?_
    split
    · exact Ends.pure hc'
    · exact Ends.fail hc'
  | readBool =>
    refine hforget (Ends.get_bind ((hd.ends_orRewind_head hc hc).bind fun h c' hc' => ?_))
    split
    · exact hc
    · exact Ends.pure hc'.1
  | readNull =>
    refine Ends.get_bind ((hd.ends_orRewind_head hc hc).bind fun h c' hc' => ?_)
    split
    · exact hc
    · exact Ends.pure hc'.1
  | readFloat =>
    refine hforget (Ends.get_bind ((hd.ends_orRewind_head hc hc).bind fun h c' hc' => ?_))
    split_ifs
    · exact hc
    · exact hc
    · exact Ends.pure hc'.1
    · exact Ends.pure hc'.1
    · exact Ends.pure hc'.1
    · exact hc
  | readArrayHeader | readMapHeader => exact hforget (stays_readContainerHeader _ _ _)
  | readBreak =>
    refine Ends.get_bind ?_
    split
    · exact Ends.fail hc
    split
    · exact Ends.fail hc
    · exact (ends_unplaced (ends_nextByte.mono (fun _ _ h => h) fun _ _ h => h.trans hc)).bind
        fun _ _ h => Ends.pure (h.1.trans hc)
  | skip => exact ends_located (hd.stays_skipItem o _ hc)
  | readRaw =>
    refine hforget (Ends.get_bind ((ends_located (hd.stays_skipItem o _ hc)).bind
      fun _ c' hc' => Ends.get_bind ?_))
    split
    · exact Ends.fail hc'
    · exact Ends.pure hc'
where
  stays_readContainerHeader (major perItem : ℕ) (kind : TokenKind) :
    Stays data (readContainerHeader o major kind perItem) c := by
    refine Ends.get_bind ((hd.ends_expect major kind hc).bind fun h c' hc' => ?_)
    split_ifs
    · exact Ends.pure hc'.1
    · exact hc
    · exact hc
    · exact Ends.pure hc'.1

end Slice.Modest

end Ends

/-! ### The walk over a modest input -/

/-- A half float has a head of three bytes. -/
theorem two_le_off_of_half (hh : head c = .ok h c') (hai : h.ai = 25) :
  2 ≤ c'.off
  := by
  rw [head, GoM.bind_eq_ok] at hh
  obtain ⟨b, c₁, -, hh⟩ := hh
  rw [headArg] at hh
  split_ifs at hh with h24 h27 h31
  · simp only [GoM.pure_apply, EStateM.Result.ok.injEq] at hh
    rw [← hh.1] at hai
    dsimp only at hai
    omega
  · obtain ⟨v, c₂, hv, hh⟩ := GoM.bind_eq_ok.mp hh
    obtain ⟨rfl, rfl⟩ := hh
    dsimp only at hai
    rw [hai] at hv
    have := take_ok hv
    omega
  · simp only [GoM.pure_apply, EStateM.Result.ok.injEq] at hh
    rw [← hh.1] at hai
    dsimp only at hai
    omega
  · cases hh

/-- Every key can be described. -/
theorem describeKey_ok (s : Strconv) (key : Slice) :
  ∃ l, describeKey s key = .ok l
  := by
  rw [describeKey]
  split
  · exact ⟨_, rfl⟩
  have hfits : ∀ b c', nextByte (Cursor.start key) = .ok b c' → HeadFits b c' := by
    intro b c' hb hlo hhi
    have hpow : 2 ^ (b.toNat % 32 - 24) ≤ 2 ^ 3 := Nat.pow_le_pow_right (by decide) (by omega)
    have hstart : (Cursor.start key).off = 0 := rfl
    rw [nextByte_ok hb, maxSliceLen]
    omega
  rcases (ends_head hfits).cases with
    ⟨h, c, hok, hdata, -⟩ | ⟨e, c, herr, -⟩
  · have hoff : c.off ≤ key.bytes.length := by
      have := c.off_le
      rwa [hdata] at this
    rw [hok]
    dsimp only
    split
    · exact ⟨_, rfl⟩
    split
    · exact ⟨_, rfl⟩
    · split <;> exact ⟨_, rfl⟩
    · split
      · rw [slice_eq_ok (by omega) (by omega), ok_bind]
        split
        · rw [slice_of_le le_rfl (by omega) (by omega)]
          exact ⟨_, rfl⟩
        · exact ⟨_, rfl⟩
      · exact ⟨_, rfl⟩
    · exact ⟨_, rfl⟩
    · split
      · exact ⟨_, rfl⟩
      · exact ⟨_, rfl⟩
      · exact ⟨_, rfl⟩
      · rename_i hai
        have := two_le_off_of_half hok hai
        rw [slice_of_le (by omega) (by omega) (by omega)]
        exact ⟨_, rfl⟩
      · exact ⟨_, rfl⟩
    · exact ⟨_, rfl⟩
  · rw [herr]
    exact ⟨_, rfl⟩

namespace PathWalker

/-- `w'` goes on from `w`, with the same route. -/
structure Back (w w' : PathWalker) : Prop where
  data : w'.r.data = w.r.data
  route : w'.route = w.route
  marks : w'.marks = w.marks

/-- Where the target is not found, the route is as before, and the walk has come to `n` unless it
stops. -/
def Walks (n : ℕ) (x : GoM Unit PathWalker Bool) (w : PathWalker) : Prop :=
  Ends (fun found w' => found = false → w.Back w' ∧ n ≤ w'.r.off) (fun _ w' => w.Back w') x w

section Walks

variable {w w' : PathWalker} {n : ℕ} {x : GoM Unit PathWalker Bool} {segment : List UInt8}

theorem Back.refl (w : PathWalker) :
  w.Back w
  := ⟨rfl, rfl, rfl⟩

theorem Back.trans {w'' : PathWalker} (h : w.Back w') (h' : w'.Back w'') :
  w.Back w''
  := ⟨h'.data.trans h.data, h'.route.trans h.route, h'.marks.trans h.marks⟩

/-- Going on where the walk came to. -/
theorem Walks.from {n' : ℕ} (h : Walks n' x w') (hback : w.Back w') (hn : n ≤ n') :
  Ends (fun found w'' => found = false → w.Back w'' ∧ n ≤ w''.r.off) (fun _ w'' => w.Back w'') x w'
  := Ends.mono h (fun _ _ h hfound => ⟨hback.trans (h hfound).1, hn.trans (h hfound).2⟩)
    fun _ _ h => hback.trans h

theorem ends_reading {α : Type} {Q : α → Cursor → Prop} {y : GoM Err Cursor α}
    (h : Ends Q (fun _ c' => c'.data = w.r.data) y w.r) (hQ : ∀ a c', Q a c' → c'.data = w.r.data) :
  Ends (fun a w' => Q a w'.r ∧ w.Back w') (fun _ w' => w.Back w') (reading y) w
  := by
  rcases h.cases with ⟨a, c', hok, ha⟩ | ⟨e, c', herr, hdata⟩
  · rw [Ends, reading, on]
    dsimp only
    rw [hok]
    exact ⟨ha, hQ a c' ha, rfl, rfl⟩
  · rw [Ends, reading, on]
    dsimp only
    rw [herr]
    exact ⟨hdata, rfl, rfl⟩

theorem pop_eq (h : (w.push segment).Back w') :
  pop w' = .ok () { w' with route := w.route, marks := w.marks }
  := by
  rw [pop, get_bind, h.marks, h.route]
  simp only [push]
  rw [slice_append_left]
  rfl

theorem Walks.under (h : Walks n x (w.push segment)) :
  Walks n (PathWalker.under segment x) w
  := by
  rw [Walks, Ends, PathWalker.under]
  rcases Ends.cases h with ⟨found, w', hok, hback⟩ | ⟨e, w', herr, hback⟩
  · rw [hok]
    cases found with
    | true => simp
    | false =>
      obtain ⟨hback, hn⟩ := hback rfl
      dsimp only
      rw [bind_ok (pop_eq hback)]
      exact fun _ => ⟨⟨hback.data, rfl, rfl⟩, hn⟩
  · rw [herr]
    dsimp only
    rw [bind_ok (pop_eq hback)]
    exact ⟨hback.data, rfl, rfl⟩

variable {data : Slice}

theorem walks_walkEntries {entry : ℕ → GoM Unit PathWalker Bool}
    (hentry : ∀ i w, w.r.data = data → Walks (w.r.off + 1) (entry i) w) (i : ℕ)
    (hw : w.r.data = data) (hfuel : w.r.rest.length < fuel) :
  Walks w.r.off (walkEntries entry h fuel i) w
  := by
  induction fuel generalizing w i with
  | zero => omega
  | succ fuel ih =>
    rw [walkEntries]
    split
    · exact Ends.pure fun _ => ⟨Back.refl w, le_rfl⟩
    have hdone : Ends (fun _ w' => w.Back w' ∧ w.r.off ≤ w'.r.off) (fun _ w' => w.Back w')
        (atEnd h) w := by
      rw [atEnd]
      split
      · exact (ends_reading ends_atBreak fun _ _ h => h.1).mono
          (fun _ _ h => ⟨h.2, h.1.2⟩) fun _ _ h => h
      · exact Ends.pure ⟨Back.refl w, le_rfl⟩
    refine Ends.bind hdone fun done w₁ h₁ => ?_
    split
    · exact Ends.pure fun _ => h₁
    have hw₁ := h₁.1.data.trans hw
    refine Ends.bind ((hentry i w₁ hw₁).from h₁.1 le_rfl) fun found w₂ h₂ => ?_
    cases found with
    | true => exact Ends.pure (by simp)
    | false =>
      obtain ⟨hback, hoff⟩ := h₂ rfl
      refine (ih (i + 1) (hback.data.trans hw) ?_).from hback (by omega)
      have := rest_length_lt_of_off_lt hback.data (by omega)
      omega

theorem walks_walkMap_entry (s : Strconv)
    (hitem : ∀ w, w.r.data = data → Walks (w.r.off + 1) x w) (i : ℕ) (hw : w.r.data = data) :
  Walks (w.r.off + 1) (walkMap.entry s x i) w
  := by
  refine Ends.get_bind (Ends.bind (hitem (w.push _) hw).under fun found w₁ h₁ => ?_)
  cases found with
  | true => exact Ends.pure (by simp)
  | false =>
    obtain ⟨hback, hoff⟩ := h₁ rfl
    change w.r.off + 1 ≤ w₁.r.off at hoff
    have hw₁ := hback.data.trans hw
    have hkey : ∃ l, (w₁.r.data.part w.r.off w₁.r.off >>= describeKey s) = .ok l := by
      rw [Slice.part, if_pos ⟨by omega, w₁.r.off_le⟩]
      exact describeKey_ok s _
    obtain ⟨l, hl⟩ := hkey
    refine Ends.get_bind ?_
    rw [hl]
    exact (hitem (w₁.push _) hw₁).under.from hback (hoff.trans (Nat.le_succ _))

/-- What the walk reads of a head. -/
theorem ends_reading_head (hd : data.Modest) (hw : w.r.data = data) :
  Ends (fun h w' => w.Back w' ∧ w.r.off < w'.r.off ∧ h.Fits w'.r) (fun _ w' => w.Back w')
    (reading head) w
  := by
  subst hw
  exact (ends_reading (hd.ends_head rfl) fun _ _ h => h.1).mono
    (fun _ _ h => ⟨h.2, h.1.2⟩) fun _ _ h => h

theorem ends_reading_take {n : ℕ} (hn : n ≤ maxSliceLen) (h : w.r.off + n ≤ maxSliceLen) :
  Ends (fun _ w' => w.Back w' ∧ w.r.off ≤ w'.r.off) (fun _ w' => w.Back w')
    (reading (take (toInt n))) w
  := (ends_reading (ends_take_toInt hn h rfl) fun _ _ h => h.1).mono
    (fun _ _ h => ⟨h.2, h.1.2⟩) fun _ _ h => h

theorem walks_walkIndefiniteString (hd : data.Modest) {major : ℕ} (hmajor : major = 2 ∨ major = 3)
    (hw : w.r.data = data) (hfuel : w.r.rest.length < fuel) :
  Walks w.r.off (walkIndefiniteString major fuel) w
  := by
  induction fuel generalizing w with
  | zero => omega
  | succ fuel ih =>
    refine Ends.bind (ends_reading ends_atBreak fun _ _ h => h.1) fun done w₁ h₁ => ?_
    split
    · exact Ends.pure fun _ => ⟨h₁.2, h₁.1.2⟩
    have hw₁ := h₁.2.data.trans hw
    refine Ends.bind ((ends_reading_head hd hw₁).mono (fun _ _ h => h)
      fun _ _ h => h₁.2.trans h) fun h w₂ h₂ => ?_
    have hback₂ := h₁.2.trans h₂.1
    split_ifs with hbad
    · exact Ends.fail hback₂
    have hle : h.arg ≤ maxSliceLen := by omega
    have hfits := h₂.2.2 (by omega) (by simpa using fun h => hbad (.inl h)) hle
    refine Ends.bind ((ends_reading_take hle hfits).mono (fun _ _ h => h)
      fun _ _ h => hback₂.trans h) fun _ w₃ h₃ => ?_
    have hback₃ := hback₂.trans h₃.1
    have hoff : w.r.off < w₃.r.off := lt_of_le_of_lt h₁.1.2 (lt_of_lt_of_le h₂.2.1 h₃.2)
    have := rest_length_lt_of_off_lt hback₃.data hoff
    exact (ih (hback₃.data.trans hw) (by omega)).from hback₃ hoff.le

theorem walks_itemBody (s : Strconv) (hd : data.Modest)
    (hitem : ∀ w, w.r.data = data → Walks (w.r.off + 1) x w) (hfits : h.Fits w.r)
    (hw : w.r.data = data) :
  Walks w.r.off (itemBody s x h) w
  := by
  have hstring : h.major = 2 ∨ h.major = 3 → Walks w.r.off
      (if h.indefinite then do
        let w ← get
        walkIndefiniteString h.major (w.r.rest.length + 1)
      else if maxSliceLen < h.arg then
        fail ()
      else do
        let _ ← reading (take (toInt h.arg))
        pure false) w := by
    intro hmajor
    split_ifs with hindef hlimit
    · exact Ends.get_bind (walks_walkIndefiniteString hd hmajor hw (Nat.lt_succ_self _))
    · exact Ends.fail (Back.refl w)
    have hle : h.arg ≤ maxSliceLen := by omega
    exact Ends.bind (ends_reading_take hle (hfits hmajor (by simpa using hindef) hle))
      fun _ _ h => Ends.pure fun _ => h
  rw [itemBody]
  split
  · exact hstring (by omega)
  · exact hstring (by omega)
  · exact Ends.get_bind (walks_walkEntries (fun i w hw => (hitem (w.push _) hw).under) 0 hw
      (Nat.lt_succ_self _))
  · exact Ends.get_bind (walks_walkEntries (fun i w hw => walks_walkMap_entry s hitem i hw) 0 hw
      (Nat.lt_succ_self _))
  · split
    · exact Ends.fail (Back.refl w)
    · exact (hitem (w.push _) hw).under.from (Back.refl w) (Nat.le_succ _)
  · exact Ends.pure fun _ => ⟨Back.refl w, le_rfl⟩

theorem walks_item (s : Strconv) (o : Limits) (hd : data.Modest) (levels : ℕ)
    (hw : w.r.data = data) :
  Walks (w.r.off + 1) (item s o levels) w
  := by
  induction levels generalizing w with
  | zero =>
    refine Ends.get_bind ?_
    split
    · exact Ends.pure (by simp)
    · exact Ends.fail (Back.refl w)
  | succ levels ih =>
    refine Ends.get_bind ?_
    split_ifs
    · exact Ends.pure (by simp)
    · exact Ends.fail (Back.refl w)
    · refine Ends.bind (ends_reading_head hd hw) fun h w₁ h₁ => ?_
      exact (walks_itemBody s hd (fun _ hw => ih hw) h₁.2.2 (h₁.1.data.trans hw)).from h₁.1 h₁.2.1

end Walks

end PathWalker

/-! ### Calls over a modest input -/

section Calls

variable {data : Slice} {c : Cursor} (s : Strconv) (o : Limits)

theorem pathTo_ok (hd : data.Modest) (target : ℕ) :
  ∃ route, pathTo s o data target = .ok route
  := by
  rw [pathTo]
  split
  · exact ⟨_, rfl⟩
  rcases Ends.cases (PathWalker.walks_item (w := ⟨Cursor.start data, target, [], []⟩) s o hd
    maxRouteDepth rfl) with ⟨found, w, hok, -⟩ | ⟨e, w, herr, -⟩
  · rw [hok]
    cases found <;> exact ⟨_, rfl⟩
  · rw [herr]
    exact ⟨_, rfl⟩

theorem Stays.routed {α : Type} (hd : data.Modest) {x : GoM Failure Cursor α} (hc : c.data = data)
    (hx : Stays data x c) :
  Stays data (Cbor.routed s o x) c
  := by
  rw [Stays, Ends, Cbor.routed]
  rcases Ends.cases hx with ⟨a, c', hok, hdata⟩ | ⟨f, c', herr, hdata⟩
  · rw [hok]
    exact hdata
  rw [herr]
  dsimp only
  cases hoffset : f.offset with
  | none => exact hdata
  | some offset =>
    obtain ⟨route, hroute⟩ := pathTo_ok s o hd offset
    dsimp only
    rw [hc, hroute]
    exact hdata

/-- The input of the reader after a call. -/
def Step.input (data : Slice) : Step → Slice
  | .reset data' => data'
  | _ => data

theorem Step.stays (hd : data.Modest) (step : Step) (hc : c.data = data) :
  Stays (step.input data) (step.run s o) c
  := by
  cases step with
  | call call => exact Stays.routed s o hd hc (hd.stays_call o call hc)
  | peek => exact Stays.routed s o hd hc (Stays.peek hc)
  | reset data' => rfl

theorem Step.input_modest (hd : data.Modest) {step : Step}
    (hstep : ∀ data', step = .reset data' → data'.Modest) :
  (step.input data).Modest
  := by
  cases step with
  | call call => exact hd
  | peek => exact hd
  | reset data' => exact hstep data' rfl

/-- Over modest inputs, all calls of a sequence return. -/
theorem trace_returned (hd : data.Modest) (hc : c.data = data) {steps : List Step}
    (hsteps : ∀ data', .reset data' ∈ steps → data'.Modest) :
  ∀ r ∈ trace s o c steps, Returned r
  := by
  induction steps generalizing c data with
  | nil => simp [trace]
  | cons step steps ih =>
    have hinput : (step.input data).Modest :=
      Step.input_modest hd fun data' h => hsteps data' (by simp [h])
    have hrest : ∀ data', .reset data' ∈ steps → data'.Modest :=
      fun data' h => hsteps data' (List.mem_cons_of_mem _ h)
    rw [trace]
    rcases Ends.cases (step.stays s o hd hc) with ⟨u, c', hok, hc'⟩ | ⟨f, c', herr, hc'⟩
    · rw [hok]
      exact List.forall_mem_cons.mpr ⟨trivial, ih hinput hc' hrest⟩
    · rw [herr]
      exact List.forall_mem_cons.mpr ⟨trivial, ih hinput hc' hrest⟩

end Calls

/-- A string that ends beyond the largest `int` makes `take` panic. -/
theorem readString_panics {o : Limits} {major : ℕ} (hh : head c = .ok h c')
    (hmajor : h.major = major) (hindef : h.indefinite = false) (hle : h.arg ≤ maxSliceLen)
    (hlarge : maxSliceLen < c'.off + h.arg) (hlimit : h.arg ≤ o.maxStringBytes) (kind : TokenKind) :
  readString o major kind c = .error .panic c
  := by
  have hlim : ¬ (o.maxStringBytes < h.arg ∨ maxSliceLen < h.arg) := by omega
  rw [readString, get_expect_eq, hh]
  dsimp only
  rw [if_pos hmajor, hindef, if_neg (by decide), if_neg hlim, orRewind, take, toInt_of_le hle]
  rw [maxSliceLen] at hlarge
  rw [if_neg (by omega), if_pos (by omega)]
  rfl

/-- A head that ends beyond the largest `int` makes `take` panic. -/
theorem readUint_panics {b : UInt8} (hb : nextByte c = .ok b c') (hlo : 24 ≤ b.toNat % 32)
    (hhi : b.toNat % 32 ≤ 27) (hlarge : maxSliceLen < c'.off + 2 ^ (b.toNat % 32 - 24)) :
  readUint c = .error .panic c
  := by
  have htake : take (2 ^ (b.toNat % 32 - 24) : ℕ) c' = .error .panic c' := by
    have hle : 2 ^ 63 ≤ c'.off + 2 ^ (b.toNat % 32 - 24) := hlarge
    rw [take, if_neg (not_lt.mpr (Int.natCast_nonneg _)), if_pos (by exact_mod_cast hle)]
  have hhead : head c = .error .panic c' := by
    rw [head, bind_ok hb, headArg, if_neg (by omega), if_pos hhi, bind_error htake]
  rw [readUint, readArgument, get_expect_eq, hhead]
  rfl

/-- Whatever calls are made, with whatever options and from whatever offset, each returns or fails
as long as the inputs are modest; from an input that is not, there are an offset and options such
that a call panics. -/
theorem reader_returns_iff (s : Strconv) (data : Slice) :
  (∀ (o : Limits) (c : Cursor) (steps : List Step), c.data = data →
      (∀ data', .reset data' ∈ steps → data'.Modest) → ∀ r ∈ trace s o c steps, Returned r)
    ↔ data.Modest
  := by
  constructor
  · intro hreturns
    let o : Limits := { Limits.default with maxStringBytes := maxSliceLen, string_le := le_rfl }
    have hpanics : ∀ {c : Cursor} (call : Call), c.data = data →
        call.run o c ≠ .error .panic c := by
      intro c call hc hcall
      have hrun : Step.run s o (.call call) c = .error .panic c := by
        rw [Step.run, routed, hcall]
        rfl
      exact hreturns o c [.call call] hc (by simp) (.error .panic c) (by simp [trace, hrun])
    refine ⟨fun c c' b hc hb hlo hhi => ?_, fun c c' h hc hh hmajor hindef hle => ?_⟩
    · by_contra hlarge
      have hread := readUint_panics hb hlo hhi (not_le.mp hlarge)
      exact hpanics .readUint hc (bind_error hread)
    by_contra hlarge
    rw [not_le] at hlarge
    rcases hmajor with hmajor | hmajor
    · have hread := readString_panics (o := o) hh hmajor hindef hle hlarge hle .byteString
      exact hpanics .readBytes hc (bind_error hread)
    · have hread := readString_panics (o := o) hh hmajor hindef hle hlarge hle .textString
      exact hpanics .readTextBytes hc (bind_error (bind_error hread))
  · intro hd o c steps hc hsteps
    exact trace_returned s o hd hc hsteps

/-- Two calls of `Skip` with the default options over nine bytes, the head of a string with as many
bytes as an `int` counts: the first fails, and the second panics in the walk to its offset. -/
theorem skip_skip_panics :
  let s : Strconv := ⟨id, fun _ => []⟩
  let data : Slice := ⟨[0x5b, 0x7f, 0xff, 0xff, 0xff, 0xff, 0xff, 0xff, 0xff], by decide⟩
  ¬ ∀ r ∈ trace s .default (Cursor.start data) [.call .skip, .call .skip], Returned r
  := by decide +kernel

/-- An array in an array, in which the calls come to a string and ask for a number. -/
theorem reader_returns_iff_nested :
  let s : Strconv := ⟨id, fun _ => []⟩
  let data : Slice := ⟨[0x82, 0x00, 0x81, 0x40], by decide⟩
  let steps : List Step := [.call .readArrayHeader, .call .readUint, .call .readArrayHeader,
    .call .readUint, .call .skip]
  data.Modest
    ∧ (∀ r ∈ trace s .default (Cursor.start data) steps, Returned r)
    ∧ (trace s .default (Cursor.start data) steps).map (fun
        | .error (.fail f) _ => some f.path
        | _ => none) = [none, none, none, some (ascii "at [1][0]"), none]
  := by
  intro s data steps
  have hd : data.Modest := by
    refine ⟨?_, ?_⟩
    · rintro ⟨_, off, hle⟩ c' b rfl hb hlo
      match off, hle with
      | 0, _ | 1, _ | 2, _ | 3, _ =>
        cases hb
        exact absurd hlo (by decide +revert)
      | 4, _ => cases hb
    · rintro ⟨_, off, hle⟩ c' h rfl hh - - -
      match off, hle with
      | 0, _ | 1, _ | 2, _ | 3, _ =>
        simp [head, bind_apply, nextByte, headArg, data] at hh
        obtain ⟨rfl, rfl⟩ := hh
        decide +revert
      | 4, _ => cases hh
  refine ⟨hd, (reader_returns_iff s data).mpr hd .default _ _ rfl (by simp [steps]), ?_⟩
  decide +kernel

end Cbor
