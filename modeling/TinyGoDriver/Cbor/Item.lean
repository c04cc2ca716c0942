import TinyGoDriver.Cbor.Cursor

/-!
# Items as they are written

An `Item` is the tree of a CBOR item together with how it is spelled: the width of every argument,
whether a length is definite, and how a string is cut into chunks.  `Item.bytes` writes it down.
The elements of a map stand in one list, keys and values in turn.

What the functions of the package accept is described by these trees.  All of them look at one node
at a time, so that their conditions have the form `Item.All down P d i`: `P` holds at every node of
`i`, where `d` is what the node knows of its place in the tree, and `down` how that changes from a
node to its children.  Bytes are the spelling of at most one tree (`Item.bytes_inj`).
-/

namespace Cbor

open GoRt List

/-! ### Heads -/

/-- How many bytes follow the first byte of a head. -/
def argWidth (ai : ℕ) : ℕ := if 24 ≤ ai ∧ ai ≤ 27 then 2 ^ (ai - 24) else 0

/-- `arg` can be written with `ai`. -/
def ArgFits (ai arg : ℕ) : Prop :=
  (ai < 24 ∧ arg = ai) ∨ (24 ≤ ai ∧ ai ≤ 27 ∧ arg < 2 ^ (8 * argWidth ai))

instance decidableArgFits (ai arg : ℕ) : Decidable (ArgFits ai arg) :=
  inferInstanceAs (Decidable (_ ∨ _))

namespace Head

def bytes (h : Head) : List UInt8 :=
  UInt8.ofNat (h.major * 32 + h.ai) :: beBytes (argWidth h.ai) h.arg

/-- A head that `head` can return. -/
def Valid (h : Head) : Prop := h.major < 8 ∧ (ArgFits h.ai h.arg ∨ (h.ai = 31 ∧ h.arg = 0))

end Head

theorem beNat_beBytes {w n : ℕ} (h : n < 2 ^ (8 * w)) :
  beNat (beBytes w n) = n
  := by
  rw [beNat, beBytes, reverse_reverse, leNat_leBytes, Nat.mod_eq_of_lt h]

theorem beNat_lt (l : List UInt8) :
  beNat l < 2 ^ (8 * l.length)
  := by
  have := leNat_lt l.reverse
  rwa [length_reverse] at this

theorem beBytes_beNat (l : List UInt8) :
  beBytes l.length (beNat l) = l
  := by
  rw [beBytes, beNat, ← length_reverse, leBytes_leNat, reverse_reverse]

theorem ArgFits.ai_lt {ai arg : ℕ} (h : ArgFits ai arg) :
  ai < 28
  := by
  rcases h with h | h <;> omega

variable {r r' : List UInt8} {major major' : ℕ}

namespace Head

variable {h : Head}

theorem Valid.ai_lt (hv : h.Valid) :
  h.ai < 32
  := by
  rcases hv.2 with hfits | hindef
  · have := hfits.ai_lt
    omega
  · omega

theorem Valid.fits (hv : h.Valid) (hdef : h.indefinite = false) :
  ArgFits h.ai h.arg
  := by
  rcases hv.2 with hfits | hindef
  · exact hfits
  · simp [indefinite, hindef.1] at hdef

/-- The first byte tells the major type and the additional information. -/
theorem toNat_first (hv : h.Valid) :
  (UInt8.ofNat (h.major * 32 + h.ai)).toNat = h.major * 32 + h.ai
  := by
  have := hv.1
  have := hv.ai_lt
  rw [UInt8.toNat_ofNat', Nat.mod_eq_of_lt (by omega)]

/-- Heads are prefix-free. -/
theorem bytes_inj {h' : Head} (hv : h.Valid) (hv' : h'.Valid)
    (heq : h.bytes ++ r = h'.bytes ++ r') :
  h = h' ∧ r = r'
  := by
  simp only [bytes, cons_append, cons.injEq] at heq
  obtain ⟨hfirst, hrest⟩ := heq
  have hnat := congrArg UInt8.toNat hfirst
  rw [toNat_first hv, toNat_first hv'] at hnat
  have h₁ := hv.ai_lt
  have h₂ := hv'.ai_lt
  have hai : h.ai = h'.ai := by omega
  rw [← hai] at hrest
  obtain ⟨harg, hr⟩ := append_inj hrest (by simp)
  refine ⟨?_, hr⟩
  have : h.arg = h'.arg := by
    rcases hv.2 with (⟨hlt, heq⟩ | ⟨hlo, hhi, hlt⟩) | ⟨h31, hzero⟩
    · rcases hv'.2 with (⟨hlt', heq'⟩ | ⟨hlo', -⟩) | ⟨h31', -⟩
      · omega
      · omega
      · omega
    · rcases hv'.2 with (⟨hlt', -⟩ | ⟨-, -, hlt'⟩) | ⟨h31', -⟩
      · omega
      · rw [← hai] at hlt'
        rw [← beNat_beBytes hlt, harg, beNat_beBytes hlt']
      · omega
    · rcases hv'.2 with h' | ⟨-, hzero'⟩
      · have := h'.ai_lt
        omega
      · omega
  cases h
  cases h'
  simp_all

end Head

/-- An argument and how it is written. -/
structure Arg where
  ai : ℕ
  val : ℕ
  fits : ArgFits ai val
  deriving DecidableEq

/-- The head with a given major type and argument. -/
def Arg.head (major : ℕ) (a : Arg) : Head := ⟨major, a.ai, a.val⟩

/-- The head with a given major type and an indefinite length. -/
def Head.open (major : ℕ) : Head := ⟨major, 31, 0⟩

theorem Arg.head_valid (hmajor : major < 8) (a : Arg) :
  (a.head major).Valid
  := ⟨hmajor, .inl a.fits⟩

theorem Head.open_valid (hmajor : major < 8) :
  (Head.open major).Valid
  := ⟨hmajor, .inr ⟨rfl, rfl⟩⟩

@[simp]
theorem Arg.indefinite_head (major : ℕ) (a : Arg) :
  (a.head major).indefinite = false
  := by
  have := a.fits.ai_lt
  simp [Head.indefinite, head]
  omega

@[simp]
theorem Head.indefinite_open (major : ℕ) :
  (Head.open major).indefinite = true
  := rfl

theorem Arg.head_inj {a a' : Arg} (h : a.head major = a'.head major') :
  major = major' ∧ a = a'
  := by
  cases a
  cases a'
  simp_all [head]

theorem Arg.head_ne_open {a : Arg} :
  a.head major ≠ Head.open major'
  := by
  intro h
  have := congrArg Head.indefinite h
  rw [indefinite_head] at this
  simp [Head.open, Head.indefinite] at this

/-! ### Trees -/

/-- A CBOR item and how it is written. -/
inductive Item where
  /-- an integer; a negative one is -1 less the argument -/
  | number (negative : Bool) (a : Arg)
  /-- a string of definite length -/
  | string (text : Bool) (a : Arg) (payload : List UInt8)
  /-- a string of indefinite length -/
  | chunked (text : Bool) (chunks : List (Arg × List UInt8))
  /-- an array or a map of definite length -/
  | container (isMap : Bool) (a : Arg) (elements : List Item)
  /-- an array or a map of indefinite length -/
  | unbounded (isMap : Bool) (elements : List Item)
  | tagged (a : Arg) (content : Item)
  /-- a boolean, null, or a float, whose bits are the argument -/
  | simple (a : Arg)

namespace Item

/-- The items directly below. -/
def children : Item → List Item
  | number _ _ => []
  | string _ _ _ => []
  | chunked _ _ => []
  | container _ _ elements => elements
  | unbounded _ elements => elements
  | tagged _ content => [content]
  | simple _ => []

def head : Item → Head
  | number negative a => a.head (if negative then 1 else 0)
  | string text a _ => a.head (if text then 3 else 2)
  | chunked text _ => Head.open (if text then 3 else 2)
  | container isMap a _ => a.head (if isMap then 5 else 4)
  | unbounded isMap _ => Head.open (if isMap then 5 else 4)
  | tagged a _ => a.head 6
  | simple a => a.head 7

/-- The chunks of a string whose major type is `major`, one after the other. -/
def chunkBytes (major : ℕ) (chunks : List (Arg × List UInt8)) : List UInt8 :=
  chunks.flatMap fun c => (c.1.head major).bytes ++ c.2

mutual

/-- What is written of an item. -/
def bytes : Item → List UInt8
  | number negative a => (number negative a).head.bytes
  | string text a payload => (string text a payload).head.bytes ++ payload
  | chunked text chunks =>
    (chunked text chunks).head.bytes ++ (chunkBytes (if text then 3 else 2) chunks ++ [0xff])
  | container isMap a elements => (container isMap a elements).head.bytes ++ bytesAll elements
  | unbounded isMap elements =>
    (unbounded isMap elements).head.bytes ++ (bytesAll elements ++ [0xff])
  | tagged a content => (tagged a content).head.bytes ++ content.bytes
  | simple a => (simple a).head.bytes

/-- What is written of some items. -/
def bytesAll : List Item → List UInt8
  | [] => []
  | i :: l => i.bytes ++ bytesAll l

end

/-- What is written after the head. -/
def body : Item → List UInt8
  | number _ _ => []
  | string _ _ payload => payload
  | chunked text chunks => chunkBytes (if text then 3 else 2) chunks ++ [0xff]
  | container _ _ elements => bytesAll elements
  | unbounded _ elements => bytesAll elements ++ [0xff]
  | tagged _ content => content.bytes
  | simple _ => []

theorem bytes_eq (i : Item) :
  i.bytes = i.head.bytes ++ i.body
  := by
  cases i <;> simp [bytes, body]

theorem bytesAll_eq (l : List Item) :
  bytesAll l = l.flatMap bytes
  := by
  induction l with
  | nil => rfl
  | cons i l ih => rw [bytesAll, ih, flatMap_cons]

theorem bytes_ne_nil (i : Item) :
  i.bytes ≠ []
  := by
  rw [bytes_eq, Head.bytes]
  simp

/-- To prove something of all items, prove it of an item from its children. -/
@[elab_as_elim]
theorem induction_children {motive : Item → Prop}
    (step : ∀ i, (∀ j ∈ i.children, motive j) → motive i) (i : Item) :
  motive i
  := by
  refine @Item.rec motive (fun l => ∀ j ∈ l, motive j) ?_ ?_ ?_ ?_ ?_ ?_ ?_ ?_ ?_ i
  · exact fun negative a => step _ (by simp [children])
  · exact fun text a payload => step _ (by simp [children])
  · exact fun text chunks => step _ (by simp [children])
  · exact fun isMap a elements ih => step _ ih
  · exact fun isMap elements ih => step _ ih
  · exact fun a content ih => step _ (by simpa [children] using ih)
  · exact fun a => step _ (by simp [children])
  · simp
  · intro i l hi hl j hj
    rcases mem_cons.mp hj with rfl | hj
    · exact hi
    · exact hl j hj

/-! ### Conditions on every node -/

/-- `P` holds at `i` and at every item below it; `d` is what `i` knows of its place, and `down`
passes that on. -/
inductive All {δ : Type} (down : Item → δ → δ) (P : δ → Item → Prop) : δ → Item → Prop
  | node {d : δ} {i : Item} (here : P d i) (below : ∀ j ∈ i.children, All down P (down i d) j) :
      All down P d i

section All

variable {δ : Type} {down : Item → δ → δ} {P Q : δ → Item → Prop} {i : Item} {d : δ}

theorem all_iff :
  i.All down P d ↔ P d i ∧ ∀ j ∈ i.children, j.All down P (down i d)
  := by
  constructor
  · rintro ⟨here, below⟩
    exact ⟨here, below⟩
  · rintro ⟨here, below⟩
    exact .node here below

theorem All.mono (h : i.All down P d) (hPQ : ∀ d i, P d i → Q d i) :
  i.All down Q d
  := by
  induction h with
  | node here below ih => exact .node (hPQ _ _ here) ih

theorem all_and :
  i.All down (fun d i => P d i ∧ Q d i) d ↔ i.All down P d ∧ i.All down Q d
  := by
  constructor
  · exact fun h => ⟨h.mono fun _ _ => And.left, h.mono fun _ _ => And.right⟩
  rintro ⟨hP, hQ⟩
  induction hP with
  | node here below ih =>
    obtain ⟨here', below'⟩ := all_iff.mp hQ
    exact .node ⟨here, here'⟩ fun j hj => ih j hj (below' j hj)

end All

/-- How many bytes or elements an argument announces are there, and the simple values are those
that the package knows. -/
def Shaped : Item → Prop
  | number _ _ => True
  | string _ a payload => payload.length = a.val
  | chunked _ chunks => ∀ c ∈ chunks, c.2.length = c.1.val
  | container isMap a elements => elements.length = if isMap then 2 * a.val else a.val
  | unbounded isMap elements => isMap = true → 2 ∣ elements.length
  | tagged _ _ => True
  | simple a => a.ai ∈ [20, 21, 22, 25, 26, 27]

/-- The item is well formed. -/
def Formed (i : Item) : Prop := i.All (fun _ d => d) (fun (_ : Unit) i => i.Shaped) ()

variable {i : Item}

theorem formed_iff :
  i.Formed ↔ i.Shaped ∧ ∀ j ∈ i.children, j.Formed
  := all_iff

theorem All.formed {δ : Type} {down : Item → δ → δ} {P : δ → Item → Prop} {d : δ}
    (h : i.All down P d) (hP : ∀ d i, P d i → i.Shaped) :
  i.Formed
  := by
  induction h with
  | node here below ih => exact .node (hP _ _ here) ih

theorem head_valid (i : Item) :
  i.head.Valid
  := by
  cases i with
  | number negative a | string text a payload | container isMap a elements =>
    exact a.head_valid (by split <;> decide)
  | chunked text chunks | unbounded isMap elements => exact Head.open_valid (by split <;> decide)
  | tagged a content | simple a => exact a.head_valid (by decide)

/-- No item begins with a break. -/
theorem bytes_ne_break :
  i.bytes ++ r ≠ 0xff :: r'
  := by
  intro heq
  rw [bytes_eq] at heq
  have hfirst := congrArg UInt8.toNat (cons.inj heq).1
  rw [Head.toNat_first i.head_valid] at hfirst
  have hff : (0xff : UInt8).toNat = 255 := rfl
  have hai := i.head_valid.ai_lt
  have h7 : i.head.major = 7 ∧ i.head.ai = 31 := by omega
  cases i with
  | simple a =>
    have := a.fits.ai_lt
    have hai : a.ai = 31 := h7.2
    omega
  | number negative a => cases negative <;> simp [head, Arg.head] at h7
  | string text a payload => cases text <;> simp [head, Arg.head] at h7
  | chunked text chunks => cases text <;> simp [head, Head.open] at h7
  | container isMap a elements => cases isMap <;> simp [head, Arg.head] at h7
  | unbounded isMap elements => cases isMap <;> simp [head, Head.open] at h7
  | tagged a content => simp [head, Arg.head] at h7

/-! ### Keys and values -/

/-- The keys and values of a map, which stand in turn. -/
def pairsOf : List Item → List (Item × Item)
  | k :: v :: l => (k, v) :: pairsOf l
  | _ => []

def keysOf (elements : List Item) : List Item := (pairsOf elements).map Prod.fst

/-- Pairs in one list. -/
def unpair (l : List (Item × Item)) : List Item := l.flatMap fun e => [e.1, e.2]

@[simp]
theorem unpair_cons (e : Item × Item) (l : List (Item × Item)) :
  unpair (e :: l) = e.1 :: e.2 :: unpair l
  := rfl

theorem length_unpair (l : List (Item × Item)) :
  (unpair l).length = 2 * l.length
  := by
  induction l with
  | nil => rfl
  | cons e l ih =>
    rw [unpair_cons, length_cons, length_cons, ih, length_cons]
    ring

@[simp]
theorem pairsOf_unpair (l : List (Item × Item)) :
  pairsOf (unpair l) = l
  := by
  induction l with
  | nil => rfl
  | cons e l ih => rw [unpair_cons, pairsOf, ih]

variable {l m : List Item} {j : Item}

/-- A list of even length is a list of pairs. -/
theorem unpair_pairsOf (h : 2 ∣ l.length) :
  unpair (pairsOf l) = l
  := by
  induction l using pairsOf.induct with
  | case1 k v l ih =>
    rw [pairsOf, unpair_cons, ih (by
      rw [length_cons, length_cons] at h
      omega)]
  | case2 l hl =>
    cases l with
    | nil => rfl
    | cons k l =>
      cases l with
      | nil => simp at h
      | cons v l => exact absurd rfl (hl k v l)

theorem mem_of_mem_pairsOf {e : Item × Item} (h : e ∈ pairsOf l) :
  e.1 ∈ l ∧ e.2 ∈ l
  := by
  induction l using pairsOf.induct with
  | case1 k v l ih =>
    rw [pairsOf, mem_cons] at h
    rcases h with rfl | h
    · simp
    · simp [ih h]
  | case2 l hl =>
    cases l with
    | nil => simp [pairsOf] at h
    | cons k l =>
      cases l with
      | nil => simp [pairsOf] at h
      | cons v l => exact absurd rfl (hl k v l)

/-! ### Items by their heads -/

theorem head_major (i : Item) :
  match i with
  | number _ _ => i.head.major ≤ 1
  | string _ _ _ => i.head.major = 2 ∨ i.head.major = 3
  | chunked _ _ => i.head.major = 2 ∨ i.head.major = 3
  | container _ _ _ => i.head.major = 4 ∨ i.head.major = 5
  | unbounded _ _ => i.head.major = 4 ∨ i.head.major = 5
  | tagged _ _ => i.head.major = 6
  | simple _ => i.head.major = 7
  := by
  cases i with
  | number negative _ => cases negative <;> simp [head, Arg.head]
  | string text _ _ => cases text <;> simp [head, Arg.head]
  | chunked text _ => cases text <;> simp [head, Head.open]
  | container isMap _ _ => cases isMap <;> simp [head, Arg.head]
  | unbounded isMap _ => cases isMap <;> simp [head, Head.open]
  | tagged _ _ => rfl
  | simple _ => rfl

/-- The flag that chooses between two major types is told by the head. -/
theorem flag_inj {p q : Bool} {m n : ℕ} (hmn : m ≠ n)
    (h : (if p then m else n) = if q then m else n) :
  p = q
  := by
  cases p <;> cases q <;> simp_all [eq_comm]

/-- Items of one major type are of one kind, with the same flag. -/
theorem of_major_eq :
  i.head.major = j.head.major → match i with
  | number negative _ => ∃ a, j = number negative a
  | string text _ _ | chunked text _ =>
    (∃ a payload, j = string text a payload) ∨ ∃ chunks, j = chunked text chunks
  | container isMap _ _ | unbounded isMap _ =>
    (∃ a elements, j = container isMap a elements) ∨ ∃ elements, j = unbounded isMap elements
  | tagged _ _ => ∃ a content, j = tagged a content
  | simple _ => ∃ a, j = simple a
  := by
  intro h
  have hi := head_major i
  have hj := head_major j
  -- only items with the same flag have the same major type
  cases i <;> cases j
  all_goals first
    | (dsimp only at hi hj; omega)
    | (obtain rfl := flag_inj (by decide) h; simp)
    | simp

/-- Items with the same head differ only in what follows it. -/
theorem of_head_eq :
  i.head = j.head → match i with
  | number _ _ | simple _ => j = i
  | string text a _ => ∃ payload, j = string text a payload
  | chunked text _ => ∃ chunks, j = chunked text chunks
  | container isMap a _ => ∃ elements, j = container isMap a elements
  | unbounded isMap _ => ∃ elements, j = unbounded isMap elements
  | tagged a _ => ∃ content, j = tagged a content
  := by
  intro h
  have hj := of_major_eq (congrArg Head.major h)
  cases i with
  | number negative a | simple a =>
    obtain ⟨a', rfl⟩ := hj
    rw [(Arg.head_inj h).2]
  | string text a payload =>
    obtain ⟨a', payload', rfl⟩ | ⟨chunks, rfl⟩ := hj
    · exact ⟨payload', by rw [(Arg.head_inj h).2]⟩
    · exact absurd h Arg.head_ne_open
  | chunked text chunks =>
    obtain ⟨a, payload, rfl⟩ | hj := hj
    · exact absurd h.symm Arg.head_ne_open
    · exact hj
  | container isMap a elements =>
    obtain ⟨a', elements', rfl⟩ | ⟨elements', rfl⟩ := hj
    · exact ⟨elements', by rw [(Arg.head_inj h).2]⟩
    · exact absurd h Arg.head_ne_open
  | unbounded isMap elements =>
    obtain ⟨a, elements', rfl⟩ | hj := hj
    · exact absurd h.symm Arg.head_ne_open
    · exact hj
  | tagged a content =>
    obtain ⟨a', content', rfl⟩ := hj
    exact ⟨content', by rw [(Arg.head_inj h).2]⟩

/-! ### Bytes spell at most one item -/

/-- The items that begin with the bytes of `i` begin as `i` does. -/
def Decodable (i : Item) : Prop :=
  ∀ (j : Item) (r r' : List UInt8), j.Formed → i.bytes ++ r = j.bytes ++ r' → i = j ∧ r = r'

/-- What is written one after the other is read back, if there is as much of it or none of it
begins like what comes after. -/
theorem flatMap_inj {α : Type} {f : α → List UInt8} {l m : List α} {t t' : List UInt8}
    (hinj : ∀ a ∈ l, ∀ b ∈ m, ∀ s s', f a ++ s = f b ++ s' → a = b ∧ s = s')
    (hend : l.length = m.length ∨ ∀ a s, f a ++ s ≠ t ∧ f a ++ s ≠ t')
    (h : l.flatMap f ++ t = m.flatMap f ++ t') :
  l = m ∧ t = t'
  := by
  induction l generalizing m with
  | nil =>
    cases m with
    | nil => exact ⟨rfl, h⟩
    | cons b m =>
      rw [flatMap_cons, append_assoc] at h
      exact absurd h.symm (hend.resolve_left (by simp) b _).1
  | cons a l ih =>
    rw [flatMap_cons, append_assoc] at h
    cases m with
    | nil => exact absurd h (hend.resolve_left (by simp) a _).2
    | cons b m =>
      rw [flatMap_cons, append_assoc] at h
      obtain ⟨rfl, htail⟩ := hinj a (by simp) b (by simp) _ _ h
      obtain ⟨rfl, ht⟩ := ih (fun a ha b hb => hinj a (by simp [ha]) b (by simp [hb]))
        (by simpa using hend) htail
      exact ⟨rfl, ht⟩

theorem head_ne_break (hmajor : major < 7) (a : Arg) (r r' : List UInt8) :
  (a.head major).bytes ++ r ≠ 0xff :: r'
  := by
  intro heq
  have hfirst := congrArg UInt8.toNat (cons.inj heq).1
  rw [Head.toNat_first (a.head_valid (by omega))] at hfirst
  have hff : (0xff : UInt8).toNat = 255 := rfl
  have := a.fits.ai_lt
  have h₂ : (a.head major).ai = a.ai := rfl
  omega

/-- Chunks that a break ends. -/
theorem chunkBytes_inj (hmajor : major < 7) {l m : List (Arg × List UInt8)}
    (hl : ∀ c ∈ l, c.2.length = c.1.val) (hm : ∀ c ∈ m, c.2.length = c.1.val)
    (h : chunkBytes major l ++ (0xff :: r) = chunkBytes major m ++ (0xff :: r')) :
  l = m ∧ r = r'
  := by
  have hne (c : Arg × List UInt8) (s r : List UInt8) :
      (c.1.head major).bytes ++ c.2 ++ s ≠ 0xff :: r := by
    rw [append_assoc]
    exact head_ne_break hmajor _ _ _
  have hinj : ∀ c ∈ l, ∀ d ∈ m, ∀ s s', (c.1.head major).bytes ++ c.2 ++ s
      = (d.1.head major).bytes ++ d.2 ++ s' → c = d ∧ s = s' := by
    intro c hc d hd s s' h
    rw [append_assoc, append_assoc] at h
    obtain ⟨hhead, htail⟩ :=
      Head.bytes_inj (c.1.head_valid (by omega)) (d.1.head_valid (by omega)) h
    obtain ⟨-, harg⟩ := Arg.head_inj hhead
    obtain ⟨hpayload, hs⟩ := append_inj htail (by rw [hl c hc, hm d hd, harg])
    exact ⟨Prod.ext harg hpayload, hs⟩
  obtain ⟨hlm, hr⟩ := flatMap_inj hinj (.inr fun c s => ⟨hne c s r, hne c s r'⟩) h
  exact ⟨hlm, (cons.inj hr).2⟩

theorem decodable_of_children (hi : i.Shaped) (ih : ∀ j ∈ i.children, j.Decodable) :
  i.Decodable
  := by
  intro j r r' hformed h
  obtain ⟨hshaped, hbelow⟩ := formed_iff.mp hformed
  rw [bytes_eq, bytes_eq, append_assoc, append_assoc] at h
  obtain ⟨hhead, h⟩ := Head.bytes_inj i.head_valid j.head_valid h
  have hj := of_head_eq hhead
  cases i with
  | number negative a | simple a =>
    obtain rfl := hj
    exact ⟨rfl, h⟩
  | string text a payload =>
    obtain ⟨payload', rfl⟩ := hj
    obtain ⟨hpayload, hr⟩ := append_inj h (hi.trans hshaped.symm)
    exact ⟨congrArg (string text a) hpayload, hr⟩
  | chunked text chunks =>
    obtain ⟨chunks', rfl⟩ := hj
    rw [body, body, append_assoc, append_assoc] at h
    obtain ⟨rfl, hr⟩ := chunkBytes_inj (by split <;> decide) hi hshaped h
    exact ⟨rfl, hr⟩
  | container isMap a elements =>
    obtain ⟨elements', rfl⟩ := hj
    rw [body, body, bytesAll_eq, bytesAll_eq] at h
    obtain ⟨rfl, hr⟩ := flatMap_inj (fun i hi j hj _ _ => ih i hi j _ _ (hbelow j hj))
      (.inl (hi.trans hshaped.symm)) h
    exact ⟨rfl, hr⟩
  | unbounded isMap elements =>
    obtain ⟨elements', rfl⟩ := hj
    rw [body, body, append_assoc, append_assoc, bytesAll_eq, bytesAll_eq] at h
    obtain ⟨rfl, hr⟩ := flatMap_inj (fun i hi j hj _ _ => ih i hi j _ _ (hbelow j hj))
      (.inr fun _ _ => ⟨bytes_ne_break, bytes_ne_break⟩) h
    exact ⟨rfl, (cons.inj hr).2⟩
  | tagged a content =>
    obtain ⟨content', rfl⟩ := hj
    obtain ⟨rfl, hr⟩ := ih content (by simp [children]) content' _ _
      (hbelow content' (by simp [children])) h
    exact ⟨rfl, hr⟩

/-- Items are prefix-free. -/
theorem bytes_inj (hi : i.Formed) (hj : j.Formed) (h : i.bytes ++ r = j.bytes ++ r') :
  i = j ∧ r = r'
  := by
  have hdecodable : i.Decodable := by
    clear h hj
    induction i using induction_children with
    | step i ih =>
      obtain ⟨hshaped, hbelow⟩ := formed_iff.mp hi
      exact decodable_of_children hshaped fun j hj => ih j hj (hbelow j hj)
  exact hdecodable j r r' hj h

theorem eq_of_bytes_eq (hi : i.Formed) (hj : j.Formed) (h : i.bytes = j.bytes) :
  i = j
  := (bytes_inj hi hj (congrArg (· ++ []) h)).1

end Item

end Cbor
