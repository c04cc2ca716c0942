import TinyGoDriver.Cbor.Item
import TinyGoDriver.Cbor.Reader
import TinyGoDriver.Go.Reads

/-!
# What the walks over a slice take

For each part of the walks over a byte slice, the bytes it takes: heads, lengths, chunks of a
string, loops over the elements of a container.  `reads_item` puts them together: a walk takes the
bytes of an item if, after every head, it takes what belongs to an item with that head.
-/

namespace Cbor

open GoRt List Item

/-- Taking bytes from a slice moves the offset. -/
def cursorFeed : Feed Cursor UInt8 where
  step c l c' := c'.data = c.data ∧ c.rest = l ++ c'.rest
  step_nil := by
    intro c c'
    constructor
    · rintro ⟨hdata, hrest⟩
      have h := rest_length_le c
      have h' := rest_length_le c'
      rw [hdata, ← h, hrest, List.nil_append] at h'
      have hoff : c.off = c'.off := by omega
      cases c
      cases c'
      simp_all
    · rintro rfl
      exact ⟨rfl, rfl⟩
  step_append := by
    intro c c' l m
    constructor
    · rintro ⟨hdata, hrest⟩
      have hlen := rest_length_le c
      have hle : c.off + l.length ≤ c.data.bytes.length := by
        rw [← hlen, hrest]
        simp
      have hdrop : (⟨c.data, c.off + l.length, hle⟩ : Cursor).rest = m ++ c'.rest := by
        rw [Cursor.rest, ← List.drop_drop]
        change c.rest.drop l.length = _
        rw [hrest, List.append_assoc, List.drop_left]
      exact ⟨⟨c.data, c.off + l.length, hle⟩, ⟨rfl, by rw [hdrop, hrest, List.append_assoc]⟩,
        hdata, hdrop⟩
    · rintro ⟨t, ⟨hdata, hrest⟩, hdata', hrest'⟩
      exact ⟨hdata'.trans hdata, by rw [hrest, hrest', List.append_assoc]⟩

variable {c : Cursor} {h : Head} {ai : ℕ} {α ε : Type} {Q : Item → Prop} {o : Limits}

theorem step_off {c' : Cursor} {l : List UInt8} (h : cursorFeed.step c l c') :
  c'.off = c.off + l.length
  := by
  have h₁ := rest_length_le c
  have h₂ := rest_length_le c'
  rw [h.2, length_append] at h₁
  rw [h.1] at h₂
  omega

theorem exists_step {l m : List UInt8} (h : c.rest = l ++ m) :
  ∃ t, cursorFeed.step c l t
  := by
  have hend : cursorFeed.step c (l ++ m) ⟨c.data, c.data.bytes.length, le_rfl⟩ :=
    ⟨rfl, by rw [h]; simp [Cursor.rest]⟩
  obtain ⟨t, hstep, -⟩ := cursorFeed.step_append.mp hend
  exact ⟨t, hstep⟩

/-! ### Heads and lengths -/

theorem reads_nextByte :
  Reads cursorFeed nextByte (fun b l => l = [b])
  := by
  intro c b c'
  have hlen := rest_length_le c
  rw [nextByte]
  split
  · rename_i hlt
    have hrest : c.rest = c.data.bytes[c.off] :: c.data.bytes.drop (c.off + 1) :=
      drop_eq_getElem_cons hlt
    have hstep : cursorFeed.step c [c.data.bytes[c.off]] ⟨c.data, c.off + 1, hlt⟩ := ⟨rfl, hrest⟩
    rw [EStateM.Result.ok.injEq]
    constructor
    · rintro ⟨rfl, rfl⟩
      exact ⟨_, hstep, rfl⟩
    rintro ⟨_, hstep', rfl⟩
    have hb : c.data.bytes[c.off] = b := by
      have := hrest.symm.trans hstep'.2
      exact (cons.inj this).1
    subst hb
    refine ⟨rfl, cursorFeed.step_nil.mp ⟨hstep'.1, ?_⟩⟩
    exact (cons.inj (hrest.symm.trans hstep'.2)).2
  · refine iff_of_false (by simp) ?_
    rintro ⟨_, hstep, rfl⟩
    rw [hstep.2] at hlen
    simp at hlen
    omega

theorem reads_take (n : ℕ) :
  Reads cursorFeed (take n) (fun a l => a = l ∧ l.length = n)
  := by
  intro c a c'
  have hlen := rest_length_le c
  have hlt := rest_length_lt c
  rw [maxSliceLen] at hlt
  by_cases hle : n ≤ c.rest.length
  · have htake : take n c = .ok (c.rest.take n) ⟨c.data, c.off + n, by omega⟩ := by
      rw [take, if_neg (by omega), if_neg (by omega), dif_pos (by omega)]
      rfl
    have hstep : cursorFeed.step c (c.rest.take n) ⟨c.data, c.off + n, by omega⟩ := by
      refine ⟨rfl, ?_⟩
      rw [Cursor.rest, Cursor.rest, ← drop_drop, take_append_drop]
    rw [htake, EStateM.Result.ok.injEq]
    constructor
    · rintro ⟨rfl, rfl⟩
      exact ⟨_, hstep, rfl, by rw [length_take, Nat.min_eq_left hle]⟩
    rintro ⟨l, hstep', rfl, rfl⟩
    have heq : c.rest.take a.length = a := by rw [hstep'.2, take_left]
    refine ⟨heq, cursorFeed.step_nil.mp ⟨hstep'.1, ?_⟩⟩
    have h := hstep.2.symm.trans hstep'.2
    rw [heq] at h
    exact append_cancel_left h
  · have hfail : ∀ c', take n c ≠ .ok a c' := by
      intro c' h
      have := (take_ok h).2.2
      omega
    refine iff_of_false (hfail c') ?_
    rintro ⟨l, hstep, rfl, rfl⟩
    rw [hstep.2, length_append] at hle
    omega

theorem reads_take_toInt {n : ℕ} (h : n ≤ maxSliceLen) :
  Reads cursorFeed (take (toInt n)) (fun a l => a = l ∧ l.length = n)
  := by
  rw [toInt_of_le h]
  exact reads_take n

/-- A head in terms of its first byte. -/
theorem Head.Valid.bytes_eq_cons {b : UInt8} {l : List UInt8} (hv : h.Valid) :
  b :: l = h.bytes
    ↔ h.major = b.toNat / 32 ∧ h.ai = b.toNat % 32 ∧ l = beBytes (argWidth h.ai) h.arg
  := by
  have hai := hv.ai_lt
  rw [Head.bytes, cons.injEq, ← UInt8.toNat_inj, Head.toNat_first hv]
  constructor
  · rintro ⟨hfirst, rfl⟩
    exact ⟨by omega, by omega, rfl⟩
  · rintro ⟨hmajor, hai, rfl⟩
    exact ⟨by omega, rfl⟩

theorem argWidth_pos (h : 24 ≤ ai) (h' : ai ≤ 27) :
  argWidth ai = 2 ^ (ai - 24)
  := if_pos ⟨h, h'⟩

theorem argWidth_eq_zero (h : ai < 24 ∨ 27 < ai) :
  argWidth ai = 0
  := if_neg (by omega)

/-- A head that has no further bytes. -/
theorem reads_short {major arg : ℕ} {b : UInt8} (hmajor : major = b.toNat / 32)
    (hai : ai = b.toNat % 32) (hv : (⟨major, ai, arg⟩ : Head).Valid) (hwidth : argWidth ai = 0) :
  Reads cursorFeed (pure ⟨major, ai, arg⟩ : GoM Err Cursor Head)
    (fun h l => h.Valid ∧ b :: l = h.bytes)
  := by
  have hbytes : (⟨major, ai, arg⟩ : Head).bytes = [b] := by
    rw [eq_comm, hv.bytes_eq_cons, hwidth]
    exact ⟨hmajor, hai, rfl⟩
  refine (Reads.pure _).congr fun h l => ?_
  constructor
  · rintro ⟨rfl, rfl⟩
    exact ⟨hv, hbytes.symm⟩
  rintro ⟨hv', heq⟩
  have happend : (⟨major, ai, arg⟩ : Head).bytes ++ l = h.bytes ++ [] := by
    rw [hbytes, append_nil, ← heq]
    rfl
  obtain ⟨rfl, rfl⟩ := Head.bytes_inj hv hv' happend
  exact ⟨rfl, rfl⟩

theorem reads_headArg (b : UInt8) :
  Reads cursorFeed (headArg (b.toNat / 32) (b.toNat % 32)) (fun h l => h.Valid ∧ b :: l = h.bytes)
  := by
  have hb := b.toNat_lt
  rw [headArg]
  split
  · rename_i hlt
    exact reads_short rfl rfl ⟨by change b.toNat / 32 < 8; omega, .inl (.inl ⟨hlt, rfl⟩)⟩
      (argWidth_eq_zero (.inl hlt))
  split
  · rename_i hlo hhi
    have hwidth := argWidth_pos (not_lt.mp hlo) hhi
    refine ((reads_take _).bind fun v _ => Reads.pure _).congr fun h l => ?_
    constructor
    · rintro ⟨v, l, m, rfl, ⟨rfl, hlen⟩, rfl, rfl⟩
      have hv : (⟨b.toNat / 32, b.toNat % 32, beNat v⟩ : Head).Valid := by
        refine ⟨by change b.toNat / 32 < 8; omega, .inl (.inr ⟨not_lt.mp hlo, hhi, ?_⟩)⟩
        rw [hwidth, ← hlen]
        exact beNat_lt v
      refine ⟨hv, hv.bytes_eq_cons.mpr ⟨rfl, rfl, ?_⟩⟩
      rw [append_nil, hwidth, ← hlen, beBytes_beNat]
    · rintro ⟨hv, heq⟩
      obtain ⟨hmajor, hai, hl⟩ := hv.bytes_eq_cons.mp heq
      have hfits : ArgFits h.ai h.arg := hv.fits (by
        rw [Head.indefinite]
        simp
        omega)
      have hlt : h.arg < 2 ^ (8 * argWidth h.ai) := by
        rcases hfits with ⟨hlt, -⟩ | ⟨-, -, hlt⟩
        · omega
        · exact hlt
      refine ⟨l, l, [], by simp, ⟨rfl, ?_⟩, ?_, rfl⟩
      · rw [hl, length_beBytes, hai, hwidth]
      · rw [hl, beNat_beBytes hlt, ← hmajor, ← hai]
  split
  · rename_i hlo hhi h31
    exact reads_short rfl rfl ⟨by change b.toNat / 32 < 8; omega, .inr ⟨h31, rfl⟩⟩
      (argWidth_eq_zero (.inr (by omega)))
  refine (Reads.fail _).congr fun h l => ?_
  refine iff_of_false id ?_
  rintro ⟨hv, heq⟩
  obtain ⟨-, hai, -⟩ := hv.bytes_eq_cons.mp heq
  rcases hv.2 with hfits | hindef
  · have := hfits.ai_lt
    omega
  · omega

/-- `head` takes the bytes of the head it returns. -/
theorem reads_head :
  Reads cursorFeed head (fun h l => h.Valid ∧ l = h.bytes)
  := by
  refine (reads_nextByte.bind fun b _ => reads_headArg b).congr fun h l => ?_
  constructor
  · rintro ⟨b, l, m, rfl, rfl, h⟩
    exact h
  · rintro ⟨hv, rfl⟩
    exact ⟨_, _, _, rfl, rfl, hv, rfl⟩

variable {P : α → List UInt8 → Prop} {x : GoM Failure Cursor α}

theorem reads_unplaced {x : GoM Err Cursor α} (hx : Reads cursorFeed x P) :
  Reads cursorFeed (unplaced x) P
  := by
  intro c a c'
  rw [← hx c a c', unplaced]
  cases x c <;> simp

theorem located_eq_ok {c c' : Cursor} {a : α} :
  located x c = .ok a c' ↔ x c = .ok a c'
  := by
  rw [located]
  cases x c <;> simp

theorem reads_located (hx : Reads cursorFeed x P) :
  Reads cursorFeed (located x) P
  := fun c a c' => located_eq_ok.trans (hx c a c')

/-! ### Loops -/

section Loops

variable {ε : Type} {x : GoM ε Cursor Unit} {P : List UInt8 → Prop}

/-- A loop of `n` turns takes what `n` turns take. -/
theorem reads_times (hx : Reads cursorFeed x (fun _ => P)) (n : ℕ) :
  Reads cursorFeed (times x n)
    (fun _ l => ∃ ls : List (List UInt8), ls.length = n ∧ (∀ m ∈ ls, P m) ∧ l = ls.flatten)
  := by
  induction n with
  | zero =>
    refine (Reads.pure ()).congr fun _ l => ?_
    constructor
    · rintro ⟨-, rfl⟩
      exact ⟨[], rfl, by simp, rfl⟩
    · rintro ⟨ls, hlen, -, rfl⟩
      rw [length_eq_zero_iff.mp hlen]
      exact ⟨rfl, rfl⟩
  | succ n ih =>
    refine (hx.bind fun _ _ => ih).congr fun _ l => ?_
    constructor
    · rintro ⟨-, l, m, rfl, hl, ls, hlen, hls, rfl⟩
      exact ⟨l :: ls, by simp [hlen], by simpa [hl] using hls, rfl⟩
    rintro ⟨ls, hlen, hls, rfl⟩
    cases ls with
    | nil => simp at hlen
    | cons l ls =>
      exact ⟨(), l, ls.flatten, rfl, hls l (by simp), ls, by simpa using hlen,
        fun m hm => hls m (by simp [hm]), rfl⟩

/-- A test for a break takes one, or nothing before another byte. -/
def TestsBreak (test : GoM ε Cursor Bool) : Prop :=
  ∀ c b c', test c = .ok b c' ↔
    (b = true ∧ cursorFeed.step c [0xff] c')
      ∨ (b = false ∧ c = c' ∧ ∃ first l, c.rest = first :: l ∧ first ≠ 0xff)

theorem testsBreak_atBreak :
  TestsBreak atBreak
  := by
  intro c b c'
  rw [atBreak, GoM.get_bind, GoM.bind_eq_ok]
  have hsplit : ∀ (a : UInt8) (t : Cursor),
      (if a = 0xff then (pure true : GoM Err Cursor Bool) else do set c; pure false) t = .ok b c' ↔
        (a = 0xff ∧ b = true ∧ t = c') ∨ (a ≠ 0xff ∧ b = false ∧ c = c') := by
    intro a t
    by_cases ha : a = 0xff
    · simp [ha, eq_comm]
    · rw [if_neg ha, GoM.bind_ok (GoM.set_apply t c)]
      simp [ha, eq_comm]
  constructor
  · rintro ⟨a, t, hnext, h⟩
    obtain ⟨_, hstep, rfl⟩ := (reads_nextByte c a t).mp hnext
    rcases (hsplit a t).mp h with ⟨rfl, rfl, rfl⟩ | ⟨ha, rfl, rfl⟩
    · exact .inl ⟨rfl, hstep⟩
    · exact .inr ⟨rfl, rfl, a, t.rest, hstep.2, ha⟩
  · rintro (⟨rfl, hstep⟩ | ⟨rfl, rfl, a, l, hrest, ha⟩)
    · exact ⟨0xff, c', (reads_nextByte c 0xff c').mpr ⟨_, hstep, rfl⟩, (hsplit _ _).mpr (by simp)⟩
    · obtain ⟨t, hstep⟩ := exists_step (l := [a]) hrest
      exact ⟨a, t, (reads_nextByte c a t).mpr ⟨_, hstep, rfl⟩, (hsplit _ _).mpr (by simp [ha])⟩

theorem TestsBreak.unplaced {test : GoM Err Cursor Bool} (h : TestsBreak test) :
  TestsBreak (unplaced test)
  := by
  intro c b c'
  rw [← h c b c', Cbor.unplaced]
  cases test c <;> simp

theorem TestsBreak.located {test : GoM Failure Cursor Bool} (h : TestsBreak test) :
  TestsBreak (located test)
  := fun c b c' => located_eq_ok.trans (h c b c')

/-- What begins with something else than a break. -/
def BreakFree (P : List UInt8 → Prop) : Prop := ∀ l, P l → ∃ first m, l = first :: m ∧ first ≠ 0xff

/-- Either a break, or a turn that takes something else. -/
theorem TestsBreak.reads {test : GoM ε Cursor Bool} (ht : TestsBreak test)
    (hx : Reads cursorFeed x (fun _ => P)) (hP : BreakFree P) :
  Reads cursorFeed (do if ← test then pure () else x) (fun _ l => l = [0xff] ∨ P l)
  := by
  intro c u c'
  rw [GoM.bind_eq_ok]
  constructor
  · rintro ⟨b, t, htest, h⟩
    rcases (ht c b t).mp htest with ⟨rfl, hstep⟩ | ⟨rfl, rfl, -⟩
    · rw [if_pos rfl, GoM.pure_apply, EStateM.Result.ok.injEq] at h
      rw [← h.2]
      exact ⟨_, hstep, .inl rfl⟩
    · obtain ⟨l, hstep, hl⟩ := (hx c u c').mp h
      exact ⟨l, hstep, .inr hl⟩
  · rintro ⟨l, hstep, rfl | hl⟩
    · exact ⟨true, c', (ht c true c').mpr (.inl ⟨rfl, hstep⟩), rfl⟩
    · obtain ⟨first, m, rfl, hfirst⟩ := hP l hl
      refine ⟨false, c, (ht c false c).mpr (.inr ⟨rfl, rfl, first, m ++ c'.rest, ?_, hfirst⟩), ?_⟩
      · rw [hstep.2]
        rfl
      · have := (hx c u c').mpr ⟨_, hstep, hl⟩
        simpa using this

theorem BreakFree.append {Q : List UInt8 → Prop} (hP : BreakFree P) :
  BreakFree (fun n => ∃ l m, n = l ++ m ∧ P l ∧ Q m)
  := by
  rintro _ ⟨l, m, rfl, hl, -⟩
  obtain ⟨first, l', rfl, hfirst⟩ := hP l hl
  exact ⟨first, l' ++ m, rfl, hfirst⟩

/-- Every key stands in order after the one before it. -/
def Chained (inOrder : Option (List UInt8) → List UInt8 → Bool) :
    Option (List UInt8) → List (List UInt8) → Prop
  | _, [] => True
  | prev, k :: l => inOrder prev k = true ∧ Chained inOrder (some k) l

/-- Chains of keys are in order throughout. -/
theorem chained_ordered {required : Bool} {o : KeyOrder} (keys : List (List UInt8)) :
  Chained (ordered required o) none keys ↔ (required = true → keys.Pairwise o.Before)
  := by
  have htrans : Trans o.Before o.Before o.Before := ⟨KeyOrder.Before.trans⟩
  have hsome : ∀ (l : List (List UInt8)) (q : List UInt8), Chained (ordered required o) (some q) l ↔
      (required = true → (q :: l).IsChain o.Before) := by
    intro l
    induction l with
    | nil => simp [Chained]
    | cons k l ih =>
      intro q
      rw [Chained, ih k, ordered]
      cases required <;> simp
  cases keys with
  | nil => simp [Chained]
  | cons k keys =>
    rw [Chained, hsome, ← isChain_iff_pairwise]
    simp [ordered]

theorem bytesBetween_step {c' : Cursor} {l : List UInt8} (h : cursorFeed.step c l c') :
  bytesBetween c c' = l
  := by
  rw [bytesBetween, drop_take, step_off h, Nat.add_sub_cancel_left]
  change c.rest.take _ = _
  rw [h.2, take_left]

/-- The loop over the pairs of a map. -/
theorem reads_pairs {key value : GoM ε Cursor Unit} {K V : List UInt8 → Prop}
    {inOrder : Option (List UInt8) → List UInt8 → Bool} {refusal : Cursor → ε}
    (hkey : Reads cursorFeed key (fun _ => K)) (hvalue : Reads cursorFeed value (fun _ => V))
    (prev : Option (List UInt8)) (n : ℕ) :
  Reads cursorFeed (pairs key value inOrder refusal prev n)
    (fun _ l => ∃ es : List (List UInt8 × List UInt8), es.length = n ∧ (∀ e ∈ es, K e.1 ∧ V e.2)
      ∧ Chained inOrder prev (es.map Prod.fst) ∧ l = es.flatMap fun e => e.1 ++ e.2)
  := by
  induction n generalizing prev with
  | zero =>
    refine (Reads.pure ()).congr fun _ l => ?_
    constructor
    · rintro ⟨-, rfl⟩
      exact ⟨[], rfl, by simp, trivial, rfl⟩
    · rintro ⟨es, hlen, -, -, rfl⟩
      rw [length_eq_zero_iff.mp hlen]
      exact ⟨rfl, rfl⟩
  | succ n ih =>
    intro c u c'
    rw [pairs, GoM.get_bind, GoM.bind_eq_ok]
    constructor
    · rintro ⟨_, t, hk, h⟩
      obtain ⟨k, hstep, hK⟩ := (hkey c () t).mp hk
      rw [GoM.get_bind, bytesBetween_step hstep] at h
      split at h
      · rename_i horder
        obtain ⟨m, hstep', -, v, m', rfl, hV, es, hlen, hes, hchain, rfl⟩ :=
          (hvalue.bind fun _ _ => ih (some k)) t u c' |>.mp h
        refine ⟨_, cursorFeed.step_append.mpr ⟨t, hstep, hstep'⟩, (k, v) :: es, ?_, ?_, ?_, ?_⟩
        · simp [hlen]
        · simpa [hK, hV] using hes
        · exact ⟨horder, hchain⟩
        · simp
      · cases h
    · rintro ⟨l, hstep, es, hlen, hes, hchain, rfl⟩
      cases es with
      | nil => simp at hlen
      | cons e es =>
        rw [flatMap_cons, append_assoc] at hstep
        obtain ⟨t, hstep, hstep'⟩ := cursorFeed.step_append.mp hstep
        refine ⟨(), t, (hkey c () t).mpr ⟨e.1, hstep, (hes e (by simp)).1⟩, ?_⟩
        rw [GoM.get_bind, bytesBetween_step hstep, if_pos hchain.1]
        refine ((hvalue.bind fun _ _ => ih (some e.1)) t u c').mpr ⟨_, hstep', (), e.2, _, rfl,
          (hes e (by simp)).2, es, by simpa using hlen, fun e' he' => hes e' (by simp [he']),
          hchain.2, rfl⟩

end Loops

/-! ### Items -/

/-- The bytes after a head that make it an item with `Q`. -/
def Spells (Q : Item → Prop) (h : Head) (l : List UInt8) : Prop :=
  ∃ i : Item, i.head = h ∧ i.body = l ∧ Q i

variable {body : Head → GoM ε Cursor Unit} {hd : GoM ε Cursor Head}

/-- A walk that takes the heads with `G` and, after every head, what belongs to an item with that
head. -/
theorem reads_item_where {G : Head → Prop}
    (hhead : Reads cursorFeed hd (fun h l => h.Valid ∧ G h ∧ l = h.bytes))
    (hbody : ∀ h, h.Valid → G h → Reads cursorFeed (body h) (fun _ => Spells Q h)) :
  Reads cursorFeed (hd >>= body) (fun _ l => ∃ i : Item, l = i.bytes ∧ G i.head ∧ Q i)
  := by
  refine (hhead.bind fun h hv => hbody h hv.choose_spec.1 hv.choose_spec.2.1).congr fun _ l => ?_
  constructor
  · rintro ⟨h, l, m, rfl, ⟨-, hG, rfl⟩, i, rfl, rfl, hQ⟩
    exact ⟨i, i.bytes_eq.symm, hG, hQ⟩
  · rintro ⟨i, rfl, hG, hQ⟩
    exact ⟨i.head, i.head.bytes, i.body, i.bytes_eq, ⟨i.head_valid, hG, rfl⟩, i, rfl, rfl, hQ⟩

/-- A walk that takes, after every head, what belongs to an item with that head. -/
theorem reads_item (hhead : Reads cursorFeed hd (fun h l => h.Valid ∧ l = h.bytes))
    (hbody : ∀ h, h.Valid → Reads cursorFeed (body h) (fun _ => Spells Q h)) :
  Reads cursorFeed (hd >>= body) (fun _ l => ∃ i : Item, l = i.bytes ∧ Q i)
  := by
  have hhead' : Reads cursorFeed hd (fun h l => h.Valid ∧ True ∧ l = h.bytes) :=
    hhead.congr fun _ _ => by rw [true_and]
  exact (reads_item_where hhead' fun h hv _ => hbody h hv).congr fun _ _ => by simp only [true_and]

/-- A walk that takes an item takes the whole slice exactly if the slice is an item. -/
theorem reads_whole {x : GoM ε Cursor Unit}
    (hx : Reads cursorFeed x (fun _ l => ∃ i : Item, l = i.bytes ∧ Q i)) (data : Slice) :
  (∃ c, x (Cursor.start data) = .ok () c ∧ c.off = data.bytes.length)
    ↔ ∃ i : Item, data.bytes = i.bytes ∧ Q i
  := by
  have hrest : (Cursor.start data).rest = data.bytes := rfl
  constructor
  · rintro ⟨c, hok, hoff⟩
    obtain ⟨_, hstep, i, rfl, hi⟩ := (hx _ () c).mp hok
    have hlen := rest_length_le c
    rw [hstep.1] at hlen
    change _ = data.bytes.length at hlen
    have hnil : c.rest = [] := length_eq_zero_iff.mp (by omega)
    exact ⟨i, by rw [← hrest, hstep.2, hnil, append_nil], hi⟩
  · rintro ⟨i, hbytes, hi⟩
    obtain ⟨c, hstep⟩ := exists_step
      (hrest.trans (hbytes.trans (append_nil _).symm))
    refine ⟨c, (hx _ () c).mpr ⟨_, hstep, i, rfl, hi⟩, ?_⟩
    rw [step_off hstep, hbytes]
    exact Nat.zero_add _

theorem Head.Valid.cases (hv : h.Valid) :
  (∃ m a, m < 8 ∧ h = Arg.head m a) ∨ ∃ m, m < 8 ∧ h = Head.open m
  := by
  obtain ⟨hmajor, hfits | ⟨hai, harg⟩⟩ := hv
  · exact .inl ⟨h.major, ⟨h.ai, h.arg, hfits⟩, hmajor, rfl⟩
  refine .inr ⟨h.major, hmajor, ?_⟩
  cases h
  simp_all [Head.open]

section Spells

variable {Q : Item → Prop} {a : Arg} {l : List UInt8}

theorem spells_number (negative : Bool) :
  Spells Q (a.head (if negative then 1 else 0)) l ↔ l = [] ∧ Q (.number negative a)
  := by
  constructor
  · rintro ⟨i, hhead, rfl, hQ⟩
    obtain rfl := of_head_eq (i := .number negative a) hhead.symm
    exact ⟨rfl, hQ⟩
  · rintro ⟨rfl, hQ⟩
    exact ⟨_, rfl, rfl, hQ⟩

theorem spells_string (text : Bool) :
  Spells Q (a.head (if text then 3 else 2)) l ↔ Q (.string text a l)
  := by
  constructor
  · rintro ⟨i, hhead, rfl, hQ⟩
    obtain ⟨payload, rfl⟩ := of_head_eq (i := .string text a []) hhead.symm
    exact hQ
  · intro hQ
    exact ⟨_, rfl, rfl, hQ⟩

/-- What follows the head of an item with content. -/
theorem spells_iff {ι : Type} (f : ι → Item) {h : Head} (hhead : ∀ x, (f x).head = h)
    (hf : ∀ i : Item, h = i.head → ∃ x, i = f x) :
  Spells Q h l ↔ ∃ x, l = (f x).body ∧ Q (f x)
  := by
  constructor
  · rintro ⟨i, hi, rfl, hQ⟩
    obtain ⟨x, rfl⟩ := hf i hi.symm
    exact ⟨x, rfl, hQ⟩
  · rintro ⟨x, rfl, hQ⟩
    exact ⟨f x, hhead x, rfl, hQ⟩

theorem spells_chunked (text : Bool) :
  Spells Q (Head.open (if text then 3 else 2)) l
    ↔ ∃ chunks, l = Item.chunkBytes (if text then 3 else 2) chunks ++ [0xff]
      ∧ Q (.chunked text chunks)
  := spells_iff (.chunked text) (fun _ => rfl) fun _ => of_head_eq (i := .chunked text [])

theorem spells_container (isMap : Bool) :
  Spells Q (a.head (if isMap then 5 else 4)) l
    ↔ ∃ elements, l = Item.bytesAll elements ∧ Q (.container isMap a elements)
  := spells_iff (.container isMap a) (fun _ => rfl) fun _ => of_head_eq (i := .container isMap a [])

theorem spells_unbounded (isMap : Bool) :
  Spells Q (Head.open (if isMap then 5 else 4)) l
    ↔ ∃ elements, l = Item.bytesAll elements ++ [0xff] ∧ Q (.unbounded isMap elements)
  := spells_iff (.unbounded isMap) (fun _ => rfl) fun _ => of_head_eq (i := .unbounded isMap [])

theorem spells_tagged :
  Spells Q (a.head 6) l ↔ ∃ content : Item, l = content.bytes ∧ Q (.tagged a content)
  := spells_iff (.tagged a) (fun _ => rfl) fun _ => of_head_eq (i := .tagged a (.simple a))

theorem spells_simple :
  Spells Q (a.head 7) l ↔ l = [] ∧ Q (.simple a)
  := by
  constructor
  · rintro ⟨i, hhead, rfl, hQ⟩
    obtain rfl := of_head_eq (i := .simple a) hhead.symm
    exact ⟨rfl, hQ⟩
  · rintro ⟨rfl, hQ⟩
    exact ⟨_, rfl, rfl, hQ⟩

/-- Only strings and containers have indefinite lengths. -/
theorem not_spells_open {m : ℕ} (hm : m ≤ 1 ∨ 6 ≤ m) :
  ¬ Spells Q (Head.open m) l
  := by
  rintro ⟨i, hhead, -, -⟩
  have hmajor := congrArg Head.major hhead
  cases i with
  | number negative a | string text a payload | container isMap a elements | tagged a content
  | simple a => exact Arg.head_ne_open hhead
  | chunked text chunks =>
    cases text <;> simp [Item.head, Head.open] at hmajor <;> omega
  | unbounded isMap elements =>
    cases isMap <;> simp [Item.head, Head.open] at hmajor <;> omega

/-- Elements that are all values of `f` are the values of a list. -/
theorem exists_map {β : Type} {f : α → β} {Q : α → Prop} {ls : List β} :
  (∀ m ∈ ls, ∃ i, m = f i ∧ Q i) ↔ ∃ l : List α, ls = l.map f ∧ ∀ i ∈ l, Q i
  := by
  induction ls with
  | nil => exact iff_of_true (by simp) ⟨[], rfl, by simp⟩
  | cons m ls ih =>
    rw [forall_mem_cons, ih]
    constructor
    · rintro ⟨⟨i, rfl, hi⟩, l, rfl, hl⟩
      exact ⟨i :: l, rfl, by simpa [hi] using hl⟩
    · rintro ⟨l, heq, hl⟩
      obtain ⟨i, l', rfl, rfl, rfl⟩ := map_eq_cons_iff.mp heq.symm
      exact ⟨⟨i, rfl, hl i (by simp)⟩, l', rfl, fun j hj => hl j (by simp [hj])⟩

theorem exists_bytesAll {R : ℕ → Prop} {S : List UInt8 → Prop} :
  (∃ ls : List (List UInt8), R ls.length ∧ (∀ m ∈ ls, ∃ i : Item, m = i.bytes ∧ Q i) ∧ S ls.flatten)
    ↔ ∃ elements : List Item, R elements.length ∧ (∀ i ∈ elements, Q i)
      ∧ S (Item.bytesAll elements)
  := by
  simp only [bytesAll_eq, flatMap]
  constructor
  · rintro ⟨ls, hlen, hls, hS⟩
    obtain ⟨elements, rfl, hQ⟩ := exists_map.mp hls
    exact ⟨elements, by simpa using hlen, hQ, hS⟩
  · rintro ⟨elements, hlen, hQ, hS⟩
    exact ⟨elements.map bytes, by simpa using hlen, exists_map.mpr ⟨elements, rfl, hQ⟩, hS⟩

/-- Pairs of spellings are spellings of pairs. -/
theorem exists_pairs {K V : Item → Prop} {es : List (List UInt8 × List UInt8)} :
  (∀ e ∈ es, (∃ i : Item, e.1 = i.bytes ∧ K i) ∧ ∃ i : Item, e.2 = i.bytes ∧ V i)
    ↔ ∃ l : List (Item × Item), es = l.map (fun e => (e.1.bytes, e.2.bytes))
      ∧ ∀ e ∈ l, K e.1 ∧ V e.2
  := by
  rw [← exists_map]
  refine forall₂_congr fun e _ => ?_
  constructor
  · rintro ⟨⟨k, hk, hK⟩, v, hv, hV⟩
    exact ⟨(k, v), Prod.ext hk hv, hK, hV⟩
  · rintro ⟨⟨k, v⟩, rfl, hK, hV⟩
    exact ⟨⟨k, rfl, hK⟩, v, rfl, hV⟩

theorem bytesAll_unpair (l : List (Item × Item)) :
  Item.bytesAll (Item.unpair l) = l.flatMap fun e => e.1.bytes ++ e.2.bytes
  := by
  induction l with
  | nil => rfl
  | cons e l ih =>
    rw [unpair_cons, bytesAll, bytesAll, ih, flatMap_cons, append_assoc]

theorem forall_mem_unpair {l : List (Item × Item)} :
  (∀ i ∈ Item.unpair l, Q i) ↔ ∀ e ∈ l, Q e.1 ∧ Q e.2
  := by
  induction l with
  | nil => simp [unpair]
  | cons e l ih =>
    rw [unpair_cons, forall_mem_cons, forall_mem_cons, forall_mem_cons, ih, and_assoc]

/-- The elements of a map, of which the keys meet one condition more. -/
theorem exists_entries {K : Item → Prop} {R : List (List UInt8) → Prop} {n : ℕ} :
  (∃ es : List (List UInt8 × List UInt8), es.length = n
      ∧ (∀ e ∈ es, (∃ i : Item, e.1 = i.bytes ∧ Q i ∧ K i) ∧ ∃ i : Item, e.2 = i.bytes ∧ Q i)
      ∧ R (es.map Prod.fst) ∧ l = es.flatMap fun e => e.1 ++ e.2)
    ↔ ∃ elements : List Item, elements.length = 2 * n ∧ (∀ i ∈ elements, Q i)
      ∧ (∀ k ∈ Item.keysOf elements, K k) ∧ R ((Item.keysOf elements).map Item.bytes)
      ∧ l = Item.bytesAll elements
  := by
  constructor
  · rintro ⟨es, hlen, hes, hR, rfl⟩
    obtain ⟨ps, rfl, hps⟩ := exists_pairs.mp hes
    refine ⟨unpair ps, ?_, forall_mem_unpair.mpr fun e he => ⟨(hps e he).1.1, (hps e he).2⟩,
      ?_, ?_, ?_⟩
    · rw [length_unpair, ← hlen, length_map]
    · rw [keysOf, pairsOf_unpair]
      intro k hk
      obtain ⟨e, he, rfl⟩ := mem_map.mp hk
      exact (hps e he).1.2
    · rw [keysOf, pairsOf_unpair, map_map]
      rwa [map_map] at hR
    · rw [bytesAll_unpair, flatMap_map]
  · rintro ⟨elements, hlen, hQ, hK, hR, rfl⟩
    obtain ⟨ps, rfl⟩ : ∃ ps, elements = unpair ps :=
      ⟨_, (unpair_pairsOf ⟨n, hlen⟩).symm⟩
    rw [keysOf, pairsOf_unpair] at hK hR
    rw [length_unpair] at hlen
    have hQ := forall_mem_unpair.mp hQ
    refine ⟨ps.map fun e => (e.1.bytes, e.2.bytes), by rw [length_map]; omega,
      exists_pairs.mpr ⟨ps, rfl, fun e he => ⟨⟨(hQ e he).1, hK _ (mem_map_of_mem he)⟩,
        (hQ e he).2⟩⟩, ?_, ?_⟩
    · rwa [map_map] at hR ⊢
    · rw [bytesAll_unpair, flatMap_map]

theorem breakFree_items :
  BreakFree (fun l => ∃ i : Item, l = i.bytes ∧ Q i)
  := by
  rintro _ ⟨i, rfl, -⟩
  cases hbytes : i.bytes with
  | nil => exact absurd hbytes i.bytes_ne_nil
  | cons first m =>
    refine ⟨first, m, rfl, ?_⟩
    rintro rfl
    exact bytes_ne_break (by rw [hbytes, append_nil])

end Spells

/-! ### Strings -/

/-- The bytes of the chunks of a string. -/
def chunkTotal (chunks : List (Arg × List UInt8)) : ℕ := (chunks.map fun c => c.2.length).sum

theorem chunkTotal_cons (c : Arg × List UInt8) (chunks : List (Arg × List UInt8)) :
  chunkTotal (c :: chunks) = c.2.length + chunkTotal chunks
  := by
  simp [chunkTotal]

theorem chunkBytes_cons (major : ℕ) (c : Arg × List UInt8) (chunks : List (Arg × List UInt8)) :
  Item.chunkBytes major (c :: chunks)
    = (c.1.head major).bytes ++ (c.2 ++ Item.chunkBytes major chunks)
  := by
  simp [chunkBytes]

/-- What one chunk and the chunks after it take. -/
theorem reads_skipChunk {major total : ℕ} {next : ℕ → GoM Err Cursor Unit}
    {P : ℕ → List UInt8 → Prop} (hmajor : major < 7)
    (hnext : ∀ t, t ≤ o.maxStringBytes → Reads cursorFeed (next t) (fun _ => P t))
    (htotal : total ≤ o.maxStringBytes) :
  Reads cursorFeed
    (do
      let h ← head
      if h.indefinite ∨ h.major ≠ major then
        GoM.fail (.malformed .invalidChunk)
      else if o.maxStringBytes < (total + h.arg) % 2 ^ 64 ∨ maxSliceLen < h.arg then
        GoM.fail (.limitExceeded .stringBytes)
      else
        let _ ← take (toInt h.arg)
        next ((total + h.arg) % 2 ^ 64))
    (fun _ l => ∃ (a : Arg) (payload m : List UInt8), payload.length = a.val
      ∧ total + payload.length ≤ o.maxStringBytes
      ∧ P (total + payload.length) m ∧ l = (a.head major).bytes ++ (payload ++ m))
  := by
  have hmax := o.string_le
  refine (reads_head.bind fun h hv => Reads.ite (fun _ => Reads.fail _) fun _ =>
    Reads.ite (fun _ => Reads.fail _) fun hlimit =>
      (reads_take_toInt (by omega)).bind fun _ _ => hnext _ (by omega)).congr fun _ l => ?_
  simp only [and_false, false_or]
  constructor
  · rintro ⟨h, _, _, rfl, ⟨hv, rfl⟩, hkind, hlimit, _, payload, m, rfl, ⟨-, hlen⟩, hP⟩
    simp only [not_or, Bool.not_eq_true, not_not] at hkind
    obtain ⟨m', a, -, rfl⟩ | ⟨m', -, rfl⟩ := hv.cases
    · obtain rfl : m' = major := hkind.2
      have hval : (a.head m').arg = a.val := rfl
      rw [hval] at hlen hlimit hP
      have hmod : (total + a.val) % 2 ^ 64 = total + a.val := by
        apply Nat.mod_eq_of_lt
        rw [maxSliceLen] at *
        omega
      rw [hmod] at hP hlimit
      exact ⟨a, payload, m, hlen, by omega, by rwa [hlen], rfl⟩
    · simp [Head.open, Head.indefinite] at hkind
  · rintro ⟨a, payload, m, hlen, hle, hP, rfl⟩
    have hval : (a.head major).arg = a.val := rfl
    have hmod : (total + a.val) % 2 ^ 64 = total + a.val := by
      apply Nat.mod_eq_of_lt
      rw [maxSliceLen] at *
      omega
    refine ⟨a.head major, _, _, rfl, ⟨a.head_valid (by omega), rfl⟩, ?_, ?_, payload, payload, m,
      rfl, ⟨rfl, hlen⟩, ?_⟩
    · rw [Arg.indefinite_head]
      simp [Arg.head]
    · omega
    · rw [hval, hmod, ← hlen]
      exact hP

theorem reads_skipChunks {major : ℕ} (hmajor : major < 7) (fuel : ℕ) {total : ℕ}
    (htotal : total ≤ o.maxStringBytes) :
  Reads cursorFeed (skipChunks o major fuel total)
    (fun _ l => ∃ chunks : List (Arg × List UInt8), chunks.length < fuel
      ∧ (∀ c ∈ chunks, c.2.length = c.1.val) ∧ total + chunkTotal chunks ≤ o.maxStringBytes
      ∧ l = Item.chunkBytes major chunks ++ [0xff])
  := by
  induction fuel generalizing total with
  | zero =>
    intro c u c'
    refine iff_of_false (by simp [skipChunks]) ?_
    rintro ⟨l, -, chunks, hlt, -⟩
    omega
  | succ fuel ih =>
    have hchunk := reads_skipChunk hmajor (fun t ht => ih ht) htotal
    refine (testsBreak_atBreak.reads hchunk ?_).congr fun _ l => ?_
    · rintro _ ⟨a, payload, m, -, -, -, rfl⟩
      refine ⟨_, _, rfl, fun hff => ?_⟩
      exact head_ne_break hmajor a (payload ++ m) _ (by rw [Head.bytes, hff]; rfl)
    constructor
    · rintro (rfl | ⟨a, payload, m, hlen, hle, ⟨chunks, hlt, hchunks, htotal', rfl⟩, rfl⟩)
      · exact ⟨[], by simp, by simp, by simpa [chunkTotal] using htotal, rfl⟩
      · refine ⟨(a, payload) :: chunks, by simpa using hlt, ?_, ?_, ?_⟩
        · simpa [hlen] using hchunks
        · rw [chunkTotal_cons]
          dsimp only
          omega
        · simp [chunkBytes_cons]
    · rintro ⟨chunks, hlt, hchunks, htotal', rfl⟩
      cases chunks with
      | nil => exact .inl rfl
      | cons c chunks =>
        rw [chunkTotal_cons] at htotal'
        refine .inr ⟨c.1, c.2, _, hchunks c (by simp), by omega,
          ⟨chunks, ?_, ?_, ?_, rfl⟩, ?_⟩
        · simpa using hlt
        · exact fun d hd => hchunks d (by simp [hd])
        · omega
        · simp [chunkBytes_cons]

theorem length_le_chunkBytes (major : ℕ) (chunks : List (Arg × List UInt8)) :
  chunks.length ≤ (Item.chunkBytes major chunks).length
  := by
  induction chunks with
  | nil => simp
  | cons c chunks ih =>
    rw [chunkBytes_cons, Head.bytes]
    simp
    omega

/-- `skipString` takes the bytes of a string after its head. -/
theorem reads_skipString (hmajor : h.major < 7) :
  Reads cursorFeed (skipString o h) (fun _ l =>
    (h.indefinite = true ∧ ∃ chunks : List (Arg × List UInt8), (∀ c ∈ chunks, c.2.length = c.1.val)
      ∧ chunkTotal chunks ≤ o.maxStringBytes ∧ l = Item.chunkBytes h.major chunks ++ [0xff])
    ∨ (h.indefinite = false ∧ l.length = h.arg ∧ h.arg ≤ o.maxStringBytes))
  := by
  have hmax := o.string_le
  rw [skipString]
  cases hindef : h.indefinite with
  | true =>
    intro c u c'
    rw [if_pos rfl, GoM.get_bind, reads_skipChunks hmajor _ (Nat.zero_le _) c u c']
    simp only [true_and, reduceCtorEq, false_and, or_false, Nat.zero_add]
    constructor
    · rintro ⟨l, hstep, chunks, -, h⟩
      exact ⟨l, hstep, chunks, h⟩
    rintro ⟨l, hstep, chunks, hchunks, htotal, rfl⟩
    refine ⟨_, hstep, chunks, ?_, hchunks, htotal, rfl⟩
    have := length_le_chunkBytes h.major chunks
    rw [hstep.2]
    simp
    omega
  | false =>
    refine (Reads.ite (fun _ => Reads.fail _) fun hlimit =>
      (reads_take_toInt (by omega)).bind fun _ _ => Reads.pure ()).congr fun _ l => ?_
    simp only [and_false, false_or, reduceCtorEq, false_and, true_and]
    constructor
    · rintro ⟨hlimit, _, l, m, rfl, ⟨-, hlen⟩, rfl⟩
      exact ⟨by simpa using hlen, by omega⟩
    · rintro ⟨hlen, hle⟩
      exact ⟨by omega, l, l, [], by simp, ⟨rfl, hlen⟩, rfl⟩

end Cbor
