import TinyGoDriver.Cbor.Encoder

/-!
# Values

What an item means, apart from how it is written.  An integer is a number, a string the bytes of
its chunks, a float the double that it stands for, and a map a list of entries.  Two values are the
same if they differ at most in the order of map entries and in which NaN stands for NaN
(`Value.Same`).

The deterministic form is one: two items that `validateRaw` accepts and that mean the same are
spelled alike (`DeterministicParser.Permits.unique`).
-/

namespace Cbor

open GoRt Ieee List Item

/-- A CBOR value. -/
inductive Value where
  | integer (n : ℤ)
  | bytes (l : List UInt8)
  | text (l : List UInt8)
  | array (elements : List Value)
  | map (entries : List (Value × Value))
  | tag (n : ℕ) (content : Value)
  | bool (b : Bool)
  | null
  | float (bits : ℕ)

namespace Value

/-- Keys and values in turn, as entries. -/
def entriesOf : List Value → List (Value × Value)
  | k :: v :: l => (k, v) :: entriesOf l
  | _ => []

/-- The values are the same up to the order of map entries and the choice of NaN. -/
inductive Same : Value → Value → Prop
  | integer (n : ℤ) : Same (integer n) (integer n)
  | bytes (l : List UInt8) : Same (bytes l) (bytes l)
  | text (l : List UInt8) : Same (text l) (text l)
  | array {l m : List Value} (length_eq : l.length = m.length)
      (each : ∀ e ∈ l.zip m, Same e.1 e.2) : Same (array l) (array m)
  /-- every entry of one map stands for an entry of the other -/
  | map {l m : List (Value × Value)} (there back : Value × Value → Value × Value)
      (there_mem : ∀ e ∈ l, there e ∈ m)
      (there_key : ∀ e ∈ l, Same e.1 (there e).1) (there_value : ∀ e ∈ l, Same e.2 (there e).2)
      (back_mem : ∀ e ∈ m, back e ∈ l)
      (back_key : ∀ e ∈ m, Same (back e).1 e.1) (back_value : ∀ e ∈ m, Same (back e).2 e.2) :
      Same (map l) (map m)
  | tag (n : ℕ) {v w : Value} (content : Same v w) : Same (tag n v) (tag n w)
  | bool (b : Bool) : Same (bool b) (bool b)
  | null : Same null null
  | float (bits : ℕ) : Same (float bits) (float bits)
  | nan {a b : ℕ} (left : isNaN a = true) (right : isNaN b = true) : Same (float a) (float b)

/-- Maps are the same if they have the same entries. -/
theorem same_map_iff {l m : List (Value × Value)} :
  Same (map l) (map m)
    ↔ (∀ e ∈ l, ∃ e' ∈ m, Same e.1 e'.1 ∧ Same e.2 e'.2)
      ∧ (∀ e' ∈ m, ∃ e ∈ l, Same e.1 e'.1 ∧ Same e.2 e'.2)
  := by
  constructor
  · intro h
    cases h with
    | map there back there_mem there_key there_value back_mem back_key back_value =>
      exact ⟨fun e he => ⟨there e, there_mem e he, there_key e he, there_value e he⟩,
        fun e he => ⟨back e, back_mem e he, back_key e he, back_value e he⟩⟩
  · rintro ⟨hl, hm⟩
    choose! there hthere using hl
    choose! back hback using hm
    exact .map there back (fun e he => (hthere e he).1) (fun e he => (hthere e he).2.1)
      (fun e he => (hthere e he).2.2) (fun e he => (hback e he).1) (fun e he => (hback e he).2.1)
      (fun e he => (hback e he).2.2)

theorem same_integer {n m : ℤ} (h : Same (integer n) (integer m)) :
  n = m
  := by
  cases h
  rfl

theorem same_bytes {l m : List UInt8} (h : Same (bytes l) (bytes m)) :
  l = m
  := by
  cases h
  rfl

theorem same_text {l m : List UInt8} (h : Same (text l) (text m)) :
  l = m
  := by
  cases h
  rfl

theorem same_array {l m : List Value} (h : Same (array l) (array m)) :
  l.length = m.length ∧ ∀ e ∈ l.zip m, Same e.1 e.2
  := by
  cases h with
  | array length_eq each => exact ⟨length_eq, each⟩

theorem same_tag {n m : ℕ} {v w : Value} (h : Same (tag n v) (tag m w)) :
  n = m ∧ Same v w
  := by
  cases h with
  | tag n content => exact ⟨rfl, content⟩

/-- The major type of the items that mean a value. -/
def major : Value → ℕ
  | integer n => if n < 0 then 1 else 0
  | bytes _ => 2
  | text _ => 3
  | array _ => 4
  | map _ => 5
  | tag _ _ => 6
  | bool _ => 7
  | null => 7
  | float _ => 7

theorem Same.major_eq {v w : Value} (h : Same v w) :
  v.major = w.major
  := by
  cases h <;> rfl

end Value

/-- The value of a boolean, of null or of a float. -/
def Arg.simpleValue (a : Arg) : Value :=
  if a.ai = 20 then .bool false
  else if a.ai = 21 then .bool true
  else if a.ai = 22 then .null
  else if a.ai = 25 then .float (float16 a.val)
  else if a.ai = 26 then .float (float64OfSingle a.val)
  else .float a.val

namespace Item

mutual

/-- What an item means. -/
def value : Item → Value
  | number false a => .integer a.val
  | number true a => .integer (-1 - a.val)
  | string false _ payload => .bytes payload
  | string true _ payload => .text payload
  | chunked false chunks => .bytes (chunks.flatMap Prod.snd)
  | chunked true chunks => .text (chunks.flatMap Prod.snd)
  | container false _ elements => .array (valueAll elements)
  | container true _ elements => .map (Value.entriesOf (valueAll elements))
  | unbounded false elements => .array (valueAll elements)
  | unbounded true elements => .map (Value.entriesOf (valueAll elements))
  | tagged a content => .tag a.val content.value
  | simple a => a.simpleValue

/-- What some items mean. -/
def valueAll : List Item → List Value
  | [] => []
  | i :: l => i.value :: valueAll l

end

theorem valueAll_eq (l : List Item) :
  valueAll l = l.map value
  := by
  induction l with
  | nil => rfl
  | cons i l ih => rw [valueAll, ih, map_cons]

theorem entriesOf_valueAll (l : List Item) :
  Value.entriesOf (valueAll l) = (pairsOf l).map fun e => (e.1.value, e.2.value)
  := by
  induction l using pairsOf.induct with
  | case1 k v l ih => rw [valueAll, valueAll, Value.entriesOf, ih, pairsOf, map_cons]
  | case2 l hl =>
    cases l with
    | nil => rfl
    | cons k l =>
      cases l with
      | nil => rfl
      | cons v l => exact absurd rfl (hl k v l)

theorem major_value (i : Item) :
  i.value.major = i.head.major
  := by
  cases i with
  | number negative a =>
    cases negative with
    | false => simp [value, Value.major, head, Arg.head]
    | true =>
      have : (-1 - (a.val : ℤ)) < 0 := by omega
      simp [value, Value.major, head, Arg.head, this]
  | string text a payload | chunked text chunks => cases text <;> rfl
  | container isMap a elements | unbounded isMap elements => cases isMap <;> rfl
  | tagged a content => rfl
  | simple a =>
    rw [value, Arg.simpleValue]
    split
    · rfl
    split
    · rfl
    split
    · rfl
    split
    · rfl
    · split <;> rfl

end Item

/-- The bytes are one item, and `v` is what it means. -/
def Denotes (l : List UInt8) (v : Value) : Prop :=
  ∃ i : Item, i.Formed ∧ l = i.bytes ∧ i.value = v

/-! ### The deterministic form is unique -/

variable {a b : Arg}

theorem Arg.ext (hai : a.ai = b.ai) (hval : a.val = b.val) :
  a = b
  := by
  cases a
  cases b
  simp_all

namespace DeterministicParser

/-- An argument has one spelling that is as short as it can be. -/
theorem eq_of_minimal (h : a.val = b.val) (ha : nonMinimal a.ai a.val = false)
    (hb : nonMinimal b.ai b.val = false) :
  a = b
  := by
  refine Arg.ext ?_ h
  have hafits := a.fits
  have hbfits := b.fits
  rw [nonMinimal_eq_false] at ha hb
  have hwidth : ∀ {c : Arg}, ArgFits c.ai c.val → c.ai < 24 ∧ c.val = c.ai
      ∨ c.ai = 24 ∧ c.val < 2 ^ 8 ∨ c.ai = 25 ∧ c.val < 2 ^ 16 ∨ c.ai = 26 ∧ c.val < 2 ^ 32
      ∨ c.ai = 27 := by
    rintro c (⟨hlt, hval⟩ | ⟨hlo, hhi, hval⟩)
    · exact .inl ⟨hlt, hval⟩
    · obtain h24 | h25 | h26 | h27 : c.ai = 24 ∨ c.ai = 25 ∨ c.ai = 26 ∨ c.ai = 27 := by omega
      · rw [h24] at hval
        exact .inr (.inl ⟨h24, hval⟩)
      · rw [h25] at hval
        exact .inr (.inr (.inl ⟨h25, hval⟩))
      · rw [h26] at hval
        exact .inr (.inr (.inr (.inl ⟨h26, hval⟩)))
      · exact .inr (.inr (.inr (.inr h27)))
  rcases hwidth hafits with ha' | ha' | ha' | ha' | ha' <;>
    rcases hwidth hbfits with hb' | hb' | hb' | hb' | hb' <;> omega

/-- The double that a float stands for. -/
def floatBits (a : Arg) : ℕ :=
  if a.ai = 25 then float16 a.val else if a.ai = 26 then float64OfSingle a.val else a.val

section

variable (hai : a.ai = 25 ∨ a.ai = 26 ∨ a.ai = 27)
include hai

/-- Only one spelling of NaN is accepted. -/
theorem PermitsSimple.of_isNaN (ha : PermitsSimple a)
    (hnan : isNaN (floatBits a) = true) :
  a.ai = 25 ∧ a.val = 0x7e00
  := by
  rw [floatBits] at hnan
  rcases hai with h | h | h
  · rw [if_pos h] at hnan
    exact ⟨h, ha.1 h hnan⟩
  · rw [if_neg (by omega), if_pos h, (ha.2.1 h).1] at hnan
    cases hnan
  · rw [if_neg (by omega), if_neg (by omega), (ha.2.2 h).1] at hnan
    cases hnan

/-- A number that a narrower float holds is not accepted in a wider one. -/
theorem PermitsSimple.ai_eq (hbi : b.ai = 25 ∨ b.ai = 26 ∨ b.ai = 27) (hb : PermitsSimple b)
    (hnan : isNaN (floatBits a) = false) (h : floatBits a = floatBits b) (hle : a.ai ≤ b.ai) :
  a.ai = b.ai
  := by
  rw [floatBits] at hnan
  rw [floatBits, floatBits] at h
  rcases hai with ha | ha | ha
  · rw [if_pos ha] at h hnan
    have hhalf : Format.half.isNaN a.val = false := by rwa [isNaN_float16] at hnan
    rcases hbi with hb' | hb' | hb'
    · rw [ha, hb']
    · rw [if_neg (by omega), if_pos hb'] at h
      have hnone := (hb.2.1 hb').2
      rw [← h, exactHalf_float16 hhalf] at hnone
      cases hnone
    · rw [if_neg (by omega), if_neg (by omega)] at h
      have hsame := (hb.2.2 hb').2
      rw [← h, singleOfFloat64, float16_eq hhalf,
        half_within_double.convert_convert half_within_single hhalf, float64OfSingle,
        half_within_single.convert_convert half_within_double hhalf, ← float16_eq hhalf,
        Format.same_self hnan] at hsame
      cases hsame
  · rw [if_neg (by omega), if_pos ha] at h hnan
    have hb' : b.ai = 26 ∨ b.ai = 27 := by omega
    rcases hb' with hb' | hb'
    · rw [ha, hb']
    rw [if_neg (by omega), if_neg (by omega)] at h
    have hsingle : Format.single.isNaN a.val = false := by rwa [isNaN_float64OfSingle] at hnan
    have hback : singleOfFloat64 (float64OfSingle a.val) = a.val :=
      single_within_double.convert_back hsingle
    have hsame := (hb.2.2 hb').2
    rw [← h, hback, Format.same_self hnan] at hsame
    cases hsame
  · omega

/-- A float has one spelling that is accepted. -/
theorem PermitsSimple.float_unique (hbi : b.ai = 25 ∨ b.ai = 26 ∨ b.ai = 27)
    (ha : PermitsSimple a) (hb : PermitsSimple b)
    (h : Value.Same (.float (floatBits a)) (.float (floatBits b))) :
  a = b
  := by
  have hboth : isNaN (floatBits a) = true → isNaN (floatBits b) = true → a = b := by
    intro hna hnb
    obtain ⟨hai, hav⟩ := ha.of_isNaN hai hna
    obtain ⟨hbi, hbv⟩ := hb.of_isNaN hbi hnb
    exact Arg.ext (by rw [hai, hbi]) (by rw [hav, hbv])
  obtain heq | ⟨hna, hnb⟩ : floatBits a = floatBits b
      ∨ (isNaN (floatBits a) = true ∧ isNaN (floatBits b) = true) := by
    generalize floatBits a = x, floatBits b = y at h
    cases h with
    | float => exact .inl rfl
    | nan left right => exact .inr ⟨left, right⟩
  swap
  · exact hboth hna hnb
  cases hnan : isNaN (floatBits a) with
  | true => exact hboth hnan (heq ▸ hnan)
  | false =>
    have hsame : a.ai = b.ai := by
      rcases Nat.le_total a.ai b.ai with hle | hle
      · exact PermitsSimple.ai_eq hai hbi hb hnan heq hle
      · exact (PermitsSimple.ai_eq hbi hai ha (heq ▸ hnan) heq.symm hle).symm
    refine Arg.ext hsame ?_
    rw [floatBits] at hnan
    rw [floatBits, floatBits, ← hsame] at heq
    rcases hai with hai | hai | hai
    · rw [if_pos hai] at hnan
      rw [if_pos hai, if_pos hai] at heq
      have hx : Format.half.isNaN a.val = false := by rwa [isNaN_float16] at hnan
      have hy : Format.half.isNaN b.val = false := by rwa [heq, isNaN_float16] at hnan
      rw [float16_eq hx, float16_eq hy] at heq
      rw [← half_within_double.convert_back hx, heq, half_within_double.convert_back hy]
    · have hne : a.ai ≠ 25 := by omega
      rw [if_neg hne, if_pos hai] at hnan
      rw [if_neg hne, if_neg hne, if_pos hai, if_pos hai] at heq
      have hx : Format.single.isNaN a.val = false := by rwa [isNaN_float64OfSingle] at hnan
      have hy : Format.single.isNaN b.val = false := by rwa [heq, isNaN_float64OfSingle] at hnan
      rw [float64OfSingle, float64OfSingle] at heq
      rw [← single_within_double.convert_back hx, heq, single_within_double.convert_back hy]
    · have hne : a.ai ≠ 25 := by omega
      have hne' : a.ai ≠ 26 := by omega
      rwa [if_neg hne, if_neg hne, if_neg hne', if_neg hne'] at heq

theorem simpleValue_float :
  a.simpleValue = .float (floatBits a)
  := by
  rw [Arg.simpleValue, floatBits, if_neg (by omega), if_neg (by omega), if_neg (by omega)]
  split
  · rfl
  · split <;> rfl

end

/-- A simple value has one spelling that is accepted. -/
theorem PermitsSimple.unique (hai : a.ai ∈ [20, 21, 22, 25, 26, 27])
    (hbi : b.ai ∈ [20, 21, 22, 25, 26, 27]) (ha : PermitsSimple a) (hb : PermitsSimple b)
    (h : Value.Same a.simpleValue b.simpleValue) :
  a = b
  := by
  -- the three constants and the floats
  have hcases : ∀ {c : Arg}, c.ai ∈ [20, 21, 22, 25, 26, 27] →
      (c.ai = 20 ∧ c.simpleValue = .bool false) ∨ (c.ai = 21 ∧ c.simpleValue = .bool true)
        ∨ (c.ai = 22 ∧ c.simpleValue = .null)
        ∨ ((c.ai = 25 ∨ c.ai = 26 ∨ c.ai = 27) ∧ c.simpleValue = .float (floatBits c)) := by
    intro c hc
    simp only [mem_cons, not_mem_nil, or_false] at hc
    rcases hc with h | h | h | h
    · exact .inl ⟨h, by rw [Arg.simpleValue, if_pos h]⟩
    · exact .inr (.inl ⟨h, by rw [Arg.simpleValue, if_neg (by omega), if_pos h]⟩)
    · exact .inr (.inr (.inl ⟨h, by
        rw [Arg.simpleValue, if_neg (by omega), if_neg (by omega), if_pos h]⟩))
    · exact .inr (.inr (.inr ⟨h, simpleValue_float h⟩))
  have hconst : a.ai = b.ai → a.ai < 24 → a = b := by
    intro heq hlt
    refine Arg.ext heq ?_
    rcases a.fits with ⟨-, hav⟩ | ⟨hlo, -⟩
    · rcases b.fits with ⟨-, hbv⟩ | ⟨hlo, -⟩
      · omega
      · omega
    · omega
  rcases hcases hai with ⟨ha', hav⟩ | ⟨ha', hav⟩ | ⟨ha', hav⟩ | ⟨ha', hav⟩ <;>
    rcases hcases hbi with ⟨hb', hbv⟩ | ⟨hb', hbv⟩ | ⟨hb', hbv⟩ | ⟨hb', hbv⟩ <;>
    rw [hav, hbv] at h
  case inr.inr.inr.inr.inr.inr => exact PermitsSimple.float_unique ha' hb' ha hb h
  all_goals first
    | exact hconst (by omega) (by omega)
    | cases h

/-- Maps with the same entries in the same order of keys are equal. -/
theorem sorted_unique {order : KeyOrder} {l m : List (Item × Item)}
    (hl : (l.map fun e => e.1.bytes).Pairwise order.Before)
    (hm : (m.map fun e => e.1.bytes).Pairwise order.Before) (h : ∀ e, e ∈ l ↔ e ∈ m) :
  l = m
  := by
  have hantisymm : Std.Antisymm (fun e e' : Item × Item => order.Before e.1.bytes e'.1.bytes) :=
    ⟨fun _ _ h h' => absurd h' h.asymm⟩
  have hirrefl : Std.Irrefl (fun e e' : Item × Item => order.Before e.1.bytes e'.1.bytes) :=
    ⟨fun _ => KeyOrder.Before.irrefl _ _⟩
  rw [pairwise_map] at hl hm
  exact hl.eq_of_mem_iff hm h

/-- Arrays of items that are told apart by what they mean. -/
theorem array_unique {l m : List Item} (ih : ∀ x ∈ l, ∀ y ∈ m, Value.Same x.value y.value → x = y)
    (h : Value.Same (.array (Item.valueAll l)) (.array (Item.valueAll m))) :
  l = m
  := by
  obtain ⟨hlen, heach⟩ := Value.same_array h
  rw [valueAll_eq, valueAll_eq, length_map, length_map] at hlen
  rw [valueAll_eq, valueAll_eq] at heach
  clear h
  induction l generalizing m with
  | nil => exact (length_eq_zero_iff.mp hlen.symm).symm
  | cons x l ihl =>
    cases m with
    | nil => simp at hlen
    | cons y m =>
      rw [map_cons, map_cons, zip_cons_cons, forall_mem_cons] at heach
      have hxy := ih x (by simp) y (by simp) heach.1
      have hlm := ihl (fun x hx y hy => ih x (by simp [hx]) y (by simp [hy]))
        (by simpa using hlen)
        heach.2
      rw [hxy, hlm]

/-- Sorted maps of items that are told apart by what they mean. -/
theorem map_unique {order : KeyOrder} {l m : List Item} (hl : 2 ∣ l.length) (hm : 2 ∣ m.length)
    (hlsorted : ((Item.keysOf l).map Item.bytes).Pairwise order.Before)
    (hmsorted : ((Item.keysOf m).map Item.bytes).Pairwise order.Before)
    (ih : ∀ x ∈ l, ∀ y ∈ m, Value.Same x.value y.value → x = y)
    (h : Value.Same (.map (Value.entriesOf (Item.valueAll l)))
      (.map (Value.entriesOf (Item.valueAll m)))) :
  l = m
  := by
  rw [entriesOf_valueAll, entriesOf_valueAll, Value.same_map_iff] at h
  have hentry : ∀ e ∈ pairsOf l, ∀ e' ∈ pairsOf m, Value.Same e.1.value e'.1.value →
      Value.Same e.2.value e'.2.value → e = e' := by
    intro e he e' he' hkey hvalue
    obtain ⟨hek, hev⟩ := mem_of_mem_pairsOf he
    obtain ⟨hek', hev'⟩ := mem_of_mem_pairsOf he'
    exact Prod.ext (ih _ hek _ hek' hkey) (ih _ hev _ hev' hvalue)
  have hpairs : pairsOf l = pairsOf m := by
    rw [keysOf, map_map] at hlsorted hmsorted
    refine sorted_unique hlsorted hmsorted fun e => ⟨fun he => ?_, fun he => ?_⟩
    · obtain ⟨_, hmem, hkey, hvalue⟩ := h.1 _ (mem_map_of_mem he)
      obtain ⟨e', he', rfl⟩ := mem_map.mp hmem
      rwa [hentry e he e' he' hkey hvalue]
    · obtain ⟨_, hmem, hkey, hvalue⟩ := h.2 _ (mem_map_of_mem he)
      obtain ⟨e', he', rfl⟩ := mem_map.mp hmem
      rwa [← hentry e' he' e he hkey hvalue]
  rw [← unpair_pairsOf hl, ← unpair_pairsOf hm, hpairs]

variable {o : EncoderLimits} {i j : Item} {d d' : ℕ}

/-- Items in deterministic form that mean the same, if their children are told apart by what they
mean. -/
theorem Permits.unique_of_children (hi : Permits o d i) (hj : Permits o d' j)
    (h : Value.Same i.value j.value)
    (ih : ∀ x ∈ i.children, ∀ y ∈ j.children, Value.Same x.value y.value → x = y) :
  i = j
  := by
  have hmajor : i.head.major = j.head.major := by
    rw [← i.major_value, ← j.major_value, h.major_eq]
  obtain ⟨hishaped, hihead, hinode⟩ := hi
  obtain ⟨hjshaped, hjhead, hjnode⟩ := hj
  have hkind := of_major_eq hmajor
  cases i with
  | number negative a =>
    obtain ⟨a', rfl⟩ := hkind
    have hval : a.val = a'.val := by
      cases negative with
      | false => exact_mod_cast Value.same_integer h
      | true =>
        have := Value.same_integer h
        omega
    have hmin := permitsHead_arg.mp hihead (by split <;> decide)
    have hmin' := permitsHead_arg.mp hjhead (by split <;> decide)
    rw [eq_of_minimal hval hmin hmin']
  | string text a payload =>
    obtain ⟨a', payload', rfl⟩ | ⟨chunks', rfl⟩ := hkind
    · have hpayload : payload = payload' := by
        cases text with
        | false => exact Value.same_bytes h
        | true => exact Value.same_text h
      subst hpayload
      have hmin := permitsHead_arg.mp hihead (by split <;> decide)
      have hmin' := permitsHead_arg.mp hjhead (by split <;> decide)
      rw [eq_of_minimal (hishaped.symm.trans hjshaped) hmin hmin']
    · exact hjnode.elim
  | chunked text chunks | unbounded isMap elements => exact hinode.elim
  | container isMap a elements =>
    obtain ⟨a', elements', rfl⟩ | ⟨elements', rfl⟩ := hkind
    · have hmin := permitsHead_arg.mp hihead (by split <;> decide)
      have hmin' := permitsHead_arg.mp hjhead (by split <;> decide)
      have helements : elements = elements' := by
        cases isMap with
        | false => exact array_unique ih h
        | true =>
          exact map_unique ⟨a.val, hishaped⟩ ⟨a'.val, hjshaped⟩ (hinode.2.2 rfl)
            (hjnode.2.2 rfl) ih h
      subst helements
      have hval : a.val = a'.val := by
        cases isMap with
        | false => exact hishaped.symm.trans hjshaped
        | true =>
          have := hishaped.symm.trans hjshaped
          simp at this
          omega
      rw [eq_of_minimal hval hmin hmin']
    · exact hjnode.elim
  | tagged a content =>
    obtain ⟨a', content', rfl⟩ := hkind
    obtain ⟨hval, hcontent⟩ := Value.same_tag h
    have hmin := permitsHead_arg.mp hihead (by decide)
    have hmin' := permitsHead_arg.mp hjhead (by decide)
    rw [eq_of_minimal hval hmin hmin', ih content (by simp [children]) content' (by
      simp [children]) hcontent]
  | simple a =>
    obtain ⟨a', rfl⟩ := hkind
    rw [PermitsSimple.unique hishaped hjshaped hinode hjnode h]

/-- Items in deterministic form that mean the same are equal. -/
theorem Permits.unique (hi : i.All deeper (Permits o) d) (hj : j.All deeper (Permits o) d')
    (h : Value.Same i.value j.value) :
  i = j
  := by
  induction i using induction_children generalizing j d d' with
  | step i ih =>
    obtain ⟨hinode, hibelow⟩ := all_iff.mp hi
    obtain ⟨hjnode, hjbelow⟩ := all_iff.mp hj
    exact hinode.unique_of_children hjnode h fun x hx y hy hxy =>
      ih x hx (hibelow x hx) (hjbelow y hy) hxy

end DeterministicParser

/-- Of the byte strings with one meaning, an encoder accepts at most one. -/
theorem Encoder.accepts_unique (opts : EncoderOptions) (raw raw' : Slice)
    (h : Encoder.Accepts opts raw) (h' : Encoder.Accepts opts raw') (v w : Value)
    (hv : Denotes raw.bytes v) (hw : Denotes raw'.bytes w) (hsame : Value.Same v w) :
  raw.bytes = raw'.bytes
  := by
  obtain ⟨e, he, i, hbytes, hi⟩ := Encoder.accepts_iff.mp h
  obtain ⟨e', he', j, hbytes', hj⟩ := Encoder.accepts_iff.mp h'
  obtain rfl := Except.ok.inj (he.symm.trans he')
  -- the items that were accepted are the items that the bytes spell
  obtain ⟨i', hi', hraw, rfl⟩ := hv
  obtain ⟨j', hj', hraw', rfl⟩ := hw
  obtain rfl := eq_of_bytes_eq (hi.formed fun _ _ h => h.1) hi' (hbytes.symm.trans hraw)
  obtain rfl := eq_of_bytes_eq (hj.formed fun _ _ h => h.1) hj' (hbytes'.symm.trans hraw')
  rw [hbytes, hbytes', DeterministicParser.Permits.unique hi hj hsame]

/-- The map from 1 to NaN. -/
theorem Encoder.accepts_unique_map :
  let opts : EncoderOptions := ⟨0, 0, 0, .lengthFirst⟩
  let raw : Slice := ⟨[0xa1, 0x01, 0xf9, 0x7e, 0x00], by decide⟩
  let v : Value := .map [(.integer 1, .float (float16 0x7e00))]
  Encoder.Accepts opts raw ∧ Denotes raw.bytes v ∧ Value.Same v v ∧ raw.bytes = raw.bytes
  := by
  intro opts raw v
  have haccepts : Encoder.Accepts opts raw :=
    ⟨_, _, rfl, (Encoder.writeRaw_eq_ok _ _ _).mpr ⟨by decide +kernel, rfl⟩⟩
  have hdenotes : Denotes raw.bytes v := by
    refine ⟨.container true ⟨1, 1, by decide⟩
      [.number false ⟨1, 1, by decide⟩, .simple ⟨25, 0x7e00, by decide⟩], ?_, by decide, rfl⟩
    refine .node rfl fun j hj => ?_
    simp only [children, mem_cons, not_mem_nil, or_false] at hj
    rcases hj with rfl | rfl
    · exact .node trivial (by simp [children])
    · exact .node (by simp [Item.Shaped]) (by simp [children])
  have hsame : Value.Same v v := by
    refine Value.same_map_iff.mpr ⟨?_, ?_⟩ <;>
      simpa [v] using ⟨Value.Same.integer 1, Value.Same.float _⟩
  exact ⟨haccepts, hdenotes, hsame,
    accepts_unique opts raw raw haccepts haccepts v v hdenotes hdenotes hsame⟩

end Cbor
