import TinyGoDriver.Zstd.HuffDecode

/-!
# Huffman-coded streams

`decodeStream` decodes literals from one stream and `decode4` from four, taking turns
between them.  The loops refill the window of a reader once for four codes where they
can, and write into a buffer that may hold anything.

Where the refills fall and what the buffer held do not matter: `literalsAt` reads the
literals off the number of the stream, and `decodeStream_eq` and `decode4_eq` say that
the loops return just those, provided the codes end where the stream does.
-/

namespace Zstd

open GoRt BackReader List

namespace HuffDecTable

/-- Decodes one literal: the next `maxBits` bits name the slot of its code. -/
def decodeSymbol (t : HuffDecTable) (br : BackReader) : Go Err (UInt8 × BackReader) := do
  let e ← t.slot (br.window t.maxBits)
  .ok (e.symbol, br.skip e.nbBits)

/-- Decodes `k` literals into `dst[i:]` without a refill. -/
def decodeCodes (t : HuffDecTable) :
    ℕ → ℕ → BackReader → List UInt8 → Go Err (BackReader × List UInt8)
  | 0, _, br, dst => .ok (br, dst)
  | k + 1, i, br, dst => do
    let (symbol, br) ← t.decodeSymbol br
    let dst ← setAt dst i symbol
    decodeCodes t k (i + 1) br dst

/-- Decodes `n` groups of `g` literals into `dst[i:]`, with a refill before each group. -/
def decodeGroups (reload : Bool) (t : HuffDecTable) (g : ℕ) :
    ℕ → ℕ → BackReader → List UInt8 → Go Err (BackReader × List UInt8)
  | 0, _, br, dst => .ok (br, dst)
  | n + 1, i, br, dst => do
    let br ← br.fill reload
    let (br, dst) ← t.decodeCodes g i br dst
    decodeGroups reload t g n (i + g) br dst

/-- Decodes the literals of `dst` from `i` on, one for each refill, and checks that they
exhaust the stream. -/
def decodeTail (reload : Bool) (t : HuffDecTable) (i : ℕ) (br : BackReader) (dst : List UInt8) :
    Go Err (List UInt8) := do
  let (br, dst) ← t.decodeGroups reload 1 (dst.length - i) i br dst
  let br ← br.fill reload
  if br.finished then .ok dst else .error (.fail .corruptLiterals)

/-- `decodeStream`: decodes exactly `dst.length` literals from one stream, which must then
be exhausted to the bit. -/
def decodeStream (reload : Bool) (t : HuffDecTable) (dst src : List UInt8) :
    Go Err (List UInt8) := do
  let br ← BackReader.init reload src
  let (br, dst) ← t.decodeGroups reload 4 (dst.length / 4) 0 br dst
  t.decodeTail reload (dst.length / 4 * 4) br dst

/-- One of the four streams of `decode4`, with the part of the output it fills. -/
structure Lane where
  br : BackReader
  dst : List UInt8
  deriving DecidableEq, Repr

/-- Decodes one literal of a lane into `dst[i]`. -/
def laneCode (t : HuffDecTable) (i : ℕ) (l : Lane) : Go Err Lane := do
  let (br, dst) ← t.decodeCodes 1 i l.br l.dst
  .ok ⟨br, dst⟩

def laneFill (reload : Bool) (l : Lane) : Go Err Lane := do
  let br ← l.br.fill reload
  .ok ⟨br, l.dst⟩

/-- Decodes `k` literals of each lane into `dst[i:]`, the lanes taking turns. -/
def decodeRounds (t : HuffDecTable) : ℕ → ℕ → List Lane → Go Err (List Lane)
  | 0, _, lanes => .ok lanes
  | k + 1, i, lanes => do
    let lanes ← lanes.mapM (t.laneCode i)
    decodeRounds t k (i + 1) lanes

/-- The loop of `decode4` over all lanes: `n` groups of four literals of each, with a
refill of every lane before each group. -/
def decodeLanes (reload : Bool) (t : HuffDecTable) : ℕ → ℕ → List Lane → Go Err (List Lane)
  | 0, _, lanes => .ok lanes
  | n + 1, i, lanes => do
    let lanes ← lanes.mapM (laneFill reload)
    let lanes ← t.decodeRounds 4 i lanes
    decodeLanes reload t n (i + 4) lanes

/-- The sizes of the four streams of `src`: three from the jump table, the fourth what
remains. -/
def jumpSizes (src : List UInt8) : Go Err (List ℤ) := do
  let size₀ ← leAt 2 src 0
  let size₁ ← leAt 2 src 2
  let size₂ ← leAt 2 src 4
  let rest : ℤ := src.length - 6 - size₀ - size₁ - size₂
  if rest < 0 then
    .error (.fail .corruptLiterals)
  else
    .ok [(size₀ : ℤ), (size₁ : ℤ), (size₂ : ℤ), rest]

/-- Readers of the streams that follow one another in `inp`. -/
def openStreams (reload : Bool) : List ℤ → List UInt8 → Go Err (List BackReader)
  | [], _ => .ok []
  | size :: sizes, inp => do
    let src ← slice inp 0 size
    let br ← BackReader.init reload src
    let inp ← slice inp size inp.length
    let readers ← openStreams reload sizes inp
    .ok (br :: readers)

/-- `decode4`: decodes `dst.length` literals from four streams, the first three a quarter
of the literals each, rounded up, and the fourth the remainder. -/
def decode4 (reload : Bool) (t : HuffDecTable) (dst src : List UInt8) :
    Go Err (List UInt8) :=
  if src.length < 6 ∨ dst.length < 6 then
    .error (.fail .corruptLiterals)
  else do
    let sizes ← jumpSizes src
    let segment := (dst.length + 3) / 4
    let inp ← slice src 6 src.length
    let readers ← openStreams reload sizes inp
    let d₀ ← slice dst 0 segment
    let d₁ ← slice dst segment (2 * segment : ℕ)
    let d₂ ← slice dst (2 * segment : ℕ) (3 * segment : ℕ)
    let d₃ ← slice dst (3 * segment : ℕ) dst.length
    let lanes ← t.decodeLanes reload (d₃.length / 4) 0 (readers.zipWith Lane.mk [d₀, d₁, d₂, d₃])
    let outs ← lanes.mapM (fun l => t.decodeTail reload (d₃.length / 4 * 4) l.br l.dst)
    .ok outs.flatten

/-! ### The literals of a stream -/

/-- The entry of the code at the position `pos` of the stream `N`. -/
def entryAt (t : HuffDecTable) (N : ℕ) (pos : ℤ) : HuffDecEntry :=
  t.live.getD (readAt N pos t.maxBits) default

/-- The `k` literals coded from `pos` down. -/
def literalsAt (t : HuffDecTable) (N : ℕ) : ℕ → ℤ → List UInt8
  | 0, _ => []
  | k + 1, pos =>
    (t.entryAt N pos).symbol :: literalsAt t N k (pos - (t.entryAt N pos).nbBits)

/-- The position after `k` literals. -/
def posAfter (t : HuffDecTable) (N : ℕ) : ℕ → ℤ → ℤ
  | 0, pos => pos
  | k + 1, pos => posAfter t N k (pos - (t.entryAt N pos).nbBits)

/-- The `n` literals of a stream from where `br` stands, if they exhaust it. -/
def streamLiterals (t : HuffDecTable) (n : ℕ) (br : BackReader) : Go Err (List UInt8) :=
  if t.posAfter (leNat br.inp) n br.left = 0 then
    .ok (t.literalsAt (leNat br.inp) n br.left)
  else
    .error (.fail .corruptLiterals)

@[simp]
theorem length_literalsAt (t : HuffDecTable) (N k : ℕ) (pos : ℤ) :
  (t.literalsAt N k pos).length = k
  := by
  induction k generalizing pos with
  | zero => rfl
  | succ k ih => simp [literalsAt, ih]

theorem literalsAt_add (t : HuffDecTable) (N j k : ℕ) (pos : ℤ) :
  t.literalsAt N (j + k) pos = t.literalsAt N j pos ++ t.literalsAt N k (t.posAfter N j pos)
  := by
  induction j generalizing pos with
  | zero => simp [literalsAt, posAfter]
  | succ j ih =>
    rw [Nat.succ_add, literalsAt, literalsAt, posAfter, ih, cons_append]

theorem posAfter_add (t : HuffDecTable) (N j k : ℕ) (pos : ℤ) :
  t.posAfter N (j + k) pos = t.posAfter N k (t.posAfter N j pos)
  := by
  induction j generalizing pos with
  | zero => simp [posAfter]
  | succ j ih => rw [Nat.succ_add, posAfter, posAfter, ih]

theorem Agree.streamLiterals {t u : HuffDecTable} (h : t.Agree u) :
  t.streamLiterals = u.streamLiterals
  := by
  obtain ⟨h₁, h₂⟩ := h
  have hentry : t.entryAt = u.entryAt := by
    funext N pos
    rw [entryAt, entryAt, h₁, h₂]
  have hlits : ∀ N k pos, t.literalsAt N k pos = u.literalsAt N k pos := by
    intro N k
    induction k with
    | zero => intro pos; rfl
    | succ k ih =>
      intro pos
      rw [literalsAt, literalsAt, ih, hentry]
  have hpos : ∀ N k pos, t.posAfter N k pos = u.posAfter N k pos := by
    intro N k
    induction k with
    | zero => intro pos; rfl
    | succ k ih =>
      intro pos
      rw [posAfter, posAfter, ih, hentry]
  funext n br
  rw [HuffDecTable.streamLiterals, HuffDecTable.streamLiterals, hlits, hpos]

theorem streamLiterals_safe (t : HuffDecTable) (n : ℕ) (br : BackReader) :
  Safe (t.streamLiterals n br) (fun l => l.length = n)
  := by
  rw [streamLiterals]
  split
  · simp
  · exact Safe.fail

/-! ### The loops -/

variable {i : ℕ} {dst : List UInt8} {lanes : List Lane}

section Loops

variable {t : HuffDecTable} (ht : t.Wf)

include ht

theorem length_live :
  t.live.length = 2 ^ t.maxBits
  := by
  have hpow : 2 ^ t.maxBits ≤ 2048 := Nat.pow_le_pow_right (by omega) ht.maxBits_le
  simp [live]
  exact hpow

variable {br : BackReader}

/-- A literal inside the window is the one coded at the position of the reader. -/
theorem decodeSymbol_eq (hok : br.Ok) (hw : br.Within 53) :
  t.decodeSymbol br = .ok ((t.entryAt (leNat br.inp) br.left).symbol,
      br.skip (t.entryAt (leNat br.inp) br.left).nbBits)
    ∧ (t.entryAt (leNat br.inp) br.left).nbBits ≤ 11
  := by
  have hmax : t.maxBits ≤ 11 := ht.maxBits_le
  have hlt : br.window t.maxBits < t.live.length := by
    rw [length_live ht]
    exact br.window_lt (by omega)
  have hwin := window_eq hok (n := t.maxBits) (by omega) (hw.mono (by omega))
  have hentry : t.entryAt (leNat br.inp) br.left = t.live[br.window t.maxBits] := by
    rw [entryAt, ← hwin, getD, getElem?_eq_getElem hlt, Option.getD_some]
  have hslot : t.slot (br.window t.maxBits) = .ok t.live[br.window t.maxBits] := by
    have hlt' := hlt
    rw [length_live ht] at hlt'
    rw [slot, if_pos hlt']
    apply idx_eq_ok
    rw [← getElem?_eq_getElem hlt, live, getElem?_take_of_lt hlt']
  constructor
  · rw [decodeSymbol, hslot, ok_bind, hentry]
  · rw [hentry]
    exact (ht.nbBits_le _ (getElem_mem hlt)).trans hmax

/-- Codes inside the window are those of the literals from the position of the reader. -/
theorem decodeCodes_eq {k w : ℕ} (dst : List UInt8) (hok : br.Ok) (hw : br.Within w)
    (hk : w + 11 * k ≤ 64) (hi : i + k ≤ dst.length) :
  ∃ br', t.decodeCodes k i br dst
      = .ok (br', dst.take i ++ t.literalsAt (leNat br.inp) k br.left ++ dst.drop (i + k))
    ∧ br'.Ok ∧ br'.Within (w + 11 * k) ∧ br'.inp = br.inp
    ∧ br'.left = t.posAfter (leNat br.inp) k br.left
  := by
  induction k generalizing i w br dst with
  | zero =>
    refine ⟨br, ?_, hok, hw, rfl, rfl⟩
    simp [decodeCodes, literalsAt]
  | succ k ih =>
    obtain ⟨hsym, hbits⟩ := decodeSymbol_eq ht hok (hw.mono (by omega))
    set e := t.entryAt (leNat br.inp) br.left with he
    have hw' : (br.skip e.nbBits).Within (w + 11) := (hw.skip e.nbBits).mono (by omega)
    have hi' : i + 1 + k ≤ (dst.set i e.symbol).length := by
      rw [length_set]
      omega
    obtain ⟨br', hcodes, hok', hwithin, hinp, hleft⟩ :=
      ih _ (hok.skip e.nbBits) hw' (by omega) hi'
    refine ⟨br', ?_, hok', hwithin.mono (by omega), hinp, ?_⟩
    · rw [decodeCodes, hsym, ok_bind]
      simp only
      rw [setAt_of_lt _ _ (by omega), ok_bind, hcodes]
      rw [drop_set_of_lt (by omega), take_set, take_add_one,
        getElem?_eq_getElem (by omega), literalsAt, left_skip, ← he]
      simp only [BackReader.skip, Option.toList_some]
      rw [set_append_right _ _ (by simp)]
      have hlen : i - (dst.take i).length = 0 := by simp; omega
      rw [hlen]
      simp
      congr 1
      omega
    · rw [hleft, posAfter, left_skip]
      rfl

/-- Groups of at most four codes never run out of the window. -/
theorem decodeGroups_eq (reload : Bool) {g n : ℕ} (hg : g ≤ 4) (dst : List UInt8) (hok : br.Ok)
    (hw : br.Within 71) (hi : i + n * g ≤ dst.length) :
  ∃ br', t.decodeGroups reload g n i br dst
      = .ok (br', dst.take i ++ t.literalsAt (leNat br.inp) (n * g) br.left ++ dst.drop (i + n * g))
    ∧ br'.Ok ∧ br'.Within 71 ∧ br'.inp = br.inp
    ∧ br'.left = t.posAfter (leNat br.inp) (n * g) br.left
  := by
  induction n generalizing i br dst with
  | zero =>
    refine ⟨br, ?_, hok, hw, rfl, by simp [posAfter]⟩
    simp [decodeGroups, literalsAt]
  | succ n ih =>
    rw [Nat.succ_mul] at hi
    obtain ⟨b, hfill, hok₁, hw₁, hinp₁, hleft₁⟩ := fill_spec reload hok hw
    obtain ⟨b', hcodes, hok₂, hw₂, hinp₂, hleft₂⟩ :=
      decodeCodes_eq ht (i := i) dst hok₁ hw₁ (show 7 + 11 * g ≤ 64 by omega)
        (by omega)
    rw [hinp₁] at hinp₂
    rw [hinp₁, hleft₁] at hcodes hleft₂
    have hlen : (dst.take i ++ t.literalsAt (leNat br.inp) g br.left
        ++ dst.drop (i + g)).length = dst.length := by
      simp
      omega
    obtain ⟨b'', hgroups, hok₃, hw₃, hinp₃, hleft₃⟩ :=
      ih (i := i + g) _ hok₂ (hw₂.mono (by omega)) (by rw [hlen]; omega)
    rw [hinp₂] at hinp₃
    rw [hinp₂, hleft₂] at hgroups hleft₃
    have hmul : (n + 1) * g = g + n * g := by ring
    refine ⟨b'', ?_, hok₃, hw₃, hinp₃, ?_⟩
    · rw [decodeGroups, hfill, ok_bind, hcodes, ok_bind]
      simp only
      rw [hgroups, hmul, literalsAt_add]
      have htake : (dst.take i ++ t.literalsAt (leNat br.inp) g br.left
          ++ dst.drop (i + g)).take (i + g)
          = dst.take i ++ t.literalsAt (leNat br.inp) g br.left := by
        apply take_left'
        simp
        omega
      have hdrop : (dst.take i ++ t.literalsAt (leNat br.inp) g br.left
          ++ dst.drop (i + g)).drop (i + g + n * g) = dst.drop (i + (g + n * g)) := by
        rw [← drop_drop, drop_left' (by simp; omega), drop_drop]
        congr 1
        omega
      rw [htake, hdrop]
      simp
    · rw [hleft₃, hmul, posAfter_add]

/-- The tail of a stream decodes the literals that are missing. -/
theorem decodeTail_eq (reload : Bool) (hok : br.Ok) (hw : br.Within 71) (hi : i ≤ dst.length) :
  t.decodeTail reload i br dst
    = (t.streamLiterals (dst.length - i) br).map (dst.take i ++ ·)
  := by
  obtain ⟨b, hgroups, hok₁, hw₁, hinp₁, hleft₁⟩ :=
    decodeGroups_eq ht reload (by omega) dst hok hw
      (show i + (dst.length - i) * 1 ≤ dst.length by omega)
  obtain ⟨b', hfill, -, hw₂, -, hleft₂⟩ := fill_spec reload hok₁ hw₁
  rw [Nat.mul_one] at hgroups hleft₁
  have hdrop : dst.drop (i + (dst.length - i)) = [] := by
    apply drop_of_length_le
    omega
  rw [hdrop, append_nil] at hgroups
  have hfin := finished_iff hw₂
  rw [hleft₂, hleft₁] at hfin
  rw [decodeTail, hgroups, ok_bind]
  simp only
  rw [hfill, ok_bind, streamLiterals]
  by_cases hend : t.posAfter (leNat br.inp) (dst.length - i) br.left = 0
  · rw [if_pos (hfin.mpr hend), if_pos hend]
    rfl
  · rw [if_neg (fun h => hend (hfin.mp h)), if_neg hend]
    rfl

/-- Groups of four from the start and then the tail decode a stream, however many of the
literals are left to the tail. -/
theorem groups_tail_eq (reload : Bool) {m : ℕ} (dst : List UInt8) (hok : br.Ok) (hw : br.Within 71)
    (hm : m * 4 ≤ dst.length) :
  ∃ br' dst', t.decodeGroups reload 4 m 0 br dst = .ok (br', dst') ∧ dst'.length = dst.length
    ∧ t.decodeTail reload (m * 4) br' dst' = t.streamLiterals dst.length br
  := by
  obtain ⟨b, hgroups, hok₁, hw₁, hinp₁, hleft₁⟩ :=
    decodeGroups_eq ht reload (le_refl 4) (n := m) (i := 0) dst hok hw (by omega)
  set lits := t.literalsAt (leNat br.inp) (m * 4) br.left with hlits
  have hlen : (dst.take 0 ++ lits ++ dst.drop (0 + m * 4)).length = dst.length := by
    simp [hlits]
    omega
  refine ⟨b, _, hgroups, hlen, ?_⟩
  have htake : (dst.take 0 ++ lits ++ dst.drop (0 + m * 4)).take (m * 4) = lits := by
    apply take_left'
    simp [hlits]
  rw [decodeTail_eq ht reload hok₁ hw₁ (by omega), htake, hlen, streamLiterals, streamLiterals,
    hinp₁, hleft₁]
  obtain ⟨k, hk⟩ : ∃ k, dst.length = m * 4 + k := ⟨dst.length - m * 4, by omega⟩
  rw [hk, Nat.add_sub_cancel_left, posAfter_add, literalsAt_add]
  split <;> rfl

/-- `decodeStream` returns the literals of the stream, if they exhaust it. -/
theorem decodeStream_eq (reload : Bool) (dst src : List UInt8) :
  t.decodeStream reload dst src
    = BackReader.init reload src >>= t.streamLiterals dst.length
  := by
  rw [decodeStream]
  rcases (init_safe reload src).cases with ⟨br, hbr, hok, hw, -⟩ | ⟨e, he⟩
  · obtain ⟨b, dst', hgroups, hlen, htail⟩ :=
      groups_tail_eq ht reload dst hok (hw.mono (by omega)) (Nat.div_mul_le_self dst.length 4)
    rw [hbr, ok_bind, ok_bind, hgroups, ok_bind]
    simp only
    rw [hlen, htail]
  · rw [he, error_bind, error_bind]

end Loops

/-! ### Four streams -/

/-- Decodes `k` literals of a lane into `dst[i:]`. -/
def laneCodes (t : HuffDecTable) (k i : ℕ) (l : Lane) : Go Err Lane := do
  let (br, dst) ← t.decodeCodes k i l.br l.dst
  .ok ⟨br, dst⟩

/-- Decodes `n` groups of four literals of a lane into `dst[i:]`. -/
def laneGroups (reload : Bool) (t : HuffDecTable) (n i : ℕ) (l : Lane) : Go Err Lane := do
  let (br, dst) ← t.decodeGroups reload 4 n i l.br l.dst
  .ok ⟨br, dst⟩

theorem laneCodes_succ (t : HuffDecTable) (k i : ℕ) (l : Lane) :
  t.laneCodes (k + 1) i l = t.laneCode i l >>= t.laneCodes k (i + 1)
  := by
  simp only [laneCodes, laneCode, decodeCodes, bind_assoc]
  rfl

variable (reload : Bool) {t : HuffDecTable} {lanes' : List Lane} {sizes : List ℤ} {inp : List UInt8}

theorem laneGroups_succ (t : HuffDecTable) (n i : ℕ) (l : Lane) :
  t.laneGroups reload (n + 1) i l
    = laneFill reload l >>= fun l => t.laneCodes 4 i l >>= t.laneGroups reload n (i + 4)
  := by
  simp only [laneGroups, laneFill, laneCodes, decodeGroups, bind_assoc]
  rfl

/-- Lanes that take turns decode what each would on its own. -/
theorem decodeRounds_eq {k : ℕ} (h : lanes.mapM (t.laneCodes k i) = .ok lanes') :
  t.decodeRounds k i lanes = .ok lanes'
  := by
  induction k generalizing i lanes with
  | zero => rwa [show t.laneCodes 0 i = Except.ok from rfl, mapM_ok] at h
  | succ k ih =>
    rw [funext (laneCodes_succ t k i)] at h
    obtain ⟨mid, h₁, h₂⟩ := mapM_bind_eq_ok h
    rw [decodeRounds, h₁, ok_bind, ih h₂]

theorem decodeLanes_eq {n : ℕ} (h : lanes.mapM (t.laneGroups reload n i) = .ok lanes') :
  t.decodeLanes reload n i lanes = .ok lanes'
  := by
  induction n generalizing i lanes with
  | zero => rwa [show t.laneGroups reload 0 i = Except.ok from rfl, mapM_ok] at h
  | succ n ih =>
    rw [funext (laneGroups_succ reload t n i)] at h
    obtain ⟨mid, h₁, h₂⟩ := mapM_bind_eq_ok h
    obtain ⟨mid', h₃, h₄⟩ := mapM_bind_eq_ok h₂
    rw [decodeLanes, h₁, ok_bind, decodeRounds_eq h₃, ok_bind, ih h₄]

/-- Each lane decodes its stream on its own, whatever share is left to its tail. -/
theorem lanes_eq (ht : t.Wf) {m : ℕ}
    (h : ∀ l ∈ lanes, (l.br.Ok ∧ l.br.Within 71) ∧ m * 4 ≤ l.dst.length) :
  ∃ lanes', lanes.mapM (t.laneGroups reload m 0) = .ok lanes'
    ∧ lanes'.mapM (fun l => t.decodeTail reload (m * 4) l.br l.dst)
      = lanes.mapM (fun l => t.streamLiterals l.dst.length l.br)
  := by
  induction lanes with
  | nil => exact ⟨[], rfl, rfl⟩
  | cons l lanes ih =>
    obtain ⟨⟨hok, hw⟩, hm⟩ := h l (by simp)
    obtain ⟨br, dst, hgroups, -, htail⟩ := groups_tail_eq ht reload l.dst hok hw hm
    obtain ⟨lanes', hlanes, htails⟩ := ih (fun l' hl' => h l' (by simp [hl']))
    refine ⟨⟨br, dst⟩ :: lanes', ?_, ?_⟩
    · rw [mapM_cons, laneGroups, hgroups, hlanes]
      rfl
    · rw [mapM_cons, mapM_cons, htails, htail]

theorem jumpSizes_safe {src : List UInt8} (h : 6 ≤ src.length) :
  Safe (jumpSizes src) (fun sizes => sizes.length = 4 ∧ (∀ s ∈ sizes, 0 ≤ s)
    ∧ sizes.sum = src.length - 6)
  := by
  rw [jumpSizes, leAt_of_nonneg (by omega) (by omega), ok_bind,
    leAt_of_nonneg (by omega) (by omega), ok_bind, leAt_of_nonneg (by omega) (by omega), ok_bind]
  dsimp only
  split
  · exact Safe.fail
  refine ⟨rfl, ?_, ?_⟩
  · intro s hs
    simp only [mem_cons, not_mem_nil, or_false] at hs
    rcases hs with rfl | rfl | rfl | rfl
    · omega
    · omega
    · omega
    · omega
  · simp only [sum_cons, sum_nil]
    omega

/-- The streams of these sizes. -/
def cutStreams : List ℤ → List UInt8 → List (List UInt8)
  | [], _ => []
  | size :: sizes, inp => inp.take size.toNat :: cutStreams sizes (inp.drop size.toNat)

theorem length_cutStreams (sizes : List ℤ) (inp : List UInt8) :
  (cutStreams sizes inp).length = sizes.length
  := by
  induction sizes generalizing inp with
  | nil => rfl
  | cons size sizes ih => rw [cutStreams, length_cons, length_cons, ih]

theorem openStreams_eq (hpos : ∀ s ∈ sizes, 0 ≤ s) (hsum : sizes.sum ≤ inp.length) :
  openStreams reload sizes inp = (cutStreams sizes inp).mapM (BackReader.init reload)
  := by
  induction sizes generalizing inp with
  | nil => rfl
  | cons size sizes ih =>
    obtain ⟨n, rfl⟩ := Int.eq_ofNat_of_zero_le (hpos size (by simp))
    have hrest : 0 ≤ sizes.sum := sum_nonneg (fun s hs => hpos s (by simp [hs]))
    rw [sum_cons] at hsum
    have hn : n ≤ inp.length := by omega
    have htail := @ih (inp.drop n) (fun s hs => hpos s (by simp [hs])) (by simp; omega)
    rw [openStreams, cutStreams, mapM_cons, slice_of_le le_rfl (by omega) (by omega),
      slice_eq_ok hn le_rfl, Int.toNat_natCast, take_length, ← htail]
    rfl

/-- Streams that fit in what follows the jump table have readers, or one of them is not a
bit stream. -/
theorem openStreams_safe (hpos : ∀ s ∈ sizes, 0 ≤ s) (hsum : sizes.sum ≤ inp.length) :
  Safe (openStreams reload sizes inp) (fun readers => readers.length = sizes.length
    ∧ ∀ br ∈ readers, br.Ok ∧ br.Within 71)
  := by
  rw [openStreams_eq reload hpos hsum]
  refine (Safe.mapM fun src _ => init_safe reload src).mono fun readers h => ?_
  refine ⟨by rw [← h.length_eq, length_cutStreams], fun br hbr => ?_⟩
  obtain ⟨i, hi, rfl⟩ := mem_iff_getElem.mp hbr
  obtain ⟨hok, hw, -⟩ := h.get (h.length_eq ▸ hi) hi
  exact ⟨hok, hw.mono (by omega)⟩

/-- The four streams of `src`, decoded one after the other into `n` literals. -/
def fourStreams (reload : Bool) (t : HuffDecTable) (n : ℕ) (src : List UInt8) :
    Go Err (List UInt8) :=
  if src.length < 6 ∨ n < 6 then
    .error (.fail .corruptLiterals)
  else do
    let sizes ← jumpSizes src
    let segment := (n + 3) / 4
    let inp ← slice src 6 src.length
    let readers ← openStreams reload sizes inp
    let outs ← (readers.zip [segment, segment, segment, n - 3 * segment]).mapM
      (fun s => t.streamLiterals s.2 s.1)
    .ok outs.flatten

/-- `decode4` returns the literals of the four streams, if they exhaust them. -/
theorem decode4_eq (ht : t.Wf) (dst src : List UInt8) :
  t.decode4 reload dst src = t.fourStreams reload dst.length src
  := by
  rw [decode4, fourStreams]
  by_cases hshort : src.length < 6 ∨ dst.length < 6
  · rw [if_pos hshort, if_pos hshort]
  rcases (jumpSizes_safe (show 6 ≤ src.length by omega)).cases
    with ⟨sizes, hsizes, hlen, hpos, hsum⟩ | ⟨e, he⟩
  swap
  · rw [he, error_bind, error_bind]
  rw [hsizes]
  have hinp : (slice src 6 src.length : Go Err _) = .ok (src.drop 6) := by
    rw [slice_of_le (by omega) (by omega) le_rfl]
    simp
  simp only [hinp, ok_bind]
  rcases (openStreams_safe reload hpos (show sizes.sum ≤ (src.drop 6).length by simp; omega)).cases
    with ⟨readers, hreaders, hlen', hok⟩ | ⟨e, he⟩
  swap
  · rw [he, error_bind, error_bind]
  rw [hreaders, ok_bind, ok_bind]
  set s := (dst.length + 3) / 4 with hs
  rw [slice_of_le le_rfl (by omega) (by omega), ok_bind, slice_eq_ok (by omega) (by omega),
    ok_bind, slice_eq_ok (by omega) (by omega), ok_bind, slice_eq_ok (by omega) le_rfl,
    ok_bind]
  set ds := [(dst.take (s : ℤ).toNat).drop (0 : ℤ).toNat, (dst.take (2 * s)).drop s,
    (dst.take (3 * s)).drop (2 * s), (dst.take dst.length).drop (3 * s)] with hds
  set m := ((dst.take dst.length).drop (3 * s)).length / 4 with hm
  have hm' : m * 4 ≤ dst.length - 3 * s := by
    rw [hm, length_drop, length_take]
    omega
  have hlens : ds.map length = [s, s, s, dst.length - 3 * s] := by
    simp only [hds, map_cons, map_nil, length_drop, length_take,
      Int.toNat_natCast, Int.toNat_zero, cons.injEq, and_true]
    omega
  have hlanes : ∀ l ∈ readers.zipWith Lane.mk ds, (l.br.Ok ∧ l.br.Within 71)
      ∧ m * 4 ≤ l.dst.length := by
    intro l hl
    rw [← map_uncurry_zip_eq_zipWith, mem_map] at hl
    obtain ⟨⟨br, d⟩, hmem, rfl⟩ := hl
    have hd := mem_map_of_mem (f := length) (of_mem_zip hmem).2
    rw [hlens] at hd
    simp only [mem_cons, not_mem_nil, or_false] at hd
    refine ⟨hok br (of_mem_zip hmem).1, ?_⟩
    show m * 4 ≤ d.length
    omega
  obtain ⟨lanes, hgroups, htails⟩ := lanes_eq reload ht hlanes
  rw [decodeLanes_eq reload hgroups, ok_bind, htails, ← hlens, zip_map_right,
    ← map_uncurry_zip_eq_zipWith, mapM_map, mapM_map]
  rfl

theorem fourStreams_safe (t : HuffDecTable) (n : ℕ) (src : List UInt8) :
  Safe (t.fourStreams reload n src) (fun l => l.length = n)
  := by
  rw [fourStreams]
  split
  · exact Safe.fail
  apply (jumpSizes_safe (by omega)).bind
  rintro sizes ⟨hlen, hpos, hsum⟩
  rw [slice_of_le (by omega) (by omega) le_rfl]
  apply (openStreams_safe reload hpos (by simp; omega)).bind
  rintro readers ⟨hlen', -⟩
  set counts := [(n + 3) / 4, (n + 3) / 4, (n + 3) / 4, n - 3 * ((n + 3) / 4)] with hcounts
  apply (Safe.mapM (fun s _ => t.streamLiterals_safe s.2 s.1)).bind
  intro outs houts
  rw [Safe.ok_iff, length_flatten]
  have hmap : outs.map length = (readers.zip counts).map Prod.snd := by
    generalize readers.zip counts = streams at houts
    induction houts with
    | nil => rfl
    | cons h _ ih => rw [map_cons, map_cons, h, ih]
  rw [hmap, map_snd_zip (by simp [hcounts]; omega), hcounts]
  simp only [sum_cons, sum_nil]
  omega

theorem Agree.fourStreams {t u : HuffDecTable} (h : t.Agree u) :
  t.fourStreams reload = u.fourStreams reload
  := by
  funext n src
  rw [HuffDecTable.fourStreams, HuffDecTable.fourStreams, h.streamLiterals]

/-! ### Four streams on their own -/

/-- The parts of the output, of which the first three have the same length. -/
def quarters (dst : List UInt8) : List (List UInt8) :=
  let segment := (dst.length + 3) / 4
  [dst.take segment, (dst.drop segment).take segment, (dst.drop (2 * segment)).take segment,
    dst.drop (3 * segment)]

/-- A section with each of its streams decoded by `decodeStream`. -/
def decodeApart (reload : Bool) (t : HuffDecTable) (dst src : List UInt8) : Go Err (List UInt8) :=
  if src.length < 6 ∨ dst.length < 6 then
    .error (.fail .corruptLiterals)
  else do
    let sizes ← jumpSizes src
    let outs ← ((cutStreams sizes (src.drop 6)).zip (quarters dst)).mapM
      (fun p => t.decodeStream reload p.2 p.1)
    .ok outs.flatten

theorem length_quarters (h : 6 ≤ dst.length) :
  (quarters dst).map List.length = [(dst.length + 3) / 4, (dst.length + 3) / 4,
    (dst.length + 3) / 4, dst.length - 3 * ((dst.length + 3) / 4)]
  := by
  simp only [quarters, map_cons, map_nil, length_take, length_drop, cons.injEq, and_true]
  omega

/-- Readers that are all opened first give what they give when each is opened in its turn. -/
theorem apart_iff (ht : t.Wf) {streams : List (List UInt8)} {parts : List (List UInt8)}
    (hlen : streams.length = parts.length) (outs : List (List UInt8)) :
  (streams.zip parts).mapM (fun p => t.decodeStream reload p.2 p.1) = .ok outs
    ↔ ∃ readers, streams.mapM (BackReader.init reload) = .ok readers
      ∧ (readers.zip (parts.map List.length)).mapM (fun s => t.streamLiterals s.2 s.1) = .ok outs
  := by
  induction streams generalizing parts outs with
  | nil =>
    constructor
    · exact fun h => ⟨[], rfl, h⟩
    · rintro ⟨readers, hreaders, h⟩
      cases hreaders
      exact h
  | cons src streams ih =>
    cases parts with
    | nil => cases hlen
    | cons part parts =>
      have hlen' : streams.length = parts.length := by simpa using hlen
      rw [zip_cons_cons, mapM_cons, decodeStream_eq ht]
      constructor
      · intro h
        obtain ⟨out, hout, h⟩ := bind_eq_ok h
        obtain ⟨br, hbr, hout⟩ := bind_eq_ok hout
        obtain ⟨outs', houts, h⟩ := bind_eq_ok h
        obtain ⟨readers, hreaders, houts⟩ := (ih hlen' _).mp houts
        refine ⟨br :: readers, ?_, ?_⟩
        · rw [mapM_cons, hbr, hreaders]
          rfl
        · rw [map_cons, zip_cons_cons, mapM_cons, hout, houts]
          exact h
      · rintro ⟨readers, hreaders, h⟩
        rw [mapM_cons] at hreaders
        obtain ⟨br, hbr, hreaders⟩ := bind_eq_ok hreaders
        obtain ⟨rest, hrest, hreaders⟩ := bind_eq_ok hreaders
        cases hreaders
        rw [map_cons, zip_cons_cons, mapM_cons] at h
        obtain ⟨out, hout, h⟩ := bind_eq_ok h
        obtain ⟨outs', houts, h⟩ := bind_eq_ok h
        rw [hbr, ok_bind, hout, (ih hlen' _).mpr ⟨rest, hrest, houts⟩]
        exact h

theorem decodeStream_safe (ht : t.Wf) (dst src : List UInt8) :
  Safe (t.decodeStream reload dst src) (fun _ => True)
  := by
  rw [decodeStream_eq ht]
  apply (init_safe reload src).bind
  exact fun br _ => (t.streamLiterals_safe _ br).mono fun _ _ => trivial

theorem decodeApart_iff (ht : t.Wf) {src out : List UInt8} :
  t.decodeApart reload dst src = .ok out ↔ t.decode4 reload dst src = .ok out
  := by
  rw [decode4_eq reload ht, decodeApart, fourStreams]
  by_cases hshort : src.length < 6 ∨ dst.length < 6
  · rw [if_pos hshort, if_pos hshort]
  rw [if_neg hshort, if_neg hshort]
  rcases (jumpSizes_safe (show 6 ≤ src.length by omega)).cases
    with ⟨sizes, hsizes, hlen, hpos, hsum⟩ | ⟨e, he⟩
  swap
  · rw [he, error_bind, error_bind]
  have hcut : (cutStreams sizes (src.drop 6)).length = (quarters dst).length := by
    rw [length_cutStreams, hlen]
    rfl
  have hapart := apart_iff reload ht hcut
  simp only [length_quarters (show 6 ≤ dst.length by omega)] at hapart
  rw [hsizes, ok_bind, ok_bind, slice_of_le (by omega) (by omega) le_rfl, ok_bind,
    Int.toNat_natCast, take_length, show Int.toNat 6 = 6 from rfl,
    openStreams_eq reload hpos (by simp; omega)]
  constructor
  · intro h
    obtain ⟨outs, houts, h⟩ := bind_eq_ok h
    obtain ⟨readers, hreaders, houts⟩ := (hapart outs).mp houts
    rw [hreaders, ok_bind, houts]
    exact h
  · intro h
    obtain ⟨readers, hreaders, h⟩ := bind_eq_ok h
    obtain ⟨outs, houts, h⟩ := bind_eq_ok h
    rw [(hapart outs).mpr ⟨readers, hreaders, houts⟩]
    exact h

theorem decodeApart_safe (ht : t.Wf) (dst src : List UInt8) :
  Safe (t.decodeApart reload dst src) (fun _ => True)
  := by
  rw [decodeApart]
  split
  · exact Safe.fail
  apply (jumpSizes_safe (by omega)).bind
  intro sizes _
  apply (Safe.mapM fun p _ => decodeStream_safe reload ht p.2 p.1).bind
  exact fun _ _ => trivial

/-- The interleaved loops decode what four separate runs of `decodeStream` decode, and refuse a
section exactly if one of these refuses its stream. -/
theorem decode4_eq_apart (reload : Bool) {u t : HuffDecTable} {weights : List ℕ}
    (hbuild : u.build weights = .ok t) (dst src : List UInt8) :
  (∃ out, t.decode4 reload dst src = .ok out ∧ t.decodeApart reload dst src = .ok out)
    ∨ ∃ e e', t.decode4 reload dst src = .error (.fail e)
      ∧ t.decodeApart reload dst src = .error (.fail e')
  := by
  have ht : t.Wf := by
    rcases build_cases weights with hfail | ⟨last, maxBits, hcomplete⟩
    · rw [hfail] at hbuild
      cases hbuild
    obtain ⟨t', ht', -, -, hwf⟩ := build_complete hcomplete u
    rw [ht'] at hbuild
    cases hbuild
    exact hwf
  have hsafe := fourStreams_safe reload t dst.length src
  rw [← decode4_eq reload ht] at hsafe
  rcases (decodeApart_safe reload ht dst src).cases with ⟨out, hout, -⟩ | ⟨e', he'⟩
  · exact .inl ⟨out, (decodeApart_iff reload ht).mp hout, hout⟩
  rcases hsafe.cases with ⟨out, hout, -⟩ | ⟨e, he⟩
  · rw [(decodeApart_iff reload ht).mpr hout] at he'
    cases he'
  · exact .inr ⟨e, e', he, he'⟩

/-- Codes of one bit for two symbols, and four streams of four literals, which are decoded in one
turn of the loop over all lanes. -/
theorem decode4_eq_apart_two :
  let src : List UInt8 := [1, 0, 1, 0, 1, 0, 0x1a, 0x15, 0x1f, 0x10]
  let out : List UInt8 := [1, 0, 1, 0, 0, 1, 0, 1, 1, 1, 1, 1, 0, 0, 0, 0]
  ∃ t, build ⟨Vector.replicate 2048 default, 0⟩ [1] = .ok t
    ∧ t.decode4 true (List.replicate 16 0) src = .ok out
    ∧ t.decodeApart true (List.replicate 16 0) src = .ok out
  := by
  intro src out
  have hrun : (build ⟨Vector.replicate 2048 default, 0⟩ [1] >>=
      fun t => t.decode4 true (List.replicate 16 0) src) = .ok out := by
    decide +kernel
  obtain ⟨t, ht, hdecode⟩ := bind_eq_ok hrun
  refine ⟨t, ht, hdecode, ?_⟩
  rcases decode4_eq_apart true ht (List.replicate 16 0) src with ⟨out', h, h'⟩ | ⟨e, e', h, -⟩
  · cases hdecode.symm.trans h
    exact h'
  · cases hdecode.symm.trans h

end HuffDecTable

end Zstd
