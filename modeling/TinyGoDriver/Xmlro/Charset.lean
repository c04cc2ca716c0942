import TinyGoDriver.Go.Bufio
import TinyGoDriver.Go.Utf8

/-!
# UTF-16 input of `encoding/xmlro`

`decodeUtf16` decodes what stands in a buffer, and `Utf16Reader` decodes a stream on the way in.  A
`Utf16Reader` decodes a chunk at a time, carries over what may go on in the next chunk, and hands
out what it has decoded in pieces of the sizes that are asked for.

What a reader will still hand out is `pending`.  No call changes it other than by handing out what
comes first, so that neither the pieces of the source nor the sizes asked for show:
`utf16Reader_delivers`.
-/

namespace Xmlro

open GoRt List

/-! ### Decoding -/

def unit (bigEndian : Bool) (a b : UInt8) : ℕ :=
  if bigEndian then a.toNat <<< 8 ||| b.toNat else b.toNat <<< 8 ||| a.toNat

/-- The next code unit, if there are enough bytes. -/
def nextUnit (bigEndian : Bool) : List UInt8 → Option ℕ
  | a :: b :: _ => some (unit bigEndian a b)
  | _ => none

/-- What the code unit `u` before `next` is decoded to, and how many bytes after it are used for
that; there is nothing for a high surrogate at the end, unless `final`. -/
def decodeUnit (final : Bool) (u : ℕ) (next : Option ℕ) : Option (List UInt8 × ℕ) :=
  if u < 0x80 then
    some ([UInt8.ofNat u], 0)
  else if u < 0xd800 ∨ 0xe000 ≤ u then
    some (appendRune [] u, 0)
  else if u < 0xdc00 then
    match next with
    | some u₂ =>
      if 0xdc00 ≤ u₂ ∧ u₂ < 0xe000 then
        some (appendRune [] (((u - 0xd800) <<< 10 ||| (u₂ - 0xdc00)) + 0x10000), 2)
      else
        some (appendRune [] 0xfffd, 0)
    | none => if final then some (appendRune [] 0xfffd, 0) else none
  else
    some (appendRune [] 0xfffd, 0)

/-- `decodeUTF16`: what is appended, and what of the input is not used -/
def decodeUtf16 (bigEndian final : Bool) : List UInt8 → List UInt8 × List UInt8
  | a :: b :: l =>
    match decodeUnit final (unit bigEndian a b) (nextUnit bigEndian l) with
    | some (x, k) =>
      let r := decodeUtf16 bigEndian final (l.drop k)
      (x ++ r.1, r.2)
    | none => ([], a :: b :: l)
  | l => if final ∧ l ≠ [] then (appendRune [] 0xfffd, []) else ([], l)
  termination_by l => l.length
  decreasing_by
    simp only [List.length_drop, List.length_cons]
    omega

variable {bigEndian : Bool} {l m : List UInt8} {u : ℕ} {r : List UInt8 × ℕ}

/-- What is decoded at the end of a chunk is decoded in the same way before more input. -/
theorem decodeUnit_none (h : decodeUnit false u none = some r) (next : Option ℕ) :
  decodeUnit true u next = some r ∧ r.2 = 0
  := by
  rw [decodeUnit.eq_def] at h ⊢
  split_ifs at h with hascii hbasic hhigh hfinal
  · rw [if_pos hascii]
    exact ⟨h, by rw [← Option.some.inj h]⟩
  · rw [if_neg hascii, if_pos hbasic]
    exact ⟨h, by rw [← Option.some.inj h]⟩
  · cases hfinal
  · rw [if_neg hascii, if_neg hbasic, if_neg hhigh]
    exact ⟨h, by rw [← Option.some.inj h]⟩

theorem snd_decodeUnit_le {next : ℕ} (h : decodeUnit false u (some next) = some r) :
  r.2 ≤ 2
  := by
  rw [decodeUnit] at h
  split_ifs at h <;> simp only [← Option.some.inj h, le_refl, Nat.zero_le]

/-- What has been decoded does not depend on what comes later. -/
theorem decodeUnit_append (h : decodeUnit false u (nextUnit bigEndian l) = some r)
    (m : List UInt8) :
  decodeUnit true u (nextUnit bigEndian (l ++ m)) = some r ∧ r.2 ≤ l.length
  := by
  match l with
  | [] | [_] =>
    obtain ⟨hwhole, hr⟩ := decodeUnit_none h _
    exact ⟨hwhole, hr ▸ Nat.zero_le _⟩
  | a :: b :: l => exact ⟨h, (snd_decodeUnit_le h).trans (by simp)⟩

/-- Only a high surrogate with less than another code unit after it is left. -/
theorem length_lt_of_decodeUnit {final : Bool}
    (h : decodeUnit final u (nextUnit bigEndian l) = none) :
  l.length < 2
  := by
  match l with
  | [] | [_] => simp
  | a :: b :: l =>
    rw [nextUnit, decodeUnit] at h
    split_ifs at h

/-- Up to three bytes are carried over. -/
theorem length_decodeUtf16_le (bigEndian final : Bool) (l : List UInt8) :
  (decodeUtf16 bigEndian final l).2.length ≤ 3
  := by
  fun_induction decodeUtf16 bigEndian final l with
  | case1 a b l x k hunit r ih => exact ih
  | case2 a b l hunit =>
    have := length_lt_of_decodeUnit hunit
    simp only [length_cons]
    omega
  | case3 l hshort h => exact Nat.zero_le _
  | case4 l hshort h =>
    match l with
    | [] | [_] => simp
    | a :: b :: l => exact (hshort a b l rfl).elim

/-- Decoding can stop anywhere, and go on with what is carried over. -/
theorem decodeUtf16_append (bigEndian : Bool) (l m : List UInt8) :
  (decodeUtf16 bigEndian true (l ++ m)).1 = (decodeUtf16 bigEndian false l).1
    ++ (decodeUtf16 bigEndian true ((decodeUtf16 bigEndian false l).2 ++ m)).1
  := by
  fun_induction decodeUtf16 bigEndian false l with
  | case1 a b l x k hunit r ih =>
    obtain ⟨hwhole, hk⟩ := decodeUnit_append hunit m
    rw [cons_append, cons_append, decodeUtf16, hwhole]
    dsimp only
    rw [drop_append_of_le_length hk, ih, append_assoc]
  | case3 l hshort h => simp at h
  | _ => rfl

/-! ### Reading -/

/-- `utf16Reader`: `raw` is what of `u.raw` is not decoded yet, and `out` is what of `u.out` is not
delivered yet. -/
structure Utf16Reader where
  src : Source
  bigEndian : Bool
  raw : List UInt8
  out : List UInt8
  err : Option ReadErr
  carried : raw.length ≤ 3

def utf16Chunk : ℕ := 4096

namespace Utf16Reader

/-- A turn of the loop of `Read`, which reads a chunk and decodes it. -/
def fill (u : Utf16Reader) : Utf16Reader :=
  let r := u.src.read (utf16Chunk - u.raw.length)
  let d := decodeUtf16 u.bigEndian (r.2.1 == some .eof) (u.raw ++ r.1)
  ⟨r.2.2, u.bigEndian, d.2, d.1, r.2.1, length_decodeUtf16_le _ _ _⟩

/-- Handing out what has been decoded. -/
def deliver (u : Utf16Reader) (n : ℕ) : List UInt8 × Option ReadErr × Utf16Reader :=
  (u.out.take n, none, { u with out := u.out.drop n })

/-- `Read(p)` where `p` has the length `n`: the bytes read, the error, and the reader after the
call.  The loop has another turn only if one with an error has decoded nothing, and then returns
the error. -/
def read (u : Utf16Reader) (n : ℕ) : List UInt8 × Option ReadErr × Utf16Reader :=
  if u.out ≠ [] then u.deliver n
  else if u.err ≠ none then ([], u.err, u)
  else if u.fill.out ≠ [] then u.fill.deliver n
  else ([], u.fill.err, u.fill)

/-- What will still be delivered. -/
def pending (u : Utf16Reader) : List UInt8 :=
  u.out ++ if u.err = none then (decodeUtf16 u.bigEndian true (u.raw ++ u.src.bytes)).1 else []

/-- What calls of `Read` with buffers of these sizes deliver, and whether one has returned an
error. -/
def reads : Utf16Reader → List ℕ → List UInt8 × Bool
  | _, [] => ([], false)
  | u, n :: ns =>
    let r := u.read n
    let rs := reads r.2.2 ns
    (r.1 ++ rs.1, r.2.1.isSome || rs.2)

/-- At most this many calls with buffers that are not empty return no error. -/
def steps (u : Utf16Reader) : ℕ :=
  u.pending.length + if u.err = none then u.src.bytes.length + 1 else 0

/-- What a call of `Read` with a buffer of length `n` may do. -/
structure Takes (u : Utf16Reader) (n : ℕ) (r : List UInt8 × Option ReadErr × Utf16Reader) :
    Prop where
  pending : u.pending = r.1 ++ r.2.2.pending
  ended : r.2.1 ≠ none → u.pending = []
  steps : r.2.2.steps ≤ u.steps
  progress : 0 < n → r.2.1 = none → r.2.2.steps < u.steps

variable {u : Utf16Reader} {n : ℕ}

/-- A turn of the loop decodes what is handed out next, and takes from the source unless that has
ended. -/
theorem pending_fill (hout : u.out = []) (herr : u.err = none) :
  u.fill.pending = u.pending ∧ u.fill.steps < u.steps
  := by
  have hroom : 0 < utf16Chunk - u.raw.length := by
    have := u.carried
    rw [utf16Chunk]
    omega
  obtain ⟨hbytes, -, hread⟩ := u.src.read_spec hroom
  set p := (u.src.read (utf16Chunk - u.raw.length)).1
  have hfill : u.fill.pending = (decodeUtf16 u.bigEndian (u.fill.err == some .eof) (u.raw ++ p)).1
      ++ if u.fill.err = none then (decodeUtf16 u.bigEndian true
        ((decodeUtf16 u.bigEndian (u.fill.err == some .eof) (u.raw ++ p)).2
          ++ u.fill.src.bytes)).1 else [] := rfl
  have hpending : u.fill.pending = u.pending := by
    rw [hfill, pending, hout, if_pos herr, ← hbytes, ← append_assoc, nil_append]
    rcases hread with ⟨hnone, -⟩ | ⟨heof, hdone⟩
    · rw [show u.fill.err = none from hnone, if_pos rfl]
      exact (decodeUtf16_append _ _ _).symm
    · rw [show u.fill.err = some .eof from heof, hdone]
      simp
  refine ⟨hpending, ?_⟩
  rw [steps, steps, hpending, if_pos herr, Nat.add_lt_add_iff_left]
  split_ifs with hnone
  · have hp : 0 < p.length := by
      rcases hread with ⟨-, hp⟩ | ⟨heof, -⟩
      · exact length_pos_iff.mpr hp
      · rw [show u.fill.err = some .eof from heof] at hnone
        cases hnone
    rw [← hbytes, length_append]
    change (u.src.read _).2.2.bytes.length + 1 < _
    omega
  · exact Nat.succ_pos _

theorem takes_deliver (hout : u.out ≠ []) (n : ℕ) :
  u.Takes n (u.deliver n)
  := by
  have hpending : u.pending = (u.deliver n).1 ++ (u.deliver n).2.2.pending := by
    rw [deliver, pending, pending, ← append_assoc, take_append_drop]
  have hsteps : u.steps = (u.deliver n).1.length + (u.deliver n).2.2.steps := by
    rw [steps, steps, hpending, length_append, Nat.add_assoc]
    rfl
  refine ⟨hpending, by simp [deliver], by omega, fun hn _ => ?_⟩
  have : 0 < (u.deliver n).1.length := by
    have := length_pos_iff.mpr hout
    rw [deliver, length_take]
    omega
  omega

theorem takes_read (u : Utf16Reader) (n : ℕ) :
  u.Takes n (u.read n)
  := by
  rw [read]
  split_ifs with hout herr hfill
  · exact takes_deliver hout n
  · rw [not_not] at hout
    have hnil : u.pending = [] := by
      rw [pending, hout, if_neg herr]
      rfl
    exact ⟨rfl, fun _ => hnil, le_rfl, fun _ h => (herr h).elim⟩
  · rw [not_not] at hout herr
    obtain ⟨hpending, hsteps⟩ := pending_fill hout herr
    obtain ⟨h₁, h₂, h₃, h₄⟩ := takes_deliver hfill n
    exact ⟨hpending ▸ h₁, fun h => hpending ▸ h₂ h, by omega, fun _ _ => by omega⟩
  · rw [not_not] at hout herr hfill
    obtain ⟨hpending, hsteps⟩ := pending_fill hout herr
    refine ⟨hpending.symm, fun hend => ?_, hsteps.le, fun _ _ => hsteps⟩
    rw [← hpending, pending, hfill, if_neg hend, append_nil]

/-- Calls deliver what is pending from its beginning on, and all of it once one has returned an
error; enough calls lead to that. -/
theorem reads_spec (u : Utf16Reader) (ns : List ℕ) :
  (u.reads ns).1 <+: u.pending ∧ ((u.reads ns).2 = true → (u.reads ns).1 = u.pending)
    ∧ (u.steps < (ns.filter (0 < ·)).length → (u.reads ns).2 = true)
  := by
  induction ns generalizing u with
  | nil => simp [reads]
  | cons n ns ih =>
    obtain ⟨hpending, hended, hsteps, hprogress⟩ := takes_read u n
    obtain ⟨hpre, hall, henough⟩ := ih (u.read n).2.2
    rw [reads]
    cases hend : (u.read n).2.1 with
    | some e =>
      have hnil := hended (by simp [hend])
      rw [hnil, nil_eq, append_eq_nil_iff] at hpending
      rw [hpending.2, prefix_nil] at hpre
      simp [hnil, hpending.1, hpre]
    | none =>
      rw [hpending]
      refine ⟨(prefix_append_right_inj _).mpr hpre, fun h => ?_, fun h => henough ?_⟩
      · rw [hall h]
      rw [filter_cons] at h
      split_ifs at h with hn
      · have := hprogress (by simpa using hn) hend
        rw [length_cons] at h
        omega
      · omega

/-- A reader at the start of a source. -/
def start (s : Source) (bigEndian : Bool) : Utf16Reader :=
  ⟨s, bigEndian, [], [], none, Nat.zero_le _⟩

/-- However the source is cut into pieces and whatever the sizes of the buffers, a reader delivers
what `decodeUTF16` makes of the whole input, and then reports the end. -/
theorem utf16Reader_delivers (s : Source) (bigEndian : Bool) (ns : List ℕ) :
  let whole := (decodeUtf16 bigEndian true s.bytes).1
  ((start s bigEndian).reads ns).1 <+: whole
    ∧ (((start s bigEndian).reads ns).2 = true → ((start s bigEndian).reads ns).1 = whole)
    ∧ (whole.length + (s.bytes.length + 1) < (ns.filter (0 < ·)).length →
      ((start s bigEndian).reads ns).2 = true)
  := reads_spec (start s bigEndian) ns

/-- The two halves of a pair of surrogates come in two pieces, and the four bytes of the rune go out
into buffers of three bytes. -/
theorem utf16Reader_delivers_pair :
  (start ⟨[[0x3d, 0xd8, 0x00], [0xde]], by simp, false⟩ false).reads (replicate 10 3)
    = ([0xf0, 0x9f, 0x98, 0x80], true)
  := by
  have hwhole : (decodeUtf16 false true [0x3d, 0xd8, 0x00, 0xde]).1 = [0xf0, 0x9f, 0x98, 0x80] := by
    simp [decodeUtf16, decodeUnit, unit, nextUnit, appendRune]
  obtain ⟨-, hall, hend⟩ :=
    utf16Reader_delivers ⟨[[0x3d, 0xd8, 0x00], [0xde]], by simp, false⟩ false (replicate 10 3)
  have hended := hend (by simp [Source.bytes, hwhole])
  exact Prod.ext ((hall hended).trans hwhole) hended

end Utf16Reader

end Xmlro
