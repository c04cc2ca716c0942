import TinyGoDriver.Go.Relational

/-!
# Buffered reading

`Source` is an `io.Reader` that hands out a fixed content in pieces of its own choosing, and
`Bufio` a `bufio.Reader` on top of it.  What a `Bufio` will still hand out is `pending`:
what stands in its buffer, followed by what the source has left.

The results say that the pieces do not show.  `readFull` takes the next `n` bytes of
`pending`, or fails if there are not so many, and `discard` drops them.
-/

namespace GoRt

open List GoM

/-- What reading may end with. -/
inductive ReadErr where
  | eof
  | unexpectedEOF
  | noProgress
  deriving DecidableEq, Repr

/-! ### Sources -/

/-- A reader that hands out its content piece by piece.  An eager one reports the end of the
content along with the last of it, others by a call of its own.  A reader that returns no bytes and
no error, as `io.Reader` discourages and `bufio` gives up on after a hundred times in a row, is not
one of these. -/
structure Source where
  pieces : List (List UInt8)
  pieces_ne_nil : ∀ p ∈ pieces, p ≠ []
  eager : Bool

variable {n : ℕ}

namespace Source

/-- The content that has not been handed out. -/
def bytes (s : Source) : List UInt8 := s.pieces.flatten

/-- `Read(p)` where `p` has the length `n`: the bytes read, the error, and the source after
the call.  A piece that does not fit is handed out in parts. -/
def read (s : Source) (n : ℕ) : List UInt8 × Option ReadErr × Source :=
  match h : s.pieces with
  | [] => ([], some .eof, s)
  | p :: ps =>
    if hle : p.length ≤ n then
      (p, if ps = [] ∧ s.eager then some .eof else none,
        ⟨ps, fun q hq => s.pieces_ne_nil q (by simp [h, hq]), s.eager⟩)
    else
      (p.take n, none, ⟨p.drop n :: ps, by
          intro q hq
          rcases List.mem_cons.mp hq with rfl | hq
          · simpa using hle
          · exact s.pieces_ne_nil q (by simp [h, hq]), s.eager⟩)

/-- A call reads the front of the content.  It reads something, unless it reports the end. -/
theorem read_spec (s : Source) (hn : 0 < n) :
  (s.read n).1 ++ (s.read n).2.2.bytes = s.bytes ∧ (s.read n).1.length ≤ n
    ∧ ((s.read n).2.1 = none ∧ (s.read n).1 ≠ []
      ∨ (s.read n).2.1 = some .eof ∧ (s.read n).2.2.bytes = [])
  := by
  rw [read]
  split
  · rename_i h
    simp [bytes, h]
  rename_i p ps h
  have hp : p ≠ [] := s.pieces_ne_nil p (by simp [h])
  split
  · rename_i hle
    refine ⟨by simp [bytes, h], hle, ?_⟩
    by_cases hend : ps = [] ∧ s.eager
    · right
      simp [bytes, hend]
    · left
      exact ⟨if_neg hend, hp⟩
  · refine ⟨by simp [bytes, h, ← append_assoc], by simp, ?_⟩
    left
    simp only [ne_eq, take_eq_nil_iff, hp, or_false, true_and]
    omega

end Source

/-! ### The buffer -/

/-- A `bufio.Reader` with a buffer of `size` bytes, of which `buf` have been read from the
source and not handed out. -/
structure Bufio where
  size : ℕ
  buf : List UInt8
  err : Option ReadErr
  src : Source

namespace Bufio

def newReaderSize (src : Source) (size : ℕ) : Bufio := ⟨size, [], none, src⟩

/-- `Read(p)` where `p` has the length `n`.  An error that the source reported is kept until
the buffer is empty, and forgotten when it is returned. -/
def read (b : Bufio) (n : ℕ) : List UInt8 × Option ReadErr × Bufio :=
  if n = 0 then
    if b.buf ≠ [] then ([], none, b) else ([], b.err, { b with err := none })
  else if b.buf ≠ [] then
    (b.buf.take n, none, { b with buf := b.buf.drop n })
  else if b.err ≠ none then
    ([], b.err, { b with err := none })
  else if b.size ≤ n then
    -- a large read bypasses the empty buffer
    let (p, e, src) := b.src.read n
    (p, e, { b with src := src })
  else
    let (p, e, src) := b.src.read b.size
    if p = [] then ([], e, { b with src := src })
    else (p.take n, none, { b with buf := p.drop n, err := e, src := src })

/-- The loop of `fill`, which gives up on a source that makes no progress. -/
def fillLoop : ℕ → Bufio → Bufio
  | 0, b => { b with err := some .noProgress }
  | tries + 1, b =>
    let (p, e, src) := b.src.read (b.size - b.buf.length)
    let b := { b with buf := b.buf ++ p, src := src }
    if e ≠ none then { b with err := e }
    else if p ≠ [] then b
    else fillLoop tries b

def fill (b : Bufio) : Go ReadErr Bufio :=
  if b.size ≤ b.buf.length then .error .panic else .ok (fillLoop 100 b)

/-- The loop of `Discard`, with `remain` bytes still to drop. -/
def discardLoop : ℕ → ℕ → GoM ReadErr Bufio Unit
  | 0, _ => GoM.call (.error .diverge)
  | fuel + 1, remain => do
    let b ← get
    let b ← GoM.call (if b.buf = [] then b.fill else .ok b)
    let skip := min b.buf.length remain
    set { b with buf := b.buf.drop skip }
    if remain - skip = 0 then
      pure ()
    else
      match b.err with
      | some e => do
        modify fun b => { b with err := none }
        GoM.fail e
      | none => discardLoop fuel (remain - skip)

/-- `Discard(n)`. -/
def discard (n : ℕ) : GoM ReadErr Bufio Unit :=
  if n = 0 then pure () else discardLoop (n + 1) n

/-- The loop of `io.ReadAtLeast`, which wants `n` bytes and has `got`. -/
def readFullLoop : ℕ → ℕ → List UInt8 → GoM ReadErr Bufio (List UInt8)
  | 0, _, _ => GoM.call (.error .diverge)
  | fuel + 1, n, got =>
    if n ≤ got.length then
      pure got
    else do
      let b ← get
      let (p, e, b) := b.read (n - got.length)
      set b
      let got := got ++ p
      match e with
      | none => readFullLoop fuel n got
      | some e =>
        if n ≤ got.length then pure got
        else if got ≠ [] ∧ e = .eof then GoM.fail .unexpectedEOF
        else GoM.fail e

/-- `io.ReadFull(b, p)` where `p` has the length `n`. -/
def readFull (n : ℕ) : GoM ReadErr Bufio (List UInt8) := readFullLoop (n + 1) n []

/-! ### What the pieces amount to -/

/-- What will still be handed out. -/
def pending (b : Bufio) : List UInt8 := b.buf ++ b.src.bytes

/-- The buffer can hold something, and an error that is kept stands for the end. -/
structure Ok (b : Bufio) : Prop where
  size_pos : 0 < b.size
  err_eof : b.err = none ∨ b.err = some .eof ∧ b.src.bytes = []

@[simp]
theorem pending_newReaderSize (src : Source) (size : ℕ) :
  (newReaderSize src size).pending = src.bytes
  := rfl

/-- The outcome of reading the front `p` of what is pending in `b`, with the error `e`, which
leaves `b'`. -/
structure Took (b : Bufio) (p : List UInt8) (e : Option ReadErr) (b' : Bufio) : Prop where
  ok : b'.Ok
  pending_eq : p ++ b'.pending = b.pending
  progress : e = none ∧ p ≠ [] ∨ e = some .eof ∧ b'.pending = []

variable {b : Bufio} {fuel : ℕ}

section

variable (hb : b.Ok) {got : List UInt8} {remain : ℕ}
include hb

/-- A call reads the front of what is pending. -/
theorem read_spec (hn : 0 < n) :
  Took b (b.read n).1 (b.read n).2.1 (b.read n).2.2 ∧ (b.read n).1.length ≤ n
  := by
  rw [read, if_neg (by omega)]
  by_cases hbuf : b.buf ≠ []
  · rw [if_pos hbuf]
    refine ⟨⟨⟨hb.size_pos, hb.err_eof⟩, ?_, ?_⟩, by simp⟩
    · simp only [pending, ← append_assoc, take_append_drop]
    · left
      simp only [ne_eq, take_eq_nil_iff, hbuf, or_false, true_and]
      omega
  rw [if_neg hbuf]
  rw [not_not] at hbuf
  by_cases herr : b.err ≠ none
  · rw [if_pos herr]
    obtain h | ⟨h, hend⟩ := hb.err_eof
    · exact absurd h herr
    · exact ⟨⟨⟨hb.size_pos, .inl rfl⟩, by simp [pending], .inr ⟨h, by simp [pending, hbuf, hend]⟩⟩,
        by simp⟩
  rw [if_neg herr]
  rw [not_not] at herr
  by_cases hlarge : b.size ≤ n
  · rw [if_pos hlarge]
    obtain ⟨h₁, h₂, h₃⟩ := b.src.read_spec hn
    refine ⟨⟨⟨hb.size_pos, .inl herr⟩, ?_, ?_⟩, h₂⟩
    · simpa [pending, hbuf] using h₁
    · simpa [pending, hbuf] using h₃
  rw [if_neg hlarge]
  obtain ⟨h₁, h₂, h₃⟩ := b.src.read_spec hb.size_pos
  by_cases hp : (b.src.read b.size).1 = []
  · simp only [hp, if_true]
    have hend : (b.src.read b.size).2.1 = some .eof ∧ (b.src.read b.size).2.2.bytes = [] := by
      simpa [hp] using h₃
    rw [hp] at h₁
    refine ⟨⟨⟨hb.size_pos, .inl herr⟩, ?_, .inr ⟨hend.1, ?_⟩⟩, by simp⟩
    · simp [pending, hbuf, h₁]
    · simp [pending, hbuf, hend.2]
  simp only [hp, if_false]
  refine ⟨⟨⟨hb.size_pos, ?_⟩, ?_, .inl ⟨rfl, ?_⟩⟩, by simp⟩
  · obtain h | h := h₃
    · exact .inl h.1
    · exact .inr h
  · simp only [pending, hbuf, nil_append]
    rw [← append_assoc, take_append_drop, h₁]
  · simp only [ne_eq, take_eq_nil_iff, hp, or_false]
    omega

/-! ### Reading in full -/

/-- The loop gathers the next bytes, as many as it still wants.  Where there are fewer it fails,
having read everything. -/
theorem readFullLoop_spec (hfuel : n < got.length + fuel) (hgot : got.length ≤ n) :
  ∃ b', if n ≤ got.length + b.pending.length then
      readFullLoop fuel n got b = .ok (got ++ b.pending.take (n - got.length)) b' ∧ b'.Ok
        ∧ b'.pending = b.pending.drop (n - got.length)
    else readFullLoop fuel n got b
      = .error (.fail (if got ++ b.pending = [] then .eof else .unexpectedEOF)) b'
  := by
  induction fuel generalizing got b with
  | zero => omega
  | succ fuel ih =>
    rw [readFullLoop]
    by_cases hdone : n ≤ got.length
    · refine ⟨b, ?_⟩
      rw [if_pos hdone, if_pos (by omega), Nat.sub_eq_zero_of_le hdone]
      exact ⟨by simp, hb, rfl⟩
    rw [if_neg hdone]
    obtain ⟨htook, hle⟩ := read_spec hb (show 0 < n - got.length by omega)
    rw [bind_apply, get_apply]
    dsimp only
    generalize b.read (n - got.length) = r at htook hle
    obtain ⟨p, e, b₁⟩ := r
    dsimp only at htook hle ⊢
    rw [bind_apply, set_apply, ← htook.pending_eq, take_append, drop_append, take_of_length_le hle,
      drop_of_length_le hle, length_append, nil_append, ← append_assoc, ← append_assoc,
      ← Nat.add_assoc, Nat.sub_sub, ← length_append]
    obtain ⟨rfl, hp⟩ | ⟨rfl, hend⟩ := htook.progress
    · have := length_pos_iff.mpr hp
      exact ih htook.ok (by rw [length_append]; omega) (by rw [length_append]; omega)
    refine ⟨b₁, ?_⟩
    rw [hend, length_nil, Nat.add_zero, append_nil]
    dsimp only
    split
    · simp [htook.ok]
    · by_cases hnil : got ++ p = []
      · rw [if_neg (by simp [hnil]), if_pos hnil]
        rfl
      · rw [if_pos ⟨hnil, rfl⟩, if_neg hnil]
        rfl

/-- `readFull` takes the next `n` bytes of what is pending. -/
theorem readFull_eq_ok (hlen : n ≤ b.pending.length) :
  ∃ b', readFull n b = .ok (b.pending.take n) b' ∧ b'.Ok ∧ b'.pending = b.pending.drop n
  := by
  obtain ⟨b', h⟩ := readFullLoop_spec hb (show n < [].length + (n + 1) by simp) (Nat.zero_le n)
  exact ⟨b', by simpa [readFull, hlen] using h⟩

/-- `readFull` fails where less is pending, with an error that tells whether it was
nothing. -/
theorem readFull_short (hlen : b.pending.length < n) :
  ∃ b', readFull n b = .error (.fail (if b.pending = [] then .eof else .unexpectedEOF)) b'
  := by
  obtain ⟨b', h⟩ := readFullLoop_spec hb (show n < [].length + (n + 1) by simp) (Nat.zero_le n)
  exact ⟨b', by simpa [readFull, hlen.not_ge] using h⟩

/-! ### Discarding -/

/-- `fill` moves bytes from the source to the empty buffer. -/
theorem fill_spec (hbuf : b.buf = []) :
  ∃ b', b.fill = .ok b' ∧ b'.Ok ∧ b'.pending = b.pending
    ∧ (b'.err = none ∧ b'.buf ≠ [] ∨ b'.err = some .eof ∧ b'.src.bytes = [])
  := by
  have hsize := hb.size_pos
  obtain ⟨h₁, -, h₃⟩ := b.src.read_spec hsize
  rw [fill, if_neg (by rw [hbuf, length_nil]; omega), fillLoop, hbuf]
  generalize b.src.read b.size = r at h₁ h₃
  obtain ⟨p, e, src⟩ := r
  dsimp only at h₁ h₃ ⊢
  obtain ⟨rfl, hp⟩ | ⟨rfl, hend⟩ := h₃
  · rw [if_pos hp]
    have herr : b.err = none := by
      obtain h | ⟨-, hend⟩ := hb.err_eof
      · exact h
      · rw [hend] at h₁
        exact absurd (append_eq_nil_iff.mp h₁).1 hp
    exact ⟨_, rfl, ⟨hsize, .inl herr⟩, by simp [pending, hbuf, h₁], .inl ⟨herr, hp⟩⟩
  · exact ⟨_, rfl, ⟨hsize, .inr ⟨rfl, hend⟩⟩, by simp [pending, hbuf, h₁], .inr ⟨rfl, hend⟩⟩

/-- One round of `discardLoop` works on a buffer that is not empty, or knows the end. -/
theorem discard_fill :
  ∃ b', (if b.buf = [] then b.fill else .ok b) = .ok b' ∧ b'.Ok ∧ b'.pending = b.pending
    ∧ (b'.err = none ∧ b'.buf ≠ [] ∨ b'.err = some .eof ∧ b'.src.bytes = [])
  := by
  by_cases hbuf : b.buf = []
  · rw [if_pos hbuf]
    exact fill_spec hb hbuf
  rw [if_neg hbuf]
  refine ⟨b, rfl, hb, rfl, ?_⟩
  obtain h | h := hb.err_eof
  · exact .inl ⟨h, hbuf⟩
  · exact .inr h

theorem Ok.dropBuf (k : ℕ) :
  Ok { b with buf := b.buf.drop k }
  := ⟨hb.size_pos, hb.err_eof⟩

theorem discardLoop_spec (hfuel : remain < fuel) :
  ∃ b', if remain ≤ b.pending.length then
      discardLoop fuel remain b = .ok () b' ∧ b'.Ok ∧ b'.pending = b.pending.drop remain
    else discardLoop fuel remain b = .error (.fail .eof) b'
  := by
  induction fuel generalizing remain b with
  | zero => omega
  | succ fuel ih =>
    obtain ⟨⟨size, buf, err, src⟩, hfill, hok, hpend, hprog⟩ := discard_fill hb
    rw [discardLoop, bind_apply, get_apply]
    dsimp only
    rw [hfill, bind_apply, call_ok]
    dsimp only at hprog ⊢
    rw [bind_apply, set_apply, ← hpend, pending, length_append]
    dsimp only
    by_cases hend : remain ≤ buf.length
    · refine ⟨⟨size, buf.drop remain, err, src⟩, ?_⟩
      rw [Nat.min_eq_right hend, if_pos (Nat.sub_self _), if_pos (by omega),
        drop_append_of_le_length hend]
      exact ⟨rfl, hok.dropBuf remain, rfl⟩
    rw [Nat.min_eq_left (by omega), if_neg (by omega), drop_append,
      drop_of_length_le (show buf.length ≤ remain by omega), nil_append]
    obtain ⟨rfl, hbuf⟩ | ⟨rfl, hsrc⟩ := hprog
    · have := length_pos_iff.mpr hbuf
      have hrest := ih (hok.dropBuf buf.length) (show remain - buf.length < fuel by omega)
      rw [pending, drop_length, nil_append] at hrest
      simpa only [Nat.sub_le_iff_le_add', drop_length] using hrest
    · refine ⟨⟨size, buf.drop buf.length, none, src⟩, ?_⟩
      rw [hsrc, length_nil, if_neg (by omega)]
      rfl

/-- `discard` drops the next `n` bytes of what is pending. -/
theorem discard_eq_ok (hlen : n ≤ b.pending.length) :
  ∃ b', discard n b = .ok () b' ∧ b'.Ok ∧ b'.pending = b.pending.drop n
  := by
  rw [discard]
  split
  · rename_i h
    exact ⟨b, rfl, hb, by simp [h]⟩
  · have h := discardLoop_spec hb (Nat.lt_succ_self n)
    simpa only [if_pos hlen] using h

/-- `discard` fails where less is pending. -/
theorem discard_short (hlen : b.pending.length < n) :
  ∃ b', discard n b = .error (.fail .eof) b'
  := by
  rw [discard, if_neg (by omega)]
  have h := discardLoop_spec hb (Nat.lt_succ_self n)
  simpa only [if_neg hlen.not_ge] using h

end

end Bufio

end GoRt
