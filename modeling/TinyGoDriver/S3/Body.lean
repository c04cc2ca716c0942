import Mathlib.Data.Int.Notation
import Mathlib.Data.List.Basic

/-!
# Bodies of uploads

`Put` and `UploadPart` send what is left in a reader.  Before the first request the length and the
hash of the body have to be known: a reader that can seek is read once for them and rewound, or
measured by seeking to its end and back, and any other is read into a buffer, or streamed without
them.  After a redirect the body is sent again.

All of this shares the position of one reader, and every call of `Read` and `Seek` may fail.  A
reader is given by its bytes and by the calls that fail: a seek that fails leaves the reader at
some position, and a read that fails has read some bytes before.  If a redirect comes early, the
request before may still be reading when the reader is rewound for the next one.
-/

namespace S3

/-- A reader.  `fault k` tells whether the call with number `k` fails. -/
structure Reader where
  data : List UInt8
  /-- whether it is an `io.Seeker` -/
  seekable : Bool
  fault : ℕ → Option ℕ

/-- Where a reader is, and how often it has been called. -/
structure Stream where
  pos : ℕ
  calls : ℕ

inductive Err where
  /-- the error of a call of the reader -/
  | reader (call : ℕ)
  /-- `errStreamNotReplayable` -/
  | streamNotReplayable
  /-- `ErrInvalidPart` -/
  | invalidPart
  /-- an error of `http.Client.Do` -/
  | http
  /-- an error of `redirectTarget` -/
  | redirect
  /-- `ErrTooManyRedirect` -/
  | tooManyRedirect
  deriving DecidableEq, Repr

namespace Reader

variable (r : Reader)

/-- The bytes that are left at a position. -/
def rest (pos : ℕ) : List UInt8 := r.data.drop pos

/-- `Seek`, to the position `target`. -/
def seek (target : ℕ) (s : Stream) : Except Err ℕ × Stream :=
  match r.fault s.calls with
  | some pos => (.error (.reader s.calls), ⟨pos, s.calls + 1⟩)
  | none => (.ok target, ⟨target, s.calls + 1⟩)

/-- `io.ReadAll` and `io.Copy`: the calls of `Read` up to the end count as one. -/
def readAll (s : Stream) : Except Err (List UInt8) × Stream :=
  match r.fault s.calls with
  | some n => (.error (.reader s.calls), ⟨s.pos + min n (r.rest s.pos).length, s.calls + 1⟩)
  | none => (.ok (r.rest s.pos), ⟨s.pos + (r.rest s.pos).length, s.calls + 1⟩)

/-- Some calls of `Read`, that read up to `n` bytes. -/
def readSome (n : ℕ) (s : Stream) : Except Err (List UInt8) × Stream :=
  match r.fault s.calls with
  | some m => (.error (.reader s.calls), ⟨s.pos + min m (r.rest s.pos).length, s.calls + 1⟩)
  | none => (.ok ((r.rest s.pos).take n), ⟨s.pos + min n (r.rest s.pos).length, s.calls + 1⟩)

/-- What is read up to the end, or before a call fails. -/
def drain (s : Stream) : List UInt8 × Option Err × Stream :=
  match r.fault s.calls with
  | some n => ((r.rest s.pos).take n, some (.reader s.calls),
      ⟨s.pos + min n (r.rest s.pos).length, s.calls + 1⟩)
  | none => (r.rest s.pos, none, ⟨s.pos + (r.rest s.pos).length, s.calls + 1⟩)

variable (s : Stream)

theorem prefix_drain :
  (r.drain s).1 <+: r.rest s.pos
  := by
  unfold drain
  split
  · exact List.take_prefix _ _
  · exact List.prefix_refl _

variable {r s}

theorem drain_eq_rest (h : (r.drain s).2.1 = none) :
  (r.drain s).1 = r.rest s.pos
  := by
  unfold drain at h ⊢
  split at h
  · cases h
  · rfl

/-- Fewer bytes than there are come only from a call that fails. -/
theorem length_drain_lt_iff {n : ℤ} (hn : n < (r.rest s.pos).length) :
  (r.drain s).1.length < n ↔ ∃ m : ℕ, r.fault s.calls = some m ∧ m < n
  := by
  unfold drain
  cases r.fault s.calls with
  | none =>
    simp only [reduceCtorEq, false_and, exists_false, iff_false]
    omega
  | some m =>
    simp only [List.length_take, Option.some.injEq, exists_eq_left']
    omega

end Reader

/-! ### Preparing a body -/

/-- What is signed as `x-amz-content-sha256`. -/
inductive Hash where
  | unsignedPayload
  /-- the SHA-256 of these bytes -/
  | sha256 (bytes : List UInt8)
  deriving DecidableEq, Repr

/-- The functions that give the body for a request. -/
inductive Body where
  /-- `onceReader` -/
  | once
  /-- rewinds the reader -/
  | rewind (start : ℕ)
  /-- a new reader of the buffer -/
  | buffer (buf : List UInt8)
  deriving DecidableEq, Repr

/-- A body with its length, or a negative number, and its hash. -/
structure Prepared where
  body : Body
  length : ℤ
  hash : Hash
  deriving DecidableEq, Repr

def seekableLength (r : Reader) (s : Stream) : Except Err ℤ × Stream :=
  match r.seek s.pos s with
  | (.error e, s) => (.error e, s)
  | (.ok current, s) =>
    match r.seek r.data.length s with
    | (.error e, s) => (.error e, s)
    | (.ok eof, s) =>
      match r.seek current s with
      | (.error e, s) => (.error e, s)
      | (.ok _, s) => (.ok ((eof : ℤ) - current), s)

/-- The end of `bodyFromReader`, that buffers what is left. -/
def bufferAll (r : Reader) (s : Stream) : Except Err Prepared × Stream :=
  match r.readAll s with
  | (.error e, s) => (.error e, s)
  | (.ok buf, s) => (.ok ⟨.buffer buf, buf.length, .sha256 buf⟩, s)

/-- `bodyFromReader`, for a reader that is not nil. -/
def bodyFromReader (unsigned : Bool) (known : Option ℤ) (r : Reader) (s : Stream) :
    Except Err Prepared × Stream :=
  if unsigned then
    match known, r.seekable with
    | some n, _ => (.ok ⟨.once, n, .unsignedPayload⟩, s)
    | none, true =>
      match seekableLength r s with
      | (.ok n, s) => (.ok ⟨.once, n, .unsignedPayload⟩, s)
      | (.error _, s) => (.ok ⟨.once, -1, .unsignedPayload⟩, s)
    | none, false => (.ok ⟨.once, -1, .unsignedPayload⟩, s)
  else if r.seekable then
    match r.seek s.pos s with
    | (.error _, s) => bufferAll r s
    | (.ok start, s) =>
      match r.readAll s with
      | (.error e, s) => (.error e, s)
      | (.ok bytes, s) =>
        match r.seek start s with
        | (.error _, s) => bufferAll r s
        | (.ok _, s) => (.ok ⟨.rewind start, bytes.length, .sha256 bytes⟩, s)
  else bufferAll r s

/-! ### Sending it -/

/-- What comes of one request. -/
inductive Hop where
  /-- a redirect comes when `n` bytes of the body have been read, and `late` more are read when the
  body for the next request is there -/
  | early (n late : ℕ)
  | redirect
  /-- a redirect without a target -/
  | lost
  | failed
  | final
  deriving DecidableEq, Repr

/-- A body that has been sent, with the length and the hash it was sent under.  A length that is not
positive is none: `net/http` takes zero for unknown if there is a body. -/
structure Sent where
  bytes : List UInt8
  length : ℤ
  hash : Hash
  deriving DecidableEq, Repr

def maxRedirects : ℕ := 3

/-- The function that gives the body for the next request.  `used` tells whether it has been called
before. -/
def Body.get (r : Reader) (body : Body) (used : Bool) (s : Stream) : Except Err Unit × Stream :=
  match body with
  | .once => if used then (.error .streamNotReplayable, s) else (.ok (), s)
  | .rewind start =>
    match r.seek start s with
    | (.error e, s) => (.error e, s)
    | (.ok _, s) => (.ok (), s)
  | .buffer _ => (.ok (), s)

/-- `http.Client.Do` reads the body to its end. -/
def Body.read (r : Reader) (body : Body) (s : Stream) : List UInt8 × Option Err × Stream :=
  match body with
  | .buffer buf => (buf, none, s)
  | _ => r.drain s

/-- `http.Client.Do` reads `n` bytes of the body. -/
def Body.readSome (r : Reader) (body : Body) (n : ℕ) (s : Stream) :
    Except Err (List UInt8) × Stream :=
  match body with
  | .buffer buf => (.ok (buf.take n), s)
  | _ => r.readSome n s

/-- The body that `http.Client.Do` has sent of the bytes it has read, and whether it fails: it sends
no more than the length that is given, and afterwards finds out if there is more. -/
def transmit (length : ℤ) (bytes : List UInt8) (err : Option Err) :
    Option (List UInt8) × Except Err Unit :=
  if 0 < length then
    if bytes.length < length then (none, .error (err.getD .http))
    else (some (bytes.take length.toNat), match err with
      | some e => .error e
      | none => if length < bytes.length then .error .http else .ok ())
  else
    match err with
    | some e => (none, .error e)
    | none => (some bytes, .ok ())

/-- The request before, which has read `got`, reads up to `n` more bytes of a reader that has been
rewound.  A body of which this is not so is read as it would have been before. -/
def Prepared.readLate (r : Reader) (p : Prepared) (got : List UInt8) (n : ℕ) (s : Stream) :
    List Sent × Stream :=
  match p.body with
  | .rewind _ =>
    let bytes := got ++ (r.rest s.pos).take n
    (if 0 < n ∧ 0 < p.length ∧ p.length ≤ bytes.length then
        [⟨bytes.take p.length.toNat, p.length, p.hash⟩]
      else [], ⟨s.pos + min n (r.rest s.pos).length, s.calls⟩)
  | _ => ([], s)

/-- `do`, from a request on that comes after `redirects` redirects: the bodies sent, and the result.
The request before has read `got` and reads up to `late` more bytes. -/
def doLoop (r : Reader) (p : Prepared) : List Hop → ℕ → List UInt8 → ℕ → Stream →
    List Sent × Except Err Unit
  | [], _, _, _, _ => ([], .error .http)
  | hop :: hops, redirects, got, late, s =>
    match p.body.get r (redirects != 0) s with
    | (.error e, _) => ([], .error e)
    | (.ok _, s) =>
      let (before, s) := p.readLate r got late s
      match hop with
      | .early n late =>
        match p.body.readSome r n s with
        | (.error e, _) => (before, .error e)
        | (.ok got, s) =>
          if maxRedirects ≤ redirects then (before, .error .tooManyRedirect)
          else
            let rest := doLoop r p hops (redirects + 1) got late s
            (before ++ rest.1, rest.2)
      | _ =>
        let (bytes, err, s) := p.body.read r s
        match transmit p.length bytes err with
        | (none, res) => (before, res)
        | (some bytes, .error e) => (before ++ [⟨bytes, p.length, p.hash⟩], .error e)
        | (some bytes, .ok _) =>
          let sent : Sent := ⟨bytes, p.length, p.hash⟩
          match hop with
          | .redirect =>
            if maxRedirects ≤ redirects then (before ++ [sent], .error .tooManyRedirect)
            else
              let rest := doLoop r p hops (redirects + 1) [] 0 s
              (before ++ sent :: rest.1, rest.2)
          | .lost => (before ++ [sent], .error .redirect)
          | .final => (before ++ [sent], .ok ())
          | _ => (before ++ [sent], .error .http)

/-- What comes after `bodyFromReader`. -/
def sendBody (r : Reader) (hops : List Hop) : Except Err Prepared × Stream →
    List Sent × Except Err Unit
  | (.error e, _) => ([], .error e)
  | (.ok p, s) => doLoop r p hops 0 [] 0 s

/-- What `Put` and `UploadPart` do with a reader. -/
def upload (unsigned : Bool) (known : Option ℤ) (r : Reader) (s : Stream) (hops : List Hop) :
    List Sent × Except Err Unit :=
  sendBody r hops (bodyFromReader unsigned known r s)

/-- The calls that send a body. -/
inductive Op where
  | put
  | uploadPart (partNumber : ℤ)
  deriving DecidableEq, Repr

def minPartNumber : ℤ := 1

def maxPartNumber : ℤ := 10000

/-- `Put` and `UploadPart` -/
def Op.run (op : Op) (unsigned : Bool) (known : Option ℤ) (r : Reader) (s : Stream)
    (hops : List Hop) : List Sent × Except Err Unit :=
  match op with
  | .put => upload unsigned known r s hops
  | .uploadPart n =>
    if n < minPartNumber ∨ maxPartNumber < n then ([], .error .invalidPart)
    else upload unsigned known r s hops

/-! ### Fidelity -/

/-- The body that was sent, its length, if one was given, and its hash, if it was signed, are those
of `bytes`. -/
@[mk_iff]
structure Sent.Exact (bytes : List UInt8) (x : Sent) : Prop where
  bytes_eq : x.bytes = bytes
  length_eq : 0 < x.length → x.length = bytes.length
  hash_eq : ∀ b, x.hash = .sha256 b → b = bytes

/-- Every body that was sent is exact, and if there is none an error is returned. -/
structure Faithful (bytes : List UInt8) (out : List Sent × Except Err Unit) : Prop where
  exact : ∀ x ∈ out.1, x.Exact bytes
  error : out.1 = [] → ∃ e, out.2 = .error e

/-- Reading from here gives `bytes`, or fails. -/
def Reader.Leaves (r : Reader) (bytes : List UInt8) (s : Stream) : Prop :=
  r.rest s.pos = bytes ∨ (r.fault s.calls).isSome = true

variable {r : Reader} {bytes l : List UInt8}

theorem faithful_error (bytes : List UInt8) (e : Err) :
  Faithful bytes ([], .error e)
  := ⟨fun _ hx => absurd hx List.not_mem_nil, fun _ => ⟨e, rfl⟩⟩

/-! ### What is read again -/

/-- The bytes are all the same. -/
def Uniform (bytes : List UInt8) : Prop := ∀ a ∈ bytes, ∀ b ∈ bytes, a = b

theorem Uniform.eq (h : Uniform bytes) (hmem : l ⊆ bytes) (hlen : l.length = bytes.length) :
  l = bytes
  := List.ext_getElem hlen fun _ _ _ => h _ (hmem (List.getElem_mem _)) _ (List.getElem_mem _)

/-- What is read is the beginning of `bytes`, or could be. -/
def Shows (bytes l : List UInt8) : Prop :=
  l <+: bytes ∨ (Uniform bytes ∧ l ⊆ bytes ∧ l.length ≤ bytes.length)

theorem Shows.eq (h : Shows bytes l) (hlen : bytes.length ≤ l.length) :
  l = bytes
  := by
  rcases h with hpre | ⟨huniform, hmem, hle⟩
  · exact hpre.eq_of_length_le hlen
  · exact huniform.eq hmem (Nat.le_antisymm hle hlen)

/-- A body with its length and its hash, that is read again for each request. -/
structure Prepared.Holds (r : Reader) (bytes : List UInt8) (p : Prepared) : Prop where
  length_eq : p.length = bytes.length
  hash_eq : p.hash = .sha256 bytes
  body : p.body = .buffer bytes ∨ ∃ start, p.body = .rewind start ∧ r.rest start = bytes

namespace Prepared.Holds

variable {p : Prepared} {got : List UInt8} {late : ℕ} {used : Bool} {s t : Stream}

theorem exact (h : p.Holds r bytes) :
  Sent.Exact bytes ⟨bytes, p.length, p.hash⟩
  := ⟨rfl, fun _ => h.length_eq, fun b hb => by cases h.hash_eq.symm.trans hb; rfl⟩

theorem transmit_exact (h : p.Holds r bytes) (hl : Shows bytes l) {err : Option Err}
    {b : List UInt8} {res : Except Err Unit} (hsent : transmit p.length l err = (some b, res)) :
  Sent.Exact bytes ⟨b, p.length, p.hash⟩
  := by
  have hb : b = bytes := by
    rw [h.length_eq] at hsent
    unfold transmit at hsent
    split at hsent
    · split at hsent
      · cases hsent
      · rename_i hshort
        cases hsent
        rw [hl.eq (by omega), Int.toNat_natCast, List.take_length]
    · rename_i hempty
      split at hsent <;> cases hsent
      exact hl.eq (by omega)
  rw [hb]
  exact h.exact

/-- The request before does no harm if it reads nothing, or if all bytes are the same. -/
theorem readLate_exact (h : p.Holds r bytes) (hget : p.body.get r used s = (.ok (), t))
    (hgot : got ⊆ bytes) (hlate : (∃ start, p.body = .rewind start) → late = 0 ∨ Uniform bytes) :
  (∀ x ∈ (p.readLate r got late t).1, x.Exact bytes)
    ∧ Shows bytes (p.body.read r (p.readLate r got late t).2).1
    ∧ ∀ {n g u}, p.body.readSome r n (p.readLate r got late t).2 = (.ok g, u) → g ⊆ bytes
  := by
  rcases h.body with hbody | ⟨start, hbody, hstart⟩
  · simp only [readLate, hbody, Body.read, Body.readSome]
    refine ⟨by simp, .inl (List.prefix_refl _), fun hsome => ?_⟩
    cases hsome
    exact List.take_subset _ _
  obtain rfl : t = ⟨start, s.calls + 1⟩ := by
    unfold Body.get Reader.seek at hget
    cases hfault : r.fault s.calls <;> simp [hbody, hfault] at hget
    exact hget.symm
  have hlate := hlate ⟨start, hbody⟩
  have hrest : r.rest (start + min late bytes.length) = bytes.drop late := by
    rw [← hstart, Reader.rest, Reader.rest, List.drop_drop, List.length_drop]
    by_cases hle : late ≤ r.data.length - start
    · rw [Nat.min_eq_left hle]
    · rw [List.drop_eq_nil_of_le (by omega), List.drop_eq_nil_of_le (by omega)]
  simp only [readLate, hbody, Body.read, Body.readSome, hstart]
  refine ⟨fun x hx => ?_, ?_, fun {n g u} hsome => ?_⟩
  · split at hx
    · rename_i hcomplete
      obtain ⟨hpos, -, hle⟩ := hcomplete
      obtain rfl := List.mem_singleton.mp hx
      have huniform := hlate.resolve_left (by omega)
      have hbytes : (got ++ bytes.take late).take p.length.toNat = bytes := by
        refine huniform.eq (fun a ha => ?_) ?_
        · rcases List.mem_append.mp (List.mem_of_mem_take ha) with ha | ha
          · exact hgot ha
          · exact List.mem_of_mem_take ha
        · rw [List.length_take, h.length_eq, Int.toNat_natCast]
          rw [h.length_eq] at hle
          omega
      rw [hbytes]
      exact h.exact
    · cases hx
  · have hread : (r.drain ⟨start + min late bytes.length, s.calls + 1⟩).1 <+: bytes.drop late := by
      rw [← hrest]
      apply Reader.prefix_drain
    rcases hlate with rfl | huniform
    · exact .inl (by simpa using hread)
    · refine .inr ⟨huniform, fun a ha => List.mem_of_mem_drop (hread.subset ha), ?_⟩
      exact Nat.le_trans hread.length_le (by simp)
  · unfold Reader.readSome at hsome
    split at hsome <;> cases hsome
    rw [hrest]
    exact fun a ha => List.mem_of_mem_drop (List.mem_of_mem_take ha)

end Prepared.Holds

/-- No request is still reading when the next one begins. -/
def Settled (hops : List Hop) : Prop := ∀ n late, Hop.early n late ∈ hops → late = 0

/-- From here on no request reads a body that has been rewound for the next one, or that does no
harm: all bytes are the same, or a call fails before it comes to this. -/
def Calm (r : Reader) (bytes : List UInt8) (hops : List Hop) (late call : ℕ) : Prop :=
  (late = 0 ∧ Settled hops) ∨ Uniform bytes ∨ (r.fault call).isSome = true
    ∨ (late = 0 ∧ ((r.fault (call + 1)).isSome = true ∨ (r.fault (call + 2)).isSome = true))

theorem Calm.late {hops : List Hop} {late call : ℕ} (h : Calm r bytes hops late call)
    (hfault : r.fault call = none) :
  late = 0 ∨ Uniform bytes
  := by
  rcases h with h | h | h | h
  · exact .inl h.1
  · exact .inr h
  · simp [hfault] at h
  · exact .inl h.1

theorem Calm.next {hop : Hop} {hops : List Hop} {late late' call : ℕ}
    (h : Calm r bytes (hop :: hops) late call) (hlate : late' = 0 ∨ ∃ n, hop = .early n late')
    (hfault : r.fault call = none) (hfault' : r.fault (call + 1) = none) :
  Calm r bytes hops late' (call + 2)
  := by
  rcases h with ⟨-, h⟩ | h | h | ⟨-, h | h⟩
  · refine .inl ⟨?_, fun n late hmem => h n late (List.mem_cons_of_mem _ hmem)⟩
    rcases hlate with h' | ⟨n, rfl⟩
    · exact h'
    · exact h n late' List.mem_cons_self
  · exact .inr (.inl h)
  · simp [hfault] at h
  · simp [hfault'] at h
  · exact .inr (.inr (.inl h))

theorem transmit_none {length : ℤ} {err : Option Err} {res : Except Err Unit}
    (h : transmit length l err = (none, res)) :
  ∃ e, res = .error e
  := by
  unfold transmit at h
  split at h
  · split at h <;> cases h
    exact ⟨_, rfl⟩
  · split at h <;> cases h
    exact ⟨_, rfl⟩

theorem transmit_ok {length : ℤ} {err : Option Err} {b : List UInt8}
    (h : transmit length l err = (some b, .ok ())) :
  err = none
  := by
  unfold transmit at h
  cases err with
  | none => rfl
  | some e =>
    split at h
    · split at h <;> cases h
    · cases h

theorem Faithful.append {before : List Sent} {out : List Sent × Except Err Unit}
    (hbefore : ∀ x ∈ before, x.Exact bytes) (h : Faithful bytes out) :
  Faithful bytes (before ++ out.1, out.2)
  := ⟨List.forall_mem_append.mpr ⟨hbefore, h.exact⟩,
    fun hnil => h.error (List.append_eq_nil_iff.mp hnil).2⟩

theorem Faithful.cons {x : Sent} {out : List Sent} {res : Except Err Unit} (hx : x.Exact bytes)
    (h : ∀ x ∈ out, x.Exact bytes) :
  Faithful bytes (x :: out, res)
  := ⟨List.forall_mem_cons.mpr ⟨hx, h⟩, fun hnil => absurd hnil (List.cons_ne_nil _ _)⟩

/-- A body that is read again for each request is sent faithfully, over all redirects. -/
theorem doLoop_faithful {p : Prepared} (hp : p.Holds r bytes) (hops : List Hop) {redirects late : ℕ}
    {got : List UInt8} {s : Stream} (hgot : got ⊆ bytes)
    (hcalm : (∃ start, p.body = .rewind start) → Calm r bytes hops late s.calls) :
  Faithful bytes (doLoop r p hops redirects got late s)
  := by
  induction hops generalizing redirects late got s with
  | nil => apply faithful_error
  | cons hop hops ih =>
    rw [doLoop]
    split
    · apply faithful_error
    rename_i t hget
    have hrewind : ∀ {start}, p.body = .rewind start →
        r.fault s.calls = none ∧ t = ⟨start, s.calls + 1⟩ := by
      intro start hbody
      unfold Body.get Reader.seek at hget
      cases hfault : r.fault s.calls <;> simp [hbody, hfault] at hget
      exact ⟨rfl, hget.symm⟩
    obtain ⟨hbefore, hshows, hsome⟩ := hp.readLate_exact hget hgot fun ⟨start, hbody⟩ =>
      (hcalm ⟨start, hbody⟩).late (hrewind hbody).1
    have hcalls : ∀ {start}, p.body = .rewind start →
        (p.readLate r got late t).2.calls = s.calls + 1 := by
      intro start hbody
      rw [(hrewind hbody).2]
      simp only [Prepared.readLate, hbody]
    generalize p.readLate r got late t = q at *
    obtain ⟨before, u⟩ := q
    dsimp only at *
    have hbefore' : ∀ e, Faithful bytes (before, .error e) := fun e => by
      simpa using Faithful.append hbefore (faithful_error bytes e)
    split
    · rename_i n late'
      split
      · apply hbefore'
      rename_i g v hread
      split
      · apply hbefore'
      refine Faithful.append hbefore (ih (hsome hread) fun ⟨start, hbody⟩ => ?_)
      have hcalls := hcalls hbody
      unfold Body.readSome Reader.readSome at hread
      cases hfault : r.fault u.calls <;> simp [hbody, hfault] at hread
      rw [← hread.2, hcalls]
      exact (hcalm ⟨start, hbody⟩).next (.inr ⟨n, rfl⟩) (hrewind hbody).1 (hcalls ▸ hfault)
    · generalize hread : p.body.read r u = q at *
      obtain ⟨b, err, v⟩ := q
      dsimp only at *
      split
      · rename_i res hsent
        obtain ⟨e, rfl⟩ := transmit_none hsent
        apply hbefore'
      · rename_i b' e hsent
        have hx := hp.transmit_exact hshows hsent
        exact Faithful.append hbefore (Faithful.cons hx (by simp))
      · rename_i b' _ hsent
        have hx := hp.transmit_exact hshows hsent
        have hlast : ∀ res, Faithful bytes (before ++ [⟨b', p.length, p.hash⟩], res) :=
          fun res => Faithful.append hbefore (Faithful.cons hx (by simp))
        split
        · split
          · apply hlast
          have hrest : Faithful bytes (doLoop r p hops (redirects + 1) [] 0 v) := by
            refine ih (List.nil_subset _) fun ⟨start, hbody⟩ => ?_
            have hcalls := hcalls hbody
            have herr := transmit_ok hsent
            unfold Body.read Reader.drain at hread
            cases hfault : r.fault u.calls <;> simp [hbody, hfault, herr] at hread
            rw [← hread.2, hcalls]
            exact (hcalm ⟨start, hbody⟩).next (.inl rfl) (hrewind hbody).1 (hcalls ▸ hfault)
          exact Faithful.append hbefore (Faithful.cons hx hrest.exact)
        · apply hlast
        · apply hlast
        · apply hlast

/-- What the request before has sent late. -/
theorem mem_doLoop_of_late {p : Prepared} {hop : Hop} {hops : List Hop} {redirects late : ℕ}
    {got : List UInt8} {s t : Stream} (hget : p.body.get r (redirects != 0) s = (.ok (), t))
    {x : Sent} (hx : x ∈ (p.readLate r got late t).1) :
  x ∈ (doLoop r p (hop :: hops) redirects got late s).1
  := by
  simp only [doLoop, hget]
  split
  · split
    · exact hx
    · split
      · exact hx
      · exact List.mem_append_left _ hx
  split
  · exact hx
  · exact List.mem_append_left _ hx
  · split
    · split
      · exact List.mem_append_left _ hx
      · exact List.mem_append_left _ hx
    · exact List.mem_append_left _ hx
    · exact List.mem_append_left _ hx
    · exact List.mem_append_left _ hx

theorem transmit_long {n : ℤ} (hpos : 0 < n) (h : n ≤ l.length) (err : Option Err) :
  ∃ res, transmit n l err = (some (l.take n.toNat), res)
  := by
  unfold transmit
  rw [if_pos hpos, if_neg (by omega)]
  exact ⟨_, rfl⟩

theorem transmit_self (l : List UInt8) :
  transmit l.length l none = (some l, .ok ())
  := by
  simp [transmit]

section Iff

variable (r : Reader) (bytes : List UInt8) (s : Stream) (late : Bool)

/-- The reader is streamed from here. -/
theorem once_iff (n : ℤ) :
  (∀ hops, late = true ∨ Settled hops →
      Faithful bytes (doLoop r ⟨.once, n, .unsignedPayload⟩ hops 0 [] 0 s))
    ↔ ∀ b res, transmit n (r.drain s).1 (r.drain s).2.1 = (some b, res) →
      Sent.Exact bytes ⟨b, n, .unsignedPayload⟩
  := by
  rcases hdrain : r.drain s with ⟨l, err, t⟩
  dsimp only
  constructor
  · intro h b res hsent
    refine (h [.final] (.inr (by simp [Settled]))).exact _ ?_
    simp only [doLoop, Body.get, bne_self_eq_false, Bool.false_eq_true, if_false,
      Prepared.readLate, Body.read, hdrain, hsent]
    cases res <;> simp
  · intro h hops _
    -- there is no second request
    have hused : ∀ hops got late' t,
        Faithful bytes (doLoop r ⟨.once, n, .unsignedPayload⟩ hops 1 got late' t) := by
      intro hops got late' t
      cases hops with
      | nil => apply faithful_error
      | cons hop hops =>
        rw [doLoop]
        apply faithful_error
    cases hops with
    | nil => apply faithful_error
    | cons hop hops =>
      have hone : ∀ {b res} res', transmit n l err = (some b, res) →
          Faithful bytes ([⟨b, n, .unsignedPayload⟩], res') :=
        fun _ hsent => Faithful.cons (h _ _ hsent) (by simp)
      rw [doLoop]
      simp only [Body.get, bne_self_eq_false, Bool.false_eq_true, if_false, Prepared.readLate,
        Body.read, Body.readSome, hdrain, List.nil_append]
      split
      · split
        · apply faithful_error
        · exact hused _ _ _ _
      split
      · rename_i res hsent
        obtain ⟨e, rfl⟩ := transmit_none hsent
        apply faithful_error
      · rename_i hsent
        exact hone _ hsent
      · rename_i hsent
        split
        · exact Faithful.cons (h _ _ hsent) (hused _ _ _ _).exact
        · exact hone _ hsent
        · exact hone _ hsent
        · exact hone _ hsent

/-- The reader is streamed, without a length. -/
theorem once_unknown_iff :
  (∀ hops, late = true ∨ Settled hops →
      Faithful bytes (sendBody r hops (.ok ⟨.once, -1, .unsignedPayload⟩, s)))
    ↔ r.Leaves bytes s
  := by
  simp only [sendBody]
  rw [once_iff, Reader.Leaves]
  unfold Reader.drain transmit
  cases hfault : r.fault s.calls with
  | some m => simp
  | none => simp [Sent.exact_iff]

/-- The reader is streamed, with a length. -/
theorem once_known_iff (n : ℤ) :
  (∀ hops, late = true ∨ Settled hops →
      Faithful (r.rest s.pos) (doLoop r ⟨.once, n, .unsignedPayload⟩ hops 0 [] 0 s))
    ↔ (0 < n → n < (r.rest s.pos).length → ∃ m : ℕ, r.fault s.calls = some m ∧ m < n)
  := by
  rw [once_iff]
  constructor
  · intro h hpos hlt
    rw [← Reader.length_drain_lt_iff hlt]
    by_contra hlong
    obtain ⟨res, hsent⟩ := transmit_long hpos (Int.not_lt.mp hlong) (r.drain s).2.1
    have := (h _ _ hsent).length_eq hpos
    dsimp only at this
    omega
  · intro h b res hsent
    have hpre := r.prefix_drain s
    unfold transmit at hsent
    split at hsent
    · rename_i hpos
      split at hsent <;> cases hsent
      rename_i hlong
      have hn : ¬ n < (r.rest s.pos).length :=
        fun hlt => hlong ((Reader.length_drain_lt_iff hlt).mpr (h hpos hlt))
      have hlen := hpre.length_le
      rw [hpre.eq_of_length_le (by omega), List.take_of_length_le (by omega)]
      exact ⟨rfl, fun _ => by dsimp only; omega, fun b hb => by cases hb⟩
    · rename_i hpos
      split at hsent <;> cases hsent
      rename_i hnone
      rw [Reader.drain_eq_rest hnone]
      exact ⟨rfl, fun hpos' => absurd hpos' hpos, fun b hb => by cases hb⟩

/-- The reader is read into a buffer from here. -/
theorem bufferAll_iff :
  (∀ hops, late = true ∨ Settled hops → Faithful bytes (sendBody r hops (bufferAll r s)))
    ↔ r.Leaves bytes s
  := by
  unfold bufferAll Reader.readAll Reader.Leaves
  cases hfault : r.fault s.calls with
  | some m =>
    simp only [Option.isSome_some, or_true, iff_true]
    intro hops _
    apply faithful_error
  | none =>
    simp only [Option.isSome_none, Bool.false_eq_true, or_false]
    constructor
    · intro h
      have hexact := (h [.final] (.inr (by simp [Settled]))).exact
      simp only [sendBody, doLoop, Body.get, Prepared.readLate, Body.read, transmit_self] at hexact
      exact (hexact _ (List.mem_singleton_self _)).bytes_eq
    · rintro rfl hops -
      exact doLoop_faithful ⟨rfl, rfl, .inl rfl⟩ hops (List.nil_subset _) (by simp)

theorem uniform_of_take {a : UInt8} {l : List UInt8} (h : (a :: l).take l.length = l) :
  Uniform (a :: l)
  := by
  have hall : ∀ x ∈ a :: l, x = a := by
    induction l generalizing a with
    | nil => simp
    | cons b l ih =>
      rw [List.length_cons, List.take_succ_cons, List.cons.injEq] at h
      obtain ⟨rfl, h⟩ := h
      simpa using ih h
  exact fun x hx y hy => (hall x hx).trans (hall y hy).symm

/-- The reader is rewound for each request. -/
theorem rewind_iff (start : ℕ) :
  (∀ hops, late = true ∨ Settled hops → Faithful (r.rest start) (doLoop r
      ⟨.rewind start, (r.rest start).length, .sha256 (r.rest start)⟩ hops 0 [] 0 s))
    ↔ (late = true → r.fault s.calls = none → r.fault (s.calls + 1) = none →
      r.fault (s.calls + 2) = none → Uniform (r.rest start))
  := by
  constructor
  · intro h hlate h₀ h₁ h₂
    cases hrest : r.rest start with
    | nil => simp [Uniform]
    | cons a l =>
      cases l with
      | nil => simp [Uniform]
      | cons b l =>
        -- the first request goes on reading where the second begins
        have hexact := (h [.early 1 (l.length + 1), .final] (.inl hlate)).exact
          ⟨a :: (a :: b :: l).take (l.length + 1), (r.rest start).length,
            .sha256 (r.rest start)⟩ (by
            rw [doLoop]
            simp only [Body.get, Reader.seek, h₀, Prepared.readLate, Body.readSome,
              Reader.readSome, h₁, Nat.lt_irrefl, false_and, if_false, Nat.zero_min, Nat.add_zero]
            rw [if_neg (by decide)]
            refine List.mem_append_right _ (mem_doLoop_of_late (t := ⟨start, s.calls + 3⟩) ?_ ?_)
            · simp [Body.get, Reader.seek, h₂]
            · have hlen : ((l.length : ℤ) + 1 + 1).toNat = l.length + 1 + 1 := by omega
              simp [Prepared.readLate, hrest, hlen, List.take_take]
              omega)
        apply uniform_of_take
        rw [hrest] at hexact
        exact (List.cons.inj hexact.bytes_eq).2
  · intro h hops hlate
    refine doLoop_faithful ⟨rfl, rfl, .inr ⟨start, rfl, rfl⟩⟩ hops (List.nil_subset _) fun _ => ?_
    rcases hlate with hlate | hsettled
    · have := h hlate
      by_cases huniform : Uniform (r.rest start)
      · exact .inr (.inl huniform)
      · refine .inr (.inr ?_)
        simp only [Option.isSome_iff_ne_none, true_and]
        tauto
    · exact .inl ⟨rfl, hsettled⟩

end Iff

/-- A seek that fails has left the reader where its bytes are, or it cannot be read any more. -/
def StaysAt (r : Reader) (bytes : List UInt8) (call : ℕ) : Prop :=
  ∀ pos, r.fault call = some pos → r.Leaves bytes ⟨pos, call + 1⟩

/-- What an upload needs of its reader and of its options.  With a signed payload, a reader that can
seek must not have moved when the first seek fails, and must have come back when the one that
rewinds it fails; and no request may go on reading when the next one rewinds it, as it may if
`late`, unless that makes no difference.  With an unsigned payload the length that is given must not
be too small, or none of the seeks that measure the reader may have moved it when it fails. -/
def Sound (late unsigned : Bool) (known : Option ℤ) (r : Reader) (s : Stream) : Prop :=
  let bytes := r.rest s.pos
  let call := s.calls
  match unsigned, known with
  | true, some n => 0 < n → n < bytes.length → ∃ m : ℕ, r.fault call = some m ∧ m < n
  | true, none => r.seekable = true →
      StaysAt r bytes call
        ∧ (r.fault call = none → StaysAt r bytes (call + 1)
          ∧ (r.fault (call + 1) = none → StaysAt r bytes (call + 2)))
  | false, _ => r.seekable = true →
      StaysAt r bytes call
        ∧ (r.fault call = none → r.fault (call + 1) = none → StaysAt r bytes (call + 2)
          ∧ (r.fault (call + 2) = none → late = true → r.fault (call + 3) = none →
            r.fault (call + 4) = none → r.fault (call + 5) = none → Uniform bytes))

theorem staysAt_some {call pos : ℕ} (h : r.fault call = some pos) :
  StaysAt r bytes call ↔ r.Leaves bytes ⟨pos, call + 1⟩
  := by
  constructor
  · exact fun hstays => hstays pos h
  · intro hleaves pos' hpos'
    cases h.symm.trans hpos'
    exact hleaves

theorem staysAt_none {call : ℕ} (h : r.fault call = none) :
  StaysAt r bytes call
  := by
  intro pos hpos
  simp [h] at hpos

section Upload

variable (late unsigned : Bool) (known : Option ℤ) (r : Reader) (s : Stream)

/-- The reader is measured and then streamed. -/
theorem upload_measured_iff (hseek : r.seekable = true) :
  (∀ hops, late = true ∨ Settled hops → Faithful (r.rest s.pos) (upload true none r s hops))
    ↔ Sound late true none r s
  := by
  simp only [upload, bodyFromReader, Sound, hseek, if_true, true_imp_iff, seekableLength,
    Reader.seek]
  cases h₀ : r.fault s.calls with
  | some pos =>
    simp only [reduceCtorEq, false_imp_iff, and_true]
    rw [staysAt_some h₀]
    exact once_unknown_iff r _ _ late
  | none =>
    simp only [true_imp_iff, staysAt_none h₀, true_and]
    cases h₁ : r.fault (s.calls + 1) with
    | some pos =>
      simp only [reduceCtorEq, false_imp_iff, and_true]
      rw [staysAt_some h₁]
      exact once_unknown_iff r _ _ late
    | none =>
      simp only [true_imp_iff, staysAt_none h₁, true_and]
      cases h₂ : r.fault (s.calls + 1 + 1) with
      | some pos =>
        rw [staysAt_some h₂]
        exact once_unknown_iff r _ _ late
      | none =>
        simp only [staysAt_none h₂, iff_true]
        simp only [sendBody]
        refine (once_known_iff r ⟨s.pos, s.calls + 1 + 1 + 1⟩ late
          (r.data.length - s.pos)).mpr fun hpos hlt => ?_
        rw [Reader.rest, List.length_drop] at hlt
        dsimp only at hlt
        omega

/-- The reader is hashed and then rewound. -/
theorem upload_signed_iff (hseek : r.seekable = true) :
  (∀ hops, late = true ∨ Settled hops → Faithful (r.rest s.pos) (upload false known r s hops))
    ↔ Sound late false known r s
  := by
  simp only [upload, bodyFromReader, Sound, hseek, Bool.false_eq_true, if_false, if_true,
    true_imp_iff, Reader.seek]
  cases h₀ : r.fault s.calls with
  | some pos =>
    simp only [reduceCtorEq, false_imp_iff, and_true]
    rw [staysAt_some h₀]
    exact bufferAll_iff r _ _ late
  | none =>
    simp only [true_imp_iff, staysAt_none h₀, true_and, Reader.readAll]
    cases h₁ : r.fault (s.calls + 1) with
    | some m =>
      simp only [reduceCtorEq, false_imp_iff, iff_true]
      exact fun hops _ => faithful_error _ _
    | none =>
      simp only [true_imp_iff]
      cases h₂ : r.fault (s.calls + 1 + 1) with
      | some pos =>
        rw [staysAt_some h₂]
        simp only [reduceCtorEq, false_imp_iff, and_true]
        exact bufferAll_iff r _ _ late
      | none =>
        simp only [staysAt_none h₂, true_and, true_imp_iff]
        exact rewind_iff r _ late s.pos

/-- An upload is faithful over all redirects, if and only if it is sound. -/
theorem upload_faithful_iff :
  (∀ hops, late = true ∨ Settled hops → Faithful (r.rest s.pos) (upload unsigned known r s hops))
    ↔ Sound late unsigned known r s
  := by
  have hleaves : r.Leaves (r.rest s.pos) s := .inl rfl
  cases unsigned with
  | false =>
    cases hseek : r.seekable with
    | true => exact upload_signed_iff late known r s hseek
    | false =>
      simpa [upload, bodyFromReader, Sound, hseek] using (bufferAll_iff r _ s late).mpr hleaves
  | true =>
    cases known with
    | some n => exact once_known_iff r s late n
    | none =>
      cases hseek : r.seekable with
      | true => exact upload_measured_iff late r s hseek
      | false =>
        simpa [upload, bodyFromReader, Sound, hseek]
          using (once_unknown_iff r _ s late).mpr hleaves

end Upload

/-- `Put` and `UploadPart` send what is left in the reader, its length and its hash, or return an
error, if and only if the part number is refused or the upload is sound; this is so for all servers,
and for those with which no request is still reading when the next one begins. -/
theorem run_faithful_iff (op : Op) (late unsigned : Bool) (known : Option ℤ) (r : Reader)
    (s : Stream) :
  (∀ hops, late = true ∨ Settled hops →
      Faithful (r.rest s.pos) (op.run unsigned known r s hops))
    ↔ (∃ n, op = .uploadPart n ∧ (n < minPartNumber ∨ maxPartNumber < n))
      ∨ Sound late unsigned known r s
  := by
  rw [← upload_faithful_iff]
  cases op with
  | put => simp [Op.run]
  | uploadPart n =>
    simp only [Op.run, Op.uploadPart.injEq, exists_eq_left']
    by_cases hn : n < minPartNumber ∨ maxPartNumber < n
    · simp [hn, faithful_error]
    · simp [hn]

/-- Three bytes, in a reader whose third call fails: the seek that rewinds it, at its end. -/
def stuck : Reader where
  data := [1, 2, 3]
  seekable := true
  fault call := if call = 2 then some 3 else none

/-- An empty body is sent under the hash of the empty body, and `Put` returns no error.  And where
no call fails, a request that has read a byte when it is redirected may read on from the start. -/
theorem put_stuck_sends_nothing :
  Op.put.run false none stuck ⟨0, 0⟩ [.final] = ([⟨[], 0, .sha256 []⟩], .ok ())
    ∧ stuck.rest 0 = [1, 2, 3]
    ∧ Op.put.run false none ⟨[1, 2, 3], true, fun _ => none⟩ ⟨0, 0⟩ [.early 1 2, .final]
      = ([⟨[1, 1, 2], 3, .sha256 [1, 2, 3]⟩], .error .http)
  := ⟨rfl, rfl, rfl⟩

end S3
