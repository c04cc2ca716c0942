import TinyGoDriver.Go.Bufio
import TinyGoDriver.HttpServer.Upgrade

/-!
# Dispatching a connection

`dispatch` reads a connection until it has seen CRLFCRLF.  Then it hands the connection to
`net/http`, with what it has read put back in front, or calls the handler itself, with a
request parsed from what it has read and a reader that starts behind it.

Where the head ends is decided twice: by the first CRLFCRLF, which says how much has to be read
and whether the client sent too much, and by `http.ReadRequest`, which stops at the first empty
line, after whatever line end.  If the two disagree, what lies between them is in neither the
request nor the reader.
-/

namespace HttpServer

open GoRt Search List

/-! ### Reading the head -/

inductive HeadErr where
  /-- `errHeadTooLarge` -/
  | tooLarge
  /-- an error of the connection -/
  | read (err : ReadErr)
  deriving DecidableEq, Repr

/-- The loop of `readHead`, with `buf` read into a buffer of `cap` bytes. -/
def readHeadLoop (maxHead : ℕ) :
    ℕ → List UInt8 → ℕ → Source → Go HeadErr (List UInt8 × Source)
  | 0, _, _, _ => .error .diverge
  | fuel + 1, buf, cap, conn =>
    let cap := if buf.length = cap then 2 * cap else cap
    let (p, err, conn) := conn.read (cap - buf.length)
    -- only the new bytes and the three before them are searched
    let start := buf.length - (headTerminator.length - 1)
    let buf := buf ++ p
    if p ≠ [] ∧ (index headTerminator (buf.drop start)).isSome then .ok (buf, conn)
    else if p ≠ [] ∧ maxHead < buf.length then .error (.fail .tooLarge)
    else
      match err with
      | some err => .error (.fail (.read err))
      | none => readHeadLoop maxHead fuel buf cap conn

/-- `readHead`: what has been read, and the connection behind it.  A round reads something or
ends the loop. -/
def readHead (maxHead : ℕ) (conn : Source) : Go HeadErr (List UInt8 × Source) :=
  readHeadLoop maxHead (conn.bytes.length + 1) [] 1024 conn

/-- What `readHead` returns on a stream: all up to the read that completed a CRLFCRLF, which was
not longer than the pieces the stream came in. -/
structure Head (stream : List UInt8) (pieces : List (List UInt8)) (head : List UInt8)
    (rest : Source) : Prop where
  stream_eq : head ++ rest.bytes = stream
  found : (index headTerminator head).isSome
  lastRead : ∃ before last, head = before ++ last ∧ index headTerminator before = none
    ∧ ∀ k, (∀ p ∈ pieces, p.length ≤ k) → last.length ≤ k

/-- Reading does not make the pieces longer. -/
theorem length_read_le {s : Source} {n k : ℕ} (h : ∀ p ∈ s.pieces, p.length ≤ k) :
  (s.read n).1.length ≤ k ∧ ∀ p ∈ (s.read n).2.2.pieces, p.length ≤ k
  := by
  rw [Source.read]
  split
  · exact ⟨Nat.zero_le k, h⟩
  rename_i p ps hps
  rw [hps] at h
  have hp := h p mem_cons_self
  split
  · exact ⟨hp, fun q hq => h q (mem_cons_of_mem p hq)⟩
  refine ⟨by simp; omega, fun q hq => ?_⟩
  rcases mem_cons.mp hq with rfl | hq
  · rw [length_drop]
    omega
  · exact h q (mem_cons_of_mem p hq)

variable {conn : Source} {head : List UInt8} {req : Request}

theorem readHeadLoop_spec {maxHead fuel cap : ℕ} {buf : List UInt8}
    (hfuel : conn.bytes.length < fuel) (hcap : 0 < cap) (hbuf : buf.length ≤ cap)
    (hnone : index headTerminator buf = none) :
  (∃ head rest, readHeadLoop maxHead fuel buf cap conn = .ok (head, rest)
      ∧ Head (buf ++ conn.bytes) conn.pieces head rest)
    ∨ (∃ err, readHeadLoop maxHead fuel buf cap conn = .error (.fail err))
      ∧ (maxHead < (buf ++ conn.bytes).length ∨ index headTerminator (buf ++ conn.bytes) = none)
  := by
  induction fuel generalizing buf cap conn with
  | zero => omega
  | succ fuel ih =>
    rw [readHeadLoop]
    generalize hcap' : (if buf.length = cap then 2 * cap else cap) = cap'
    have hroom : 0 < cap' - buf.length := by
      split at hcap' <;> omega
    obtain ⟨hsplit, hlen, hprog⟩ := conn.read_spec hroom
    have hpieces := fun k => @length_read_le conn (cap' - buf.length) k
    generalize conn.read (cap' - buf.length) = r at hsplit hlen hprog hpieces ⊢
    obtain ⟨p, err, conn'⟩ := r
    dsimp only at hsplit hlen hprog hpieces ⊢
    have hstream : (buf ++ p) ++ conn'.bytes = buf ++ conn.bytes := by
      rw [append_assoc, hsplit]
    have hsearch := index_append_isSome_iff p hnone
    split
    · rename_i hfound
      left
      refine ⟨buf ++ p, conn', rfl, hstream, hsearch.mpr hfound.2, buf, p, rfl, hnone, ?_⟩
      exact fun k hk => (hpieces k hk).1
    rename_i hfound
    have hnone' : index headTerminator (buf ++ p) = none := by
      by_cases hp : p = []
      · rwa [hp, append_nil]
      · rw [← Option.not_isSome_iff_eq_none, hsearch]
        exact fun h => hfound ⟨hp, h⟩
    split
    · right
      refine ⟨⟨_, rfl⟩, .inl ?_⟩
      rw [← hstream, length_append]
      omega
    rcases hprog with ⟨rfl, hp⟩ | ⟨rfl, hend⟩
    · have hless : conn'.bytes.length < fuel := by
        have := length_pos_iff.mpr hp
        rw [← hsplit, length_append] at hfuel
        omega
      have hfit : (buf ++ p).length ≤ cap' := by
        rw [length_append]
        omega
      rcases ih hless (by omega) hfit hnone' with ⟨head, rest, hok, hhead⟩ | herr
      · left
        obtain ⟨before, last, heq, hbefore, hlast⟩ := hhead.lastRead
        refine ⟨head, rest, hok, by rw [hhead.stream_eq, hstream], hhead.found, before,
          last, heq, hbefore, ?_⟩
        exact fun k hk => hlast k (hpieces k hk).2
      · right
        rwa [hstream] at herr
    · right
      refine ⟨⟨_, rfl⟩, .inr ?_⟩
      rwa [← hstream, hend, append_nil]

/-- `readHead` returns: the head, or an error if the stream is too long or has no CRLFCRLF. -/
theorem readHead_spec (maxHead : ℕ) (conn : Source) :
  (∃ head rest, readHead maxHead conn = .ok (head, rest) ∧ Head conn.bytes conn.pieces head rest)
    ∨ (∃ err, readHead maxHead conn = .error (.fail err))
      ∧ (maxHead < conn.bytes.length ∨ index headTerminator conn.bytes = none)
  := by
  have hnone : index headTerminator [] = none := rfl
  exact readHeadLoop_spec (Nat.lt_succ_self _) (by decide) (by decide) hnone

/-! ### The connection that `net/http` gets -/

structure ReplayConn where
  conn : Source
  head : List UInt8

namespace ReplayConn

/-- `Read(p)` where `p` has the length `n`. -/
def read (c : ReplayConn) (n : ℕ) : List UInt8 × Option ReadErr × ReplayConn :=
  if c.head ≠ [] then (c.head.take n, none, { c with head := c.head.drop n })
  else
    let (p, err, conn) := c.conn.read n
    (p, err, { c with conn := conn })

/-- What the connection has left to read. -/
def bytes (c : ReplayConn) : List UInt8 := c.head ++ c.conn.bytes

/-- What calls of `Read` with buffers of the given sizes return. -/
def reads (c : ReplayConn) : List ℕ → List (List UInt8) × ReplayConn
  | [] => ([], c)
  | n :: sizes =>
    let (p, _, c) := c.read n
    let (ps, c) := c.reads sizes
    (p :: ps, c)

theorem reads_cons (c : ReplayConn) (n : ℕ) (sizes : List ℕ) :
  c.reads (n :: sizes) =
    ((c.read n).1 :: ((c.read n).2.2.reads sizes).1, ((c.read n).2.2.reads sizes).2)
  := rfl

theorem read_spec (c : ReplayConn) {n : ℕ} (hn : 0 < n) :
  (c.read n).1 ++ (c.read n).2.2.bytes = c.bytes
    ∧ ((c.read n).1 ≠ [] ∨ (c.read n).2.2.bytes = [])
  := by
  rw [read]
  split
  · rename_i hhead
    refine ⟨by simp [bytes, ← append_assoc], .inl ?_⟩
    simp only [ne_eq, take_eq_nil_iff, hhead, or_false]
    omega
  rename_i hhead
  obtain ⟨hsplit, -, hprog⟩ := c.conn.read_spec hn
  have hhead' : c.head = [] := not_not.mp hhead
  refine ⟨by simpa [bytes, hhead'] using hsplit, ?_⟩
  rcases hprog with ⟨-, hp⟩ | ⟨-, hend⟩
  · exact .inl hp
  · exact .inr (by simpa [bytes, hhead'] using hend)

theorem reads_spec (c : ReplayConn) {sizes : List ℕ} (hsizes : ∀ n ∈ sizes, 0 < n) :
  (c.reads sizes).1.flatten ++ (c.reads sizes).2.bytes = c.bytes
    ∧ (sizes.length ≤ (c.reads sizes).1.flatten.length ∨ (c.reads sizes).2.bytes = [])
  := by
  induction sizes generalizing c with
  | nil => simp [reads]
  | cons n sizes ih =>
    obtain ⟨hread, hprog⟩ := c.read_spec (hsizes n mem_cons_self)
    obtain ⟨hreads, hrest⟩ := ih (c.read n).2.2 fun m hm => hsizes m (mem_cons_of_mem n hm)
    rw [reads_cons]
    refine ⟨by simp only [flatten_cons, append_assoc, hreads, hread], ?_⟩
    rcases hrest with hlong | hend
    · rcases hprog with hp | hend
      · left
        have := length_pos_iff.mpr hp
        simp only [flatten_cons, length_append, length_cons]
        omega
      · right
        rw [hend] at hreads
        exact (append_eq_nil_iff.mp hreads).2
    · exact .inr hend

end ReplayConn

/-- Whoever reads from the connection reads the stream from its first byte, and all of it if they
go on. -/
def Delivers (stream : List UInt8) (c : ReplayConn) : Prop :=
  ∀ sizes : List ℕ, (∀ n ∈ sizes, 0 < n) →
    (c.reads sizes).1.flatten <+: stream
      ∧ (stream.length ≤ sizes.length → (c.reads sizes).1.flatten = stream)

theorem ReplayConn.delivers (c : ReplayConn) :
  Delivers c.bytes c
  := by
  intro sizes hsizes
  obtain ⟨hsplit, hprog⟩ := c.reads_spec hsizes
  refine ⟨⟨_, hsplit⟩, fun hlong => ?_⟩
  rcases hprog with hlength | hend
  · have hrest : (c.reads sizes).2.bytes = [] := by
      rw [← hsplit, length_append] at hlong
      exact length_eq_zero_iff.mp (by omega)
    rw [← hsplit, hrest, append_nil]
  · rw [← hsplit, hend, append_nil]

/-! ### Dispatching -/

/-- What of a `Config` `dispatch` looks at.  `resolve` sets `defaultBypass` when it puts
`isUpgrade` in place of a predicate that was not given. -/
structure Config where
  shouldBypass : Request → Bool
  defaultBypass : Bool

/-- What becomes of a connection. -/
inductive Outcome where
  /-- closed, without an answer -/
  | closed
  /-- offered to the listener of `net/http` -/
  | offered (conn : ReplayConn)
  /-- answered with 400 and closed -/
  | refused
  /-- given to the handler, with the request and the reader it gets by hijacking -/
  | served (req : Request) (br : Bufio)

/-- The bypass path, once the request has been parsed. -/
def bypass (head : List UInt8) (conn : Source) (req : Request) : Outcome :=
  match index headTerminator head with
  | some idx =>
    if idx + headTerminator.length < head.length then .refused
    else .served req (Bufio.newReaderSize conn 4096)
  | none => .served req (Bufio.newReaderSize conn 4096)

/-- What `dispatch` does once the head has been read. -/
def route (lib : Library) (cfg : Config) (head : List UInt8) (conn : Source) : Outcome :=
  if cfg.defaultBypass then
    if rawHeadHasUpgrade head then
      match readRequest lib head with
      | some req => bypass head conn req
      | none => .closed
    else .offered ⟨conn, head⟩
  else
    match readRequest lib head with
    | some req => if cfg.shouldBypass req then bypass head conn req else .offered ⟨conn, head⟩
    | none => .closed

def dispatch (lib : Library) (cfg : Config) (maxHead : ℕ) (conn : Source) : Go Empty Outcome :=
  match readHead maxHead conn with
  | .ok (head, conn) => .ok (route lib cfg head conn)
  | .error (.fail _) => .ok .closed
  | .error .panic => .error .panic
  | .error .diverge => .error .diverge
  | .error .stray => .error .stray

/-- Whether the request parsed from a head takes the bypass path. -/
def bypasses (cfg : Config) (head : List UInt8) (req : Request) : Bool :=
  if cfg.defaultBypass then rawHeadHasUpgrade head else cfg.shouldBypass req

theorem route_of_bypasses {lib : Library} {cfg : Config} (hreq : readRequest lib head = some req)
    (hbypass : bypasses cfg head req = true) :
  route lib cfg head conn = bypass head conn req
  := by
  rw [bypasses] at hbypass
  rw [route]
  split
  · rename_i hdefault
    rw [if_pos hdefault] at hbypass
    rw [if_pos hbypass, hreq]
  · rename_i hdefault
    rw [if_neg hdefault] at hbypass
    simp only [hreq, hbypass, if_true]

/-- The ways to go, and what takes them. -/
theorem route_cases (lib : Library) (cfg : Config) (head : List UInt8) (conn : Source) :
  route lib cfg head conn = .closed ∨ route lib cfg head conn = .offered ⟨conn, head⟩
    ∨ ∃ req, readRequest lib head = some req ∧ bypasses cfg head req = true
      ∧ route lib cfg head conn = bypass head conn req
  := by
  cases hreq : readRequest lib head with
  | some req =>
    by_cases hbypass : bypasses cfg head req = true
    · exact .inr (.inr ⟨req, rfl, hbypass, route_of_bypasses hreq hbypass⟩)
    right
    left
    rw [bypasses] at hbypass
    rw [route]
    split
    · rename_i hdefault
      rw [if_pos hdefault] at hbypass
      rw [if_neg hbypass]
    · rename_i hdefault
      rw [if_neg hdefault] at hbypass
      simp only [hreq, hbypass]
      rfl
  | none =>
    rw [route, hreq]
    split
    · split
      · exact .inl rfl
      · exact .inr (.inl rfl)
    · exact .inl rfl

/-- No byte of the stream is lost: `net/http` reads it from its first byte; or the reader of the
handler has all that comes after the head, as `http.ReadRequest` delimits it; or the request has
been refused; or there is no request. -/
def Keeps (stream : List UInt8) : Outcome → Prop
  | .closed => True
  | .offered conn => Delivers stream conn
  | .refused => True
  | .served _ br => headRest stream = some br.pending

/-- The bytes of a stream, one at a time. -/
def bytewise (stream : List UInt8) : Source :=
  { pieces := stream.map fun b => [b]
    pieces_ne_nil := by simp
    eager := false }

theorem bytes_bytewise (stream : List UInt8) :
  (bytewise stream).bytes = stream
  := by
  rw [Source.bytes, bytewise]
  induction stream with
  | nil => rfl
  | cons b stream ih => simp [ih]

variable {pieces : List (List UInt8)} {stream head : List UInt8} {rest : Source}

/-- The first CRLFCRLF of what has been read is that of the stream. -/
theorem Head.exists_index (h : Head stream pieces head rest) :
  ∃ i, index headTerminator head = some i ∧ index headTerminator stream = some i
  := by
  obtain ⟨i, hi⟩ := Option.isSome_iff_exists.mp h.found
  refine ⟨i, hi, ?_⟩
  rw [← h.stream_eq]
  apply index_append hi

/-- Read byte by byte, a head ends with its CRLFCRLF. -/
theorem Head.length_eq {i : ℕ} (h : Head stream pieces head rest)
    (hpieces : ∀ p ∈ pieces, p.length ≤ 1) (hi : index headTerminator head = some i) :
  head.length = i + headTerminator.length
  := by
  obtain ⟨before, last, rfl, hbefore, hlast⟩ := h.lastRead
  have hle := index_add_length_le hi
  have hone := hlast 1 hpieces
  by_contra hne
  rw [length_append] at hle hne
  -- the CRLFCRLF would have been complete before the last byte
  obtain ⟨-, hocc, -⟩ := index_eq_some_iff.mp hi
  apply index_eq_none_iff.mp hbefore i (by omega)
  rw [drop_append_of_le_length (by omega)] at hocc
  apply prefix_of_prefix_length_le hocc (prefix_append _ _)
  rw [length_drop]
  omega

/-- What has been read if it ends with the CRLFCRLF, and what is left. -/
theorem Head.eq_take {n : ℕ} (h : Head stream pieces head rest) (hn : head.length = n) :
  stream.take n = head ∧ stream.drop n = rest.bytes
  := by
  rw [← h.stream_eq, ← hn]
  exact ⟨take_left, drop_left⟩

theorem bypass_eq_served {i : ℕ} (hi : index headTerminator head = some i)
    (hlength : ¬ i + headTerminator.length < head.length) :
  bypass head conn req = .served req (Bufio.newReaderSize conn 4096)
  := by
  rw [bypass, hi]
  simp only [hlength, if_false]

/-- For a stream and a configuration, nothing is lost in any chunking and with any limit, if and
only if, where the bytes up to the first CRLFCRLF are a request that takes the bypass path,
`http.ReadRequest` finds the end of the head there as well. -/
theorem dispatch_keeps_iff (lib : Library) (cfg : Config) (stream : List UInt8) :
  (∀ maxHead conn, conn.bytes = stream →
      ∃ out, dispatch lib cfg maxHead conn = .ok out ∧ Keeps stream out)
    ↔ ∀ i req, index headTerminator stream = some i →
      readRequest lib (stream.take (i + headTerminator.length)) = some req →
      bypasses cfg (stream.take (i + headTerminator.length)) req = true →
      headRest stream = some (stream.drop (i + headTerminator.length))
  := by
  constructor
  · intro hkeeps i req hi hreq hbypass
    have hbytes := bytes_bytewise stream
    obtain ⟨out, hout, hkeep⟩ := hkeeps stream.length (bytewise stream) hbytes
    rcases readHead_spec stream.length (bytewise stream) with
      ⟨head, rest, hread, hhead⟩ | ⟨-, hlong | hnone⟩
    · rw [hbytes] at hhead
      obtain ⟨j, hj, hj'⟩ := hhead.exists_index
      cases hi.symm.trans hj'
      have hlength := hhead.length_eq (by simp [bytewise]) hj
      obtain ⟨htake, hdrop⟩ := hhead.eq_take hlength
      rw [htake] at hreq hbypass
      rw [dispatch, hread] at hout
      cases hout
      rw [route_of_bypasses hreq hbypass, bypass_eq_served hj (by omega)] at hkeep
      rw [hdrop]
      exact hkeep
    · rw [hbytes] at hlong
      omega
    · rw [hbytes, hi] at hnone
      cases hnone
  · intro hcond maxHead conn hconn
    subst hconn
    rcases readHead_spec maxHead conn with ⟨head, rest, hread, hhead⟩ | ⟨⟨err, hread⟩, -⟩
    · refine ⟨route lib cfg head rest, by rw [dispatch, hread], ?_⟩
      rcases route_cases lib cfg head rest with hroute | hroute | ⟨req, hreq, hbypass, hroute⟩
      · rw [hroute]
        trivial
      · rw [hroute, ← hhead.stream_eq]
        exact ReplayConn.delivers ⟨rest, head⟩
      obtain ⟨i, hi, hi'⟩ := hhead.exists_index
      rw [hroute]
      by_cases hmore : i + headTerminator.length < head.length
      · rw [bypass, hi]
        simp only [hmore, if_true]
        trivial
      have hlength : head.length = i + headTerminator.length := by
        have := index_add_length_le hi
        omega
      obtain ⟨htake, hdrop⟩ := hhead.eq_take hlength
      have hrest := hcond i req hi' (by rwa [htake]) (by rwa [htake])
      rw [bypass_eq_served hi hmore, Keeps, Bufio.pending_newReaderSize, hrest, hdrop]
    · exact ⟨.closed, by rw [dispatch, hread], trivial⟩

/-- The configuration of `Serve`. -/
def defaultConfig : Config := ⟨isUpgrade, true⟩

/-- A request for an upgrade whose lines end in LF, followed by more. -/
def bareHead : List UInt8 :=
  ascii "GET / HTTP/1.1\nConnection: upgrade\n\n"

def earlyData : List UInt8 := ascii "EARLY\r\n\r\n"

/-- The handler gets the request and a reader with nothing in it.  The data that follows the head
is gone. -/
theorem dispatch_drops_earlyData :
  ∃ conn req br, conn.bytes = bareHead ++ earlyData ∧
    dispatch lenient defaultConfig 1000000 conn = .ok (.served req br) ∧
    headRest (bareHead ++ earlyData) = some earlyData ∧ br.pending = []
  := ⟨⟨[bareHead ++ earlyData], by decide, false⟩,
    ⟨ascii "GET / HTTP/1.1", [⟨ascii "Connection", ascii "upgrade"⟩]⟩,
    Bufio.newReaderSize ⟨[], by simp, false⟩ 4096, rfl, rfl, rfl, rfl⟩

end HttpServer
