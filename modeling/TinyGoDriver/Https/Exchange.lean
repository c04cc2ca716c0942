import TinyGoDriver.Https.Response

/-!
# A request on its connection

What a call of `roundTrip`, and later the body of the response, does with the connection that
it holds: the request is sent, the head of the response is read (`exchange`), the caller reads
the body (`poolBody.Read`) and closes it (`poolBody.Close`), which drains what is left and asks
whether the connection can be used again (`recycle`).  The stages of this are cut where other
goroutines can come in between.

Everything that can fail at the connection may fail at any time: a write, a read, setting a
deadline.  How much of what the server has sent arrives by a read is also open.  The number of
response bytes read, which decides on a retry, is kept as whether there have been any.

`rc.Close` of a body that has not come to its end reads on.  The connection is closed after it,
so the model lets it read nothing.
-/

namespace Https

/-! ### Settings -/

/-- The fields of a `Transport` that govern connection reuse. -/
structure Transport where
  DisableKeepAlives : Bool
  MaxIdleConnsPerHost : ℤ
  /-- in nanoseconds -/
  IdleConnTimeout : ℤ
  deriving DecidableEq, Repr

def defaultTransport : Transport :=
  { DisableKeepAlives := false, MaxIdleConnsPerHost := 0, IdleConnTimeout := 0 }

def Transport.maxIdleConnsPerHost (t : Transport) : ℤ :=
  if t.MaxIdleConnsPerHost ≤ 0 then 2 else t.MaxIdleConnsPerHost

def Transport.idleConnTimeout (t : Transport) : ℤ :=
  if t.IdleConnTimeout ≤ 0 then 20000000000 else t.IdleConnTimeout

def maxDrainBytes : ℕ := 4096

def maxDrainReads : ℕ := 64

/-! ### Connections and requests -/

/-- A `persistConn`, with what goes on at the far end of it. -/
structure Conn where
  key : String
  idleSince : ℤ
  broken : Bool
  /-- `nread` is positive -/
  touched : Bool
  /-- what stands in the `bufio.Reader` -/
  buf : List Token
  /-- what the server has sent and has not been read -/
  wire : List Token
  /-- the server has closed the connection -/
  peerClosed : Bool
  /-- the request that the server has still to answer -/
  owed : Option ℕ
  deriving DecidableEq, Repr

def newPersistConn (key : String) : Conn :=
  { key := key, idleSince := 0, broken := false, touched := false, buf := [], wire := [],
    peerClosed := false, owed := none }

/-- All that is there to be read. -/
def Conn.stream (c : Conn) : List Token := c.buf ++ c.wire

/-- `persistConn.close`. -/
def Conn.close (c : Conn) : Conn := { c with broken := true }

/-- What `roundTrip` reads of an `http.Request`. -/
structure Req where
  /-- its `connKey` -/
  key : String
  method : List Char
  /-- it has a `Body` -/
  body : Bool
  /-- it has a `GetBody` -/
  getBody : Bool
  /-- its context can be cancelled, or it has a `Cancel` channel -/
  watched : Bool
  close : Bool
  deriving DecidableEq, Repr

def Req.replayable (req : Req) : Bool := !req.body || req.getBody

inductive Watch where
  /-- in its `select` -/
  | waiting
  /-- returned, having closed nothing -/
  | exited
  /-- returned, having closed the connection -/
  | closed
  deriving DecidableEq, Repr

/-- The goroutine that `watchCancel` starts. -/
structure Watcher where
  pc : ℕ
  /-- the channel `done` is closed -/
  done : Bool
  status : Watch
  deriving DecidableEq, Repr

/-- A call of `roundTrip`, apart from where it is. -/
structure Call where
  req : Req
  attempt : ℕ
  /-- the connection of the attempt comes from the pool -/
  reused : Bool
  /-- the context is done, or the channel `Cancel` closed -/
  cancelled : Bool
  /-- the first cancellation came after `Close` of the body had returned -/
  late : Bool
  /-- the watchers, that of the last attempt first -/
  watchers : List Watcher
  /-- the response that was returned, with the number of the request that it answers -/
  response : Option (ℕ × Head)
  deriving DecidableEq, Repr

/-- `roundTrip` is called. -/
def Call.of (req : Req) : Call :=
  { req := req, attempt := 0, reused := false, cancelled := false, late := false, watchers := [],
    response := none }

/-- `watchCancel`. -/
def Call.watch (q : Call) (pc : ℕ) : Call :=
  if q.req.watched then
    { q with watchers := { pc := pc, done := false, status := .waiting } :: q.watchers }
  else q

/-- The function `stop` of the last attempt. -/
def Call.stop (q : Call) : Call :=
  match q.watchers with
  | [] => q
  | w :: ws => { q with watchers := { w with done := true } :: ws }

/-! ### Reading a body -/

/-- A `poolBody` that has not been closed. -/
structure Body where
  left : Framing
  reusable : Bool
  sawEOF : Bool
  failed : Bool
  deriving DecidableEq, Repr

/-- A read from the body that gives `n` bytes and no error, or `io.EOF` with them.  Of a body
of known length the last bytes come together with `io.EOF`. -/
def rcRead (b : Body) (n : ℕ) (eof : Bool) (c : Conn) : Option (Body × Conn) :=
  match b.left with
  | .length 0 => if n = 0 ∧ eof then some ({ b with sawEOF := true }, c) else none
  | .length (m + 1) =>
    if 0 < n ∧ n ≤ m + 1 ∧ n ≤ c.buf.length ∧ (eof ↔ n = m + 1) then
      some ({ b with left := .length (m + 1 - n), sawEOF := b.sawEOF || eof },
        { c with buf := c.buf.drop n })
    else none
  | .chunked =>
    if eof then
      if List.replicate n .data ++ [.last] <+: c.buf then
        some ({ b with left := .length 0, sawEOF := true }, { c with buf := c.buf.drop (n + 1) })
      else none
    else if 0 < n ∧ List.replicate n .data <+: c.buf then
      some (b, { c with buf := c.buf.drop n })
    else none
  | .untilClose =>
    if eof then
      if n = 0 ∧ c.buf = [] ∧ c.wire = [] ∧ c.peerClosed then
        some ({ b with left := .length 0, sawEOF := true }, c)
      else none
    else if 0 < n ∧ n ≤ c.buf.length then some (b, { c with buf := c.buf.drop n })
    else none

/-! ### Stages -/

/-- Where a call is that holds a connection. -/
inductive Stage where
  /-- in `exchange`, before `begin` -/
  | begun
  /-- writing the request -/
  | sending
  /-- in `http.ReadResponse` -/
  | awaiting
  /-- the exchange has failed, and the watcher has to be stopped -/
  | stopping
  /-- the exchange has failed, and the connection has to be closed -/
  | closing
  /-- the response has been returned -/
  | opened (b : Body)
  /-- in `Close`, which has to stop the watcher -/
  | unwatching (b : Body)
  /-- in `drain`, before it sets its deadline -/
  | drain (b : Body)
  /-- in the loop of `drain`, after `i` reads that gave `read` bytes -/
  | draining (b : Body) (i read : ℕ)
  /-- in `Close`, before `rc.Close` -/
  | finishing (b : Body)
  /-- in `recycle`, before `isBroken` -/
  | recycling
  /-- in `recycle`, before `put` -/
  | filing
  /-- in `Close`, which has to close the connection -/
  | dropping
  deriving DecidableEq, Repr

/-- Something reads from the `bufio.Reader`. -/
def Stage.reads : Stage → Bool
  | .awaiting | .opened _ | .draining _ _ _ => true
  | _ => false

/-- What a call can do with its connection. -/
inductive Work where
  /-- `begin`, and `SetDeadline` succeeds -/
  | start
  /-- `begin`, and `SetDeadline` fails -/
  | deadlineFails
  /-- the request has been written -/
  | flush
  | writeFails
  /-- the `bufio.Reader` takes in what the server has sent -/
  | fill (n : ℕ)
  | readResponse
  /-- `http.ReadResponse` fails, and may have read something -/
  | responseFails (touched : Bool)
  | stop
  /-- the caller reads from the body -/
  | read (n : ℕ) (eof : Bool)
  | readFails
  /-- the caller closes the body -/
  | close
  | unwatch
  /-- `drain` sets its deadline -/
  | drainStart (ok : Bool)
  | drainRead (n : ℕ) (eof : Bool)
  | drainFails
  /-- `drain` gives up -/
  | drainStops
  /-- `rc.Close`, and what comes of it -/
  | finish
  /-- `recycle` as far as `put`; setting the deadline may fail -/
  | recycle (ok : Bool)
  deriving DecidableEq, Repr

/-- The body of the response that the call returns. -/
def newPoolBody (t : Transport) (req : Req) (resp : Head) : Body :=
  { left := framing req.method resp
    reusable := !(req.close || t.DisableKeepAlives) && reusableResponse req.method resp
    sawEOF := false
    failed := false }

/-- `Close` after it has stopped the watcher. -/
def Body.afterStop (b : Body) : Stage :=
  if b.reusable && !b.sawEOF && !b.failed then .drain b else .finishing b

/-- `Close` after `rc.Close`. -/
def Body.afterClose (b : Body) : Stage :=
  if b.reusable && b.sawEOF && !b.failed then .recycling else .dropping

/-- A step of the call of the number `r` on its connection `c`, which is the one of the number
`pc`. -/
def work (t : Transport) (r pc : ℕ) (a : Work) (q : Call) (stage : Stage) (c : Conn) :
    Option (Call × Stage × Conn) :=
  match a, stage with
  | .start, .begun => some (q.watch pc, .sending, { c with touched := false, owed := some r })
  | .deadlineFails, .begun => some (q, .closing, { c with touched := false })
  | .flush, .sending => some (q, .awaiting, c)
  | .writeFails, .sending => some (q, .stopping, c)
  | .fill n, stage =>
    if stage.reads ∧ ¬ c.broken ∧ 0 < n ∧ n ≤ c.wire.length then
      some (q, stage,
        { c with buf := c.buf ++ c.wire.take n, wire := c.wire.drop n, touched := true })
    else none
  | .readResponse, .awaiting =>
    match c.buf with
    | .head owner resp :: buf =>
      some ({ q with response := some (owner, resp) }, .opened (newPoolBody t q.req resp),
        { c with buf := buf })
    | _ => none
  | .responseFails touched, .awaiting =>
    some (q, .stopping, { c with touched := c.touched || touched })
  | .stop, .stopping => some (q.stop, .closing, c)
  | .read n eof, .opened b => (rcRead b n eof c).map fun (b, c) => (q, .opened b, c)
  | .readFails, .opened b => some (q, .opened { b with failed := true }, c)
  | .close, .opened b => some (q, .unwatching b, c)
  | .unwatch, .unwatching b => some (q.stop, b.afterStop, c)
  | .drainStart ok, .drain b =>
    some (q, if ok then .draining b 0 0 else .finishing { b with failed := true }, c)
  | .drainRead n eof, .draining b i read =>
    if i < maxDrainReads ∧ read < maxDrainBytes ∧ n ≤ 512 then
      (rcRead b n eof c).map fun (b, c) =>
        (q, if eof then .finishing b else .draining b (i + 1) (read + n), c)
    else none
  | .drainFails, .draining b i read =>
    if i < maxDrainReads ∧ read < maxDrainBytes then
      some (q, .finishing { b with failed := true }, c)
    else none
  | .drainStops, .draining b i read =>
    if i < maxDrainReads ∧ read < maxDrainBytes then none
    else some (q, .finishing { b with failed := true }, c)
  | .finish, .finishing b => some (q, b.afterClose, c)
  | .recycle ok, .recycling =>
    some (q, if t.DisableKeepAlives || c.broken || c.buf != [] || !ok then .dropping else .filing,
      c)
  | _, _ => none

/-- The steps of a call on its connection, with what they need. -/
inductive Works (t : Transport) (r pc : ℕ) :
    Work → Call × Stage × Conn → Call × Stage × Conn → Prop
  | start {q : Call} {c : Conn} :
      Works t r pc .start (q, .begun, c)
        (q.watch pc, .sending, { c with touched := false, owed := some r })
  | deadlineFails {q : Call} {c : Conn} :
      Works t r pc .deadlineFails (q, .begun, c) (q, .closing, { c with touched := false })
  | flush {q : Call} {c : Conn} : Works t r pc .flush (q, .sending, c) (q, .awaiting, c)
  | writeFails {q : Call} {c : Conn} : Works t r pc .writeFails (q, .sending, c) (q, .stopping, c)
  | fill {q : Call} {stage : Stage} {c : Conn} {n : ℕ} (hreads : stage.reads = true)
      (hbroken : c.broken = false) :
      Works t r pc (.fill n) (q, stage, c)
        (q, stage, { c with buf := c.buf ++ c.wire.take n, wire := c.wire.drop n, touched := true })
  | readResponse {q : Call} {c : Conn} {owner : ℕ} {resp : Head} {buf : List Token}
      (hbuf : c.buf = .head owner resp :: buf) :
      Works t r pc .readResponse (q, .awaiting, c)
        ({ q with response := some (owner, resp) }, .opened (newPoolBody t q.req resp),
          { c with buf := buf })
  | responseFails {q : Call} {c : Conn} {touched : Bool} :
      Works t r pc (.responseFails touched) (q, .awaiting, c)
        (q, .stopping, { c with touched := c.touched || touched })
  | stop {q : Call} {c : Conn} : Works t r pc .stop (q, .stopping, c) (q.stop, .closing, c)
  | read {q : Call} {b b' : Body} {c c' : Conn} {n : ℕ} {eof : Bool}
      (hread : rcRead b n eof c = some (b', c')) :
      Works t r pc (.read n eof) (q, .opened b, c) (q, .opened b', c')
  | readFails {q : Call} {b : Body} {c : Conn} :
      Works t r pc .readFails (q, .opened b, c) (q, .opened { b with failed := true }, c)
  | close {q : Call} {b : Body} {c : Conn} :
      Works t r pc .close (q, .opened b, c) (q, .unwatching b, c)
  | unwatch {q : Call} {b : Body} {c : Conn} :
      Works t r pc .unwatch (q, .unwatching b, c) (q.stop, b.afterStop, c)
  | drainStart {q : Call} {b : Body} {c : Conn} :
      Works t r pc (.drainStart true) (q, .drain b, c) (q, .draining b 0 0, c)
  | drainRefused {q : Call} {b : Body} {c : Conn} :
      Works t r pc (.drainStart false) (q, .drain b, c) (q, .finishing { b with failed := true }, c)
  | drainRead {q : Call} {b b' : Body} {c c' : Conn} {i read n : ℕ}
      (hread : rcRead b n false c = some (b', c')) :
      Works t r pc (.drainRead n false) (q, .draining b i read, c)
        (q, .draining b' (i + 1) (read + n), c')
  | drainEnd {q : Call} {b b' : Body} {c c' : Conn} {i read n : ℕ}
      (hread : rcRead b n true c = some (b', c')) :
      Works t r pc (.drainRead n true) (q, .draining b i read, c) (q, .finishing b', c')
  | drainFails {q : Call} {b : Body} {c : Conn} {i read : ℕ} :
      Works t r pc .drainFails (q, .draining b i read, c)
        (q, .finishing { b with failed := true }, c)
  | drainStops {q : Call} {b : Body} {c : Conn} {i read : ℕ} :
      Works t r pc .drainStops (q, .draining b i read, c)
        (q, .finishing { b with failed := true }, c)
  | finish {q : Call} {b : Body} {c : Conn} :
      Works t r pc .finish (q, .finishing b, c) (q, b.afterClose, c)
  | recycle {q : Call} {c : Conn} {ok : Bool} (hbuf : c.buf = []) :
      Works t r pc (.recycle ok) (q, .recycling, c) (q, .filing, c)
  | reject {q : Call} {c : Conn} {ok : Bool} :
      Works t r pc (.recycle ok) (q, .recycling, c) (q, .dropping, c)

/-- What a call does with its connection. -/
theorem works_of_work {t : Transport} {r pc : ℕ} {a : Work} {q : Call} {stage : Stage} {c : Conn}
    {x : Call × Stage × Conn} (h : work t r pc a q stage c = some x) :
  Works t r pc a (q, stage, c) x
  := by
  unfold work at h
  split at h
  · cases h
    exact .start
  · cases h
    exact .deadlineFails
  · cases h
    exact .flush
  · cases h
    exact .writeFails
  · rw [Option.ite_none_right_eq_some] at h
    obtain ⟨⟨hreads, hbroken, -⟩, h⟩ := h
    cases h
    exact .fill hreads (by simpa using hbroken)
  · split at h <;> cases h
    rename_i hbuf
    exact .readResponse hbuf
  · cases h
    exact .responseFails
  · cases h
    exact .stop
  · obtain ⟨⟨b', c'⟩, hread, rfl⟩ := Option.map_eq_some_iff.mp h
    exact .read hread
  · cases h
    exact .readFails
  · cases h
    exact .close
  · cases h
    exact .unwatch
  · rename_i ok b
    cases h
    cases ok with
    | true => exact .drainStart
    | false => exact .drainRefused
  · rename_i n eof b i read
    rw [Option.ite_none_right_eq_some] at h
    obtain ⟨-, h⟩ := h
    obtain ⟨⟨b', c'⟩, hread, rfl⟩ := Option.map_eq_some_iff.mp h
    cases eof with
    | true => exact .drainEnd hread
    | false => exact .drainRead hread
  · rw [Option.ite_none_right_eq_some] at h
    cases h.2
    exact .drainFails
  · rw [Option.ite_none_left_eq_some] at h
    cases h.2
    exact .drainStops
  · cases h
    exact .finish
  · cases h
    split
    · exact .reject
    rename_i hok
    simp only [Bool.or_eq_true, not_or, bne_iff_ne, ne_eq, not_not] at hok
    exact .recycle hok.1.2
  · cases h

/-- A read changes nothing of a connection but what there is to read. -/
theorem rcRead_conn {b b' : Body} {n : ℕ} {eof : Bool} {c c' : Conn}
    (h : rcRead b n eof c = some (b', c')) :
  ∃ buf, buf <:+ c.buf ∧ c' = { c with buf := buf }
  := by
  unfold rcRead at h
  split at h
  on_goal 4 => split at h
  on_goal 3 => split at h
  all_goals
    rw [Option.ite_none_right_eq_some] at h
    cases h.2
  any_goals exact ⟨_, List.suffix_rfl, rfl⟩
  all_goals exact ⟨_, List.drop_suffix _ _, rfl⟩

/-- A call files its connection, closes it and marks it nowhere here. -/
structure Conn.Kept (c c' : Conn) : Prop where
  key : c'.key = c.key
  idleSince : c'.idleSince = c.idleSince
  broken : c'.broken = c.broken

theorem Works.kept {t : Transport} {r pc : ℕ} {a : Work} {q q' : Call} {stage stage' : Stage}
    {c c' : Conn} (h : Works t r pc a (q, stage, c) (q', stage', c')) :
  c.Kept c'
  := by
  cases h with
  | read hread | drainRead hread | drainEnd hread =>
    obtain ⟨buf, -, rfl⟩ := rcRead_conn hread
    exact ⟨rfl, rfl, rfl⟩
  | _ => exact ⟨rfl, rfl, rfl⟩

end Https
