import TinyGoDriver.Https.Pool
import TinyGoDriver.Lib.Interleaving

/-!
# The transport at work

All calls of `RoundTrip`, the bodies of their responses, the watchers, callers of
`CloseIdleConnections` and the servers, as one system of parties that act one at a time.  What a
call does while it holds a connection is `work`; here it is joined with what moves connections
about: `lease`, the dial, `put`, the ways a connection is closed, and `closeAll`, which detaches
the idle connections under the lock of the pool and closes them after it.

Closing a connection marks it and then closes what lies below.  The second has no effect on
anything here, so it is one action.  A body that is closed stays closed, so that of several
calls of `Close` only the first does anything; the look at `closed` and its setting are one
action.
-/

namespace Https

open Interleaving

/-- Where a call of `RoundTrip` is, and then the body of its response. -/
inductive Phase where
  /-- not called yet -/
  | idle
  /-- at the head of the loop, before `lease` -/
  | leasing
  | dialing
  /-- in an exchange, or with an open response, on the connection `pc` -/
  | holding (pc : ℕ) (stage : Stage)
  /-- the exchange has failed and closed its connection -/
  | judging (untouched : Bool)
  /-- an error has been returned -/
  | failed
  /-- `Close` of the body has returned -/
  | closed
  deriving DecidableEq, Repr

/-- The connection that is in use. -/
def Phase.conn : Phase → Option ℕ
  | .holding pc _ => some pc
  | _ => none

structure State where
  now : ℤ
  conns : Conns
  /-- how many connections have been dialed: those with smaller numbers -/
  dialed : ℕ
  pool : Pool
  phase : ℕ → Phase
  call : ℕ → Call
  /-- what `closeAll` has taken out of the pool and not yet closed -/
  detached : List ℕ

/-- Nothing has been called. -/
def State.init : State :=
  { now := 0, conns := fun _ => newPersistConn "", dialed := 0, pool := Pool.empty,
    phase := fun _ => .idle, detached := [],
    call := fun _ => Call.of { key := "", method := [], body := false, getBody := false,
                               watched := false, close := false } }

/-- The call of the number `r` comes to be as given. -/
def State.move (s : State) (r : ℕ) (phase : Phase) (call : Call) : State :=
  { s with phase := Function.update s.phase r phase, call := Function.update s.call r call }

/-- The connection `pc` comes to be as given. -/
def State.setConn (s : State) (pc : ℕ) (c : Conn) : State :=
  { s with conns := Function.update s.conns pc c }

@[simp]
theorem State.move_phase (s : State) (r : ℕ) (phase : Phase) (call : Call) :
  (s.move r phase call).phase = Function.update s.phase r phase
  := rfl

@[simp]
theorem State.move_call (s : State) (r : ℕ) (phase : Phase) (call : Call) :
  (s.move r phase call).call = Function.update s.call r call
  := rfl

@[simp]
theorem State.setConn_conns (s : State) (pc : ℕ) (c : Conn) :
  (s.setConn pc c).conns = Function.update s.conns pc c
  := rfl

inductive Action where
  /-- `RoundTrip` is called -/
  | start (r : ℕ) (req : Req)
  /-- `attemptBody` fails -/
  | getBodyFails (r : ℕ)
  | lease (r : ℕ)
  | dial (r : ℕ)
  | dialFails (r : ℕ)
  | work (r : ℕ) (a : Work)
  /-- an exchange that has failed closes its connection -/
  | abandon (r : ℕ)
  /-- `roundTrip` decides whether to try again -/
  | judge (r : ℕ)
  /-- `put`, which visits the keys of the pool in the order given -/
  | put (r : ℕ) (order : List String)
  /-- `Close` closes the connection -/
  | drop (r : ℕ)
  /-- `CloseIdleConnections` empties the pool -/
  | closeIdle
  /-- and closes one of the connections it has taken out -/
  | closeDetached (pc : ℕ)
  /-- the `select` of a watcher chooses the cancellation -/
  | fire (r k : ℕ)
  /-- the `select` of a watcher chooses the channel `done` -/
  | leave (r k : ℕ)
  /-- the request is cancelled -/
  | cancel (r : ℕ)
  /-- the server answers what it owes on the connection -/
  | reply (pc : ℕ) (reply : Reply)
  /-- the server closes the connection, and only so many tokens more arrive -/
  | hangUp (pc n : ℕ)
  | tick (n : ℕ)

/-- The context of the request is cancelled, or its channel `Cancel` closed. -/
def Call.cancel (q : Call) (closed : Bool) : Call :=
  { q with cancelled := true, late := q.late || (closed && !q.cancelled) }

/-- A failed exchange is tried again. -/
def Call.retries (q : Call) (untouched : Bool) : Bool :=
  q.attempt == 0 && q.reused && untouched && q.req.replayable && !q.cancelled

/-- The watcher leaves its `select` for the cancellation and calls `close`. -/
def Watcher.fire (w : Watcher) (c : Conn) : Watcher :=
  { w with status := if c.broken then .exited else .closed }

/-- The server sends its reply, and closes the connection after it if only that ends it. -/
def Conn.answer (c : Conn) (r : ℕ) (method : List Char) (reply : Reply) : Conn :=
  { c with
    wire := c.wire ++ reply.tokens r method
    owed := none
    peerClosed := framing method reply.final == .untilClose }

def step (t : Transport) (a : Action) (s : State) : Option State :=
  match a with
  | .start r req => if s.phase r = .idle then some (s.move r .leasing (Call.of req)) else none
  | .getBodyFails r =>
    let q := s.call r
    if s.phase r = .leasing ∧ q.attempt ≠ 0 ∧ q.req.body ∧ q.req.getBody then
      some (s.move r .failed q)
    else none
  | .lease r =>
    let q := s.call r
    if s.phase r = .leasing then
      if t.DisableKeepAlives then some (s.move r .dialing q)
      else
        match s.pool.get q.req.key t.idleConnTimeout s.now s.conns with
        | (none, pool, conns) => some { s.move r .dialing q with pool := pool, conns := conns }
        | (some pc, pool, conns) =>
          some { s.move r (.holding pc .begun) { q with reused := true } with
            pool := pool, conns := conns }
    else none
  | .dial r =>
    let q := s.call r
    if s.phase r = .dialing then
      some { (s.move r (.holding s.dialed .begun) { q with reused := false }).setConn s.dialed
        (newPersistConn q.req.key) with dialed := s.dialed + 1 }
    else none
  | .dialFails r => if s.phase r = .dialing then some (s.move r .failed (s.call r)) else none
  | .work r a =>
    match s.phase r with
    | .holding pc stage =>
      (work t r pc a (s.call r) stage (s.conns pc)).map fun (q, stage, c) =>
        (s.move r (.holding pc stage) q).setConn pc c
    | _ => none
  | .abandon r =>
    match s.phase r with
    | .holding pc .closing =>
      let c := s.conns pc
      some ((s.move r (.judging (!c.touched)) (s.call r)).setConn pc c.close)
    | _ => none
  | .judge r =>
    match s.phase r with
    | .judging untouched =>
      let q := s.call r
      some (if q.retries untouched then s.move r .leasing { q with attempt := q.attempt + 1 }
        else s.move r .failed q)
    | _ => none
  | .put r order =>
    match s.phase r with
    | .holding pc .filing =>
      if order.Perm s.pool.idle.keys then
        match s.pool.put pc t.maxIdleConnsPerHost order s.now s.conns with
        | none => some (s.move r (.holding pc .dropping) (s.call r))
        | some (pool, conns) =>
          some { s.move r .closed (s.call r) with pool := pool, conns := conns }
      else none
    | _ => none
  | .drop r =>
    match s.phase r with
    | .holding pc .dropping =>
      some ((s.move r .closed (s.call r)).setConn pc (s.conns pc).close)
    | _ => none
  | .closeIdle =>
    some { s with pool := Pool.empty, detached := s.detached ++ s.pool.idle.items }
  | .closeDetached pc =>
    if pc ∈ s.detached then
      some { s.setConn pc (s.conns pc).close with detached := s.detached.erase pc }
    else none
  | .fire r k =>
    let q := s.call r
    match q.watchers[k]? with
    | some w =>
      if w.status = .waiting ∧ q.cancelled then
        let c := s.conns w.pc
        some ((s.move r (s.phase r) { q with watchers := q.watchers.set k (w.fire c) }).setConn
          w.pc c.close)
      else none
    | none => none
  | .leave r k =>
    let q := s.call r
    match q.watchers[k]? with
    | some w =>
      if w.status = .waiting ∧ w.done then
        some (s.move r (s.phase r)
          { q with watchers := q.watchers.set k { w with status := .exited } })
      else none
    | none => none
  | .cancel r =>
    let q := s.call r
    if q.req.watched then some (s.move r (s.phase r) (q.cancel (s.phase r == .closed))) else none
  | .reply pc reply =>
    let c := s.conns pc
    match c.owed with
    | some r =>
      if c.peerClosed then none
      else some (s.setConn pc (c.answer r (s.call r).req.method reply))
    | none => none
  | .hangUp pc n =>
    if pc < s.dialed then
      let c := s.conns pc
      some (s.setConn pc { c with wire := c.wire.take n, peerClosed := true })
    else none
  | .tick n => some { s with now := s.now + n }

/-- The actions and what they do, with what they need. -/
inductive Acts (t : Transport) : Action → State → State → Prop
  | start {s : State} {r : ℕ} {req : Req} (hphase : s.phase r = .idle) :
      Acts t (.start r req) s (s.move r .leasing (Call.of req))
  | getBodyFails {s : State} {r : ℕ} (hphase : s.phase r = .leasing) :
      Acts t (.getBodyFails r) s (s.move r .failed (s.call r))
  | leaseNone {s : State} {r : ℕ} (hphase : s.phase r = .leasing) :
      Acts t (.lease r) s (s.move r .dialing (s.call r))
  | leaseMiss {s : State} {r : ℕ} {pool : Pool} {conns : Conns} (hphase : s.phase r = .leasing)
      (hget : s.pool.get (s.call r).req.key t.idleConnTimeout s.now s.conns = (none, pool, conns)) :
      Acts t (.lease r) s { s.move r .dialing (s.call r) with pool := pool, conns := conns }
  | leaseHit {s : State} {r pc : ℕ} {pool : Pool} {conns : Conns} (hphase : s.phase r = .leasing)
      (hget : s.pool.get (s.call r).req.key t.idleConnTimeout s.now s.conns
        = (some pc, pool, conns)) :
      Acts t (.lease r) s { s.move r (.holding pc .begun) { s.call r with reused := true } with
        pool := pool, conns := conns }
  | dial {s : State} {r : ℕ} (hphase : s.phase r = .dialing) :
      Acts t (.dial r) s { (s.move r (.holding s.dialed .begun)
        { s.call r with reused := false }).setConn s.dialed (newPersistConn (s.call r).req.key) with
        dialed := s.dialed + 1 }
  | dialFails {s : State} {r : ℕ} (hphase : s.phase r = .dialing) :
      Acts t (.dialFails r) s (s.move r .failed (s.call r))
  | work {s : State} {r pc : ℕ} {a : Work} {q : Call} {stage stage' : Stage} {c : Conn}
      (hphase : s.phase r = .holding pc stage)
      (hwork : Works t r pc a (s.call r, stage, s.conns pc) (q, stage', c)) :
      Acts t (.work r a) s ((s.move r (.holding pc stage') q).setConn pc c)
  | abandon {s : State} {r pc : ℕ} (hphase : s.phase r = .holding pc .closing) :
      Acts t (.abandon r) s ((s.move r (.judging (!(s.conns pc).touched)) (s.call r)).setConn pc
        (s.conns pc).close)
  | retry {s : State} {r : ℕ} {untouched : Bool} (hphase : s.phase r = .judging untouched)
      (hretries : (s.call r).retries untouched = true) :
      Acts t (.judge r) s (s.move r .leasing { s.call r with attempt := (s.call r).attempt + 1 })
  | giveUp {s : State} {r : ℕ} {untouched : Bool} (hphase : s.phase r = .judging untouched) :
      Acts t (.judge r) s (s.move r .failed (s.call r))
  | put {s : State} {r pc : ℕ} {order : List String} {pool : Pool} {conns : Conns}
      (hphase : s.phase r = .holding pc .filing)
      (hput : s.pool.put pc t.maxIdleConnsPerHost order s.now s.conns = some (pool, conns)) :
      Acts t (.put r order) s { s.move r .closed (s.call r) with pool := pool, conns := conns }
  | putRefused {s : State} {r pc : ℕ} {order : List String}
      (hphase : s.phase r = .holding pc .filing) :
      Acts t (.put r order) s (s.move r (.holding pc .dropping) (s.call r))
  | drop {s : State} {r pc : ℕ} (hphase : s.phase r = .holding pc .dropping) :
      Acts t (.drop r) s ((s.move r .closed (s.call r)).setConn pc (s.conns pc).close)
  | closeIdle {s : State} :
      Acts t .closeIdle s
        { s with pool := Pool.empty, detached := s.detached ++ s.pool.idle.items }
  | closeDetached {s : State} {pc : ℕ} (hmem : pc ∈ s.detached) :
      Acts t (.closeDetached pc) s
        { s.setConn pc (s.conns pc).close with detached := s.detached.erase pc }
  | fire {s : State} {r k : ℕ} {w : Watcher} (hw : (s.call r).watchers[k]? = some w)
      (hwaiting : w.status = .waiting) (hcancelled : (s.call r).cancelled = true) :
      Acts t (.fire r k) s ((s.move r (s.phase r) { s.call r with
        watchers := (s.call r).watchers.set k (w.fire (s.conns w.pc)) }).setConn w.pc
        (s.conns w.pc).close)
  | leave {s : State} {r k : ℕ} {w : Watcher} (hw : (s.call r).watchers[k]? = some w)
      (hwaiting : w.status = .waiting) (hdone : w.done = true) :
      Acts t (.leave r k) s (s.move r (s.phase r) { s.call r with
        watchers := (s.call r).watchers.set k { w with status := .exited } })
  | cancel {s : State} {r : ℕ} :
      Acts t (.cancel r) s (s.move r (s.phase r) ((s.call r).cancel (s.phase r == .closed)))
  | reply {s : State} {pc r : ℕ} {reply : Reply} (howed : (s.conns pc).owed = some r) :
      Acts t (.reply pc reply) s
        (s.setConn pc ((s.conns pc).answer r (s.call r).req.method reply))
  | hangUp {s : State} {pc n : ℕ} :
      Acts t (.hangUp pc n) s (s.setConn pc { s.conns pc with
        wire := (s.conns pc).wire.take n, peerClosed := true })
  | tick {s : State} {n : ℕ} : Acts t (.tick n) s { s with now := s.now + n }

/-- What a step does. -/
theorem acts_of_step {t : Transport} {a : Action} {s s' : State} (h : step t a s = some s') :
  Acts t a s s'
  := by
  cases a with
  | start r req =>
    obtain ⟨hphase, rfl⟩ := guard_eq_some.mp h
    exact .start hphase
  | getBodyFails r =>
    obtain ⟨⟨hphase, -⟩, rfl⟩ := guard_eq_some.mp h
    exact .getBodyFails hphase
  | lease r =>
    simp only [step, Option.ite_none_right_eq_some] at h
    obtain ⟨hphase, h⟩ := h
    split at h
    · cases h
      exact .leaseNone hphase
    split at h <;> cases h
    · rename_i hget
      exact .leaseMiss hphase hget
    · rename_i hget
      exact .leaseHit hphase hget
  | dial r =>
    obtain ⟨hphase, rfl⟩ := guard_eq_some.mp h
    exact .dial hphase
  | dialFails r =>
    obtain ⟨hphase, rfl⟩ := guard_eq_some.mp h
    exact .dialFails hphase
  | work r a =>
    rw [step] at h
    split at h
    · rename_i hphase
      obtain ⟨⟨q, stage', c⟩, hwork, rfl⟩ := Option.map_eq_some_iff.mp h
      exact .work hphase (works_of_work hwork)
    · cases h
  | abandon r =>
    rw [step] at h
    split at h <;> cases h
    rename_i hphase
    exact .abandon hphase
  | judge r =>
    rw [step] at h
    split at h <;> cases h
    rename_i hphase
    split
    · rename_i hretries
      exact .retry hphase hretries
    · exact .giveUp hphase
  | put r order =>
    rw [step] at h
    split at h
    · rename_i hphase
      rw [Option.ite_none_right_eq_some] at h
      obtain ⟨-, h⟩ := h
      split at h <;> cases h
      · exact .putRefused hphase
      · rename_i hput
        exact .put hphase hput
    · cases h
  | drop r =>
    rw [step] at h
    split at h <;> cases h
    rename_i hphase
    exact .drop hphase
  | closeIdle =>
    cases h
    exact .closeIdle
  | closeDetached pc =>
    obtain ⟨hmem, rfl⟩ := guard_eq_some.mp h
    exact .closeDetached hmem
  | fire r k =>
    simp only [step] at h
    split at h
    · rename_i w hw
      obtain ⟨⟨hwaiting, hcancelled⟩, rfl⟩ := guard_eq_some.mp h
      exact .fire hw hwaiting hcancelled
    · cases h
  | leave r k =>
    simp only [step] at h
    split at h
    · rename_i w hw
      obtain ⟨⟨hwaiting, hdone⟩, rfl⟩ := guard_eq_some.mp h
      exact .leave hw hwaiting hdone
    · cases h
  | cancel r =>
    obtain ⟨-, rfl⟩ := guard_eq_some.mp h
    exact .cancel
  | reply pc reply =>
    simp only [step] at h
    split at h
    · rename_i r howed
      rw [Option.ite_none_left_eq_some] at h
      cases h.2
      exact .reply howed
    · cases h
  | hangUp pc n =>
    obtain ⟨-, rfl⟩ := guard_eq_some.mp h
    exact .hangUp
  | tick n =>
    cases h
    exact .tick

/-! ### An ordinary request -/

/-- A request without a body that can be cancelled. -/
def plainGet : Req :=
  { key := "k", method := "GET".toList, body := false, getBody := false, watched := true,
    close := false }

/-- The reply `204 No Content`. -/
def noContent : Reply where
  interims := []
  final := ⟨204, 1, 1, false, [], 0, []⟩
  payload := 0
  interim := by simp
  isFinal := by decide

/-- The request of the number `r` on a new connection `pc`, from the call to the return of the
connection to an empty pool. -/
def answered (r pc : ℕ) (req : Req) (reply : Reply) : List Action :=
  [.start r req, .lease r, .dial r, .work r .start, .work r .flush, .reply pc reply,
    .work r (.fill 1), .work r .readResponse, .work r .close, .work r .unwatch,
    .work r (.drainStart true), .work r (.drainRead 0 true), .work r .finish,
    .work r (.recycle true), .put r []]

end Https
