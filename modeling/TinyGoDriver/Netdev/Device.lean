import Mathlib.Data.Int.Notation
import TinyGoDriver.Lib.Interleaving

/-!
# Sockets and their descriptors

A device keeps its sockets in a table, under the number of their descriptor.  `Send` and `Recv` look
a socket up, wait until its descriptor is ready if there is a deadline, and then call the system;
for a TLS socket they take a lock first and leave the calls to the TLS layer.  `Close` takes the
socket out of the table, waits for the locks to end the TLS session, and closes the descriptor.

The system gives the number of a closed descriptor to the next socket.  Here a socket is known by an
identity that is never used again, and the state keeps which socket a number refers to.

`Connect` is one step: it returns before its socket is used.  What it and the other calls do to an
address is left out.
-/

namespace Netdev

open Interleaving

inductive Protocol where
  | tcp
  | udp
  | tls
  deriving DecidableEq, Repr

structure Socket where
  fd : ℕ
  protocol : Protocol
  deriving DecidableEq, Repr

namespace Socket

def isStream (s : Socket) : Bool := s.protocol ≠ .udp

def isTls (s : Socket) : Bool := s.protocol = .tls

end Socket

inductive Err where
  /-- `ErrInvalidSocketFd` -/
  | invalidSocketFd
  /-- `ErrTimeout` -/
  | timeout
  /-- `ErrSyscall` -/
  | syscall
  /-- `io.EOF` -/
  | eof
  /-- `lastErrno` -/
  | errno (code : ℕ)
  /-- `tlsIOError` -/
  | tlsIOError (cause : ℕ)
  deriving DecidableEq, Repr

inductive Kind where
  | send
  | recv
  deriving DecidableEq, Repr

/-- Where a `Send` or `Recv` is. -/
inductive Phase where
  /-- in `waitWrite` or `waitRead` -/
  | wait
  /-- before `sysSend` or `sysRecv` -/
  | io
  /-- before the lock of a TLS socket -/
  | lock
  /-- in the TLS layer, with the lock -/
  | session
  deriving DecidableEq, Repr

/-- A `Send` or `Recv` in flight. -/
structure Op where
  kind : Kind
  sock : ℕ
  len : ℕ
  /-- whether there is a deadline -/
  deadline : Bool
  phase : Phase
  /-- the variable `sent` of `Send` -/
  sent : ℕ
  /-- the bytes that the system has taken -/
  handed : ℕ
  deriving DecidableEq, Repr

/-- A system call of a `Send` or `Recv`: the socket it was issued for, and the one that the number
of the descriptor refers to. -/
structure Event where
  sock : ℕ
  reached : Option ℕ
  deriving DecidableEq, Repr

/-- What a `Send` or `Recv` returned. -/
structure Ret where
  kind : Kind
  len : ℕ
  tls : Bool
  handed : ℕ
  count : ℤ
  err : Option Err
  deriving DecidableEq, Repr

/-- Where a `Close` is. -/
inductive Closing where
  /-- the socket is out of the table -/
  | removed
  /-- the TLS session has ended -/
  | cleared
  deriving DecidableEq, Repr

structure State where
  /-- the identity of the next socket -/
  next : ℕ
  socket : ℕ → Socket
  /-- the socket that a number refers to -/
  kernel : ℕ → Option ℕ
  /-- whether a socket has been made and is not in the table yet -/
  created : ℕ → Bool
  /-- `Device.sockets` -/
  table : ℕ → Option ℕ
  /-- whether the socket has a TLS session -/
  session : ℕ → Bool
  /-- whether `writeMu` or `readMu` of a socket is taken by a `Send` or `Recv` -/
  mu : Kind × ℕ → Bool
  closing : ℕ → Option Closing
  ops : ℕ → Option Op
  /-- the listeners of the `Accept` calls in flight -/
  accepts : ℕ → Option ℕ
  events : List Event
  returned : List Ret

def State.init : State where
  next := 0
  socket _ := ⟨0, .tcp⟩
  kernel _ := none
  created _ := false
  table _ := none
  session _ := false
  mu _ := false
  closing _ := none
  ops _ := none
  accepts _ := none
  events := []
  returned := []

/-- What `select` returns. -/
inductive WaitResult where
  | ready
  | timedOut
  | interrupted
  | failed (code : ℕ)
  deriving DecidableEq, Repr

/-- What `write` and `read` return. -/
inductive IoResult where
  | count (n : ℕ)
  | interrupted
  | failed (code : ℕ)
  deriving DecidableEq, Repr

/-- What `Write` and `Read` of the TLS layer return. -/
inductive TlsResult where
  | count (n : ℕ)
  | failed (cause : ℕ)
  deriving DecidableEq, Repr

inductive Action where
  /-- `sysSocket`, in `Socket` -/
  | sysSocket (fd : ℕ) (protocol : Protocol)
  /-- the socket is put into the table, in `Socket` and `Accept` -/
  | list (id : ℕ)
  /-- `Accept`, up to `sysAccept` -/
  | accept (g fd : ℕ)
  /-- `sysAccept` returns a descriptor -/
  | sysAccept (g fd : ℕ)
  /-- `sysAccept` fails -/
  | acceptFail (g : ℕ)
  /-- `Connect` -/
  | connect (fd : ℕ)
  /-- `Send` or `Recv`, up to the wait -/
  | start (g : ℕ) (kind : Kind) (fd len : ℕ) (deadline : Bool)
  /-- there is no deadline, so there is no wait -/
  | pass (g : ℕ)
  /-- the deadline has passed -/
  | expire (g : ℕ)
  /-- `select`, in the wait -/
  | select (g : ℕ) (r : WaitResult)
  /-- `write` or `read`, in `sysSend` and `sysRecv` -/
  | io (g : ℕ) (r : IoResult)
  /-- the lock is taken and the session is looked up -/
  | acquire (g : ℕ)
  /-- a system call of the TLS layer -/
  | tlsCall (g : ℕ)
  /-- the TLS layer returns, and so does the call -/
  | tlsEnd (g : ℕ) (r : TlsResult)
  /-- `Close`, up to the locks -/
  | close (fd : ℕ)
  /-- the session is ended under both locks -/
  | clear (id : ℕ)
  /-- `sysClose` -/
  | sysClose (id : ℕ)
  deriving DecidableEq, Repr

namespace State

/-- The system makes a socket. -/
def create (s : State) (fd : ℕ) (protocol : Protocol) : State :=
  { s with
    next := s.next + 1
    socket := Function.update s.socket s.next ⟨fd, protocol⟩
    kernel := Function.update s.kernel fd (some s.next)
    created := Function.update s.created s.next true }

/-- The socket is put into the table. -/
def listed (s : State) (id : ℕ) : State :=
  { s with
    created := Function.update s.created id false
    table := Function.update s.table (s.socket id).fd (some id) }

/-- A call of `Accept` is at the listener, or has returned. -/
def accepting (s : State) (g : ℕ) (listener : Option ℕ) : State :=
  { s with accepts := Function.update s.accepts g listener }

/-- The socket has a TLS session. -/
def connected (s : State) (id : ℕ) : State :=
  { s with session := Function.update s.session id true }

/-- The socket is taken out of the table. -/
def removed (s : State) (fd id : ℕ) : State :=
  { s with
    table := Function.update s.table fd none
    closing := Function.update s.closing id (some .removed) }

/-- The TLS session has ended. -/
def cleared (s : State) (id : ℕ) : State :=
  { s with
    session := Function.update s.session id false
    closing := Function.update s.closing id (some .cleared) }

/-- The descriptor is closed. -/
def closed (s : State) (id : ℕ) : State :=
  { s with
    kernel := Function.update s.kernel (s.socket id).fd none
    closing := Function.update s.closing id none }

def setMu (s : State) (key : Kind × ℕ) (taken : Bool) : State :=
  { s with mu := Function.update s.mu key taken }

def setOp (s : State) (g : ℕ) (op : Option Op) : State :=
  { s with ops := Function.update s.ops g op }

/-- A system call on the descriptor of a socket. -/
def call (s : State) (sock : ℕ) : State :=
  { s with events := s.events ++ [⟨sock, s.kernel (s.socket sock).fd⟩] }

def ret (s : State) (r : Ret) : State := { s with returned := s.returned ++ [r] }

/-- A `Send` or `Recv` returns. -/
def finish (s : State) (g : ℕ) (op : Op) (count : ℤ) (err : Option Err) : State :=
  (s.setOp g none).ret ⟨op.kind, op.len, (s.socket op.sock).isTls, op.handed, count, err⟩

/-- A `Send` or `Recv` fails, with what was sent before. -/
def fail (s : State) (g : ℕ) (op : Op) (err : Err) : State :=
  s.finish g op (if op.sent = 0 then -1 else op.sent) (some err)

/-- After the wait. -/
def proceed (s : State) (g : ℕ) (op : Op) : State :=
  s.setOp g (some { op with phase := if (s.socket op.sock).isTls then .lock else .io })

/-- `sysSend` or `sysRecv` has moved `n` bytes. -/
def moved (s : State) (g : ℕ) (op : Op) (n : ℕ) : State :=
  let op := { op with handed := op.handed + n }
  match op.kind with
  | .send =>
    if n = 0 then s.finish g op op.sent (some .syscall)
    else
      let op := { op with sent := op.sent + n }
      if op.sent < op.len then s.setOp g (some { op with phase := .wait })
      else s.finish g op op.sent none
  | .recv =>
    if n = 0 ∧ (s.socket op.sock).isStream then s.finish g op 0 (some .eof)
    else s.finish g op n none

/-- What the TLS layer returned is passed on. -/
def passOn (s : State) (g : ℕ) (op : Op) (r : TlsResult) : State :=
  match r with
  | .count n =>
    if op.kind = .recv ∧ n = 0 then s.finish g op 0 (some .eof) else s.finish g op n none
  | .failed cause => s.finish g op (-1) (some (.tlsIOError cause))

end State

/-- One action. -/
def step (a : Action) (s : State) : Option State :=
  match a with
  | .sysSocket fd protocol => if s.kernel fd = none then some (s.create fd protocol) else none
  | .list id => if s.created id then some (s.listed id) else none
  | .accept g fd =>
    match s.accepts g, s.table fd with
    | none, some id => if (s.socket id).isStream then some (s.accepting g (some id)) else none
    | _, _ => none
  | .sysAccept g fd =>
    if s.accepts g ≠ none ∧ s.kernel fd = none then some ((s.create fd .tcp).accepting g none)
    else none
  | .acceptFail g => if s.accepts g ≠ none then some (s.accepting g none) else none
  | .connect fd =>
    match s.table fd with
    | some id => if (s.socket id).isTls then some (s.connected id) else none
    | none => none
  | .start g kind fd len deadline =>
    match s.ops g, s.table fd with
    | none, none => some (s.ret ⟨kind, len, false, 0, -1, some .invalidSocketFd⟩)
    | none, some id =>
      if len = 0 then some (s.ret ⟨kind, len, (s.socket id).isTls, 0, 0, none⟩)
      else some (s.setOp g (some ⟨kind, id, len, deadline, .wait, 0, 0⟩))
    | some _, _ => none
  | .pass g =>
    match s.ops g with
    | some op => if op.phase = .wait ∧ ¬ op.deadline then some (s.proceed g op) else none
    | none => none
  | .expire g =>
    match s.ops g with
    | some op => if op.phase = .wait ∧ op.deadline then some (s.fail g op .timeout) else none
    | none => none
  | .select g r =>
    match s.ops g with
    | some op =>
      if op.phase = .wait ∧ op.deadline then
        match r with
        | .ready => some ((s.call op.sock).proceed g op)
        | .timedOut => some ((s.call op.sock).fail g op .timeout)
        | .interrupted => some (s.call op.sock)
        | .failed code => some ((s.call op.sock).fail g op (.errno code))
      else none
    | none => none
  | .io g r =>
    match s.ops g with
    | some op =>
      if op.phase = .io then
        match r with
        | .count n =>
          if n ≤ op.len - op.sent then some ((s.call op.sock).moved g op n) else none
        | .interrupted => some (s.call op.sock)
        | .failed code => some ((s.call op.sock).fail g op (.errno code))
      else none
    | none => none
  | .acquire g =>
    match s.ops g with
    | some op =>
      if op.phase = .lock ∧ ¬ s.mu (op.kind, op.sock) then
        if s.session op.sock then
          some ((s.setOp g (some { op with phase := .session })).setMu (op.kind, op.sock) true)
        else some (s.passOn g op (.count 0))
      else none
    | none => none
  | .tlsCall g =>
    match s.ops g with
    | some op => if op.phase = .session then some (s.call op.sock) else none
    | none => none
  | .tlsEnd g r =>
    match s.ops g with
    | some op =>
      if op.phase = .session then some ((s.passOn g op r).setMu (op.kind, op.sock) false)
      else none
    | none => none
  | .close fd =>
    match s.table fd with
    | some id => some (s.removed fd id)
    | none => none
  | .clear id =>
    if s.closing id = some .removed ∧ ¬ s.mu (.send, id) ∧ ¬ s.mu (.recv, id) then
      some (s.cleared id)
    else none
  | .sysClose id => if s.closing id = some .cleared then some (s.closed id) else none

/-- What an action does, and when it can happen. -/
inductive Effect (s : State) : Action → State → Prop where
  | sysSocket {fd protocol} (hfd : s.kernel fd = none) :
      Effect s (.sysSocket fd protocol) (s.create fd protocol)
  | list {id} (hid : s.created id = true) : Effect s (.list id) (s.listed id)
  | accept {g fd id} : Effect s (.accept g fd) (s.accepting g (some id))
  | sysAccept {g fd} (hfd : s.kernel fd = none) :
      Effect s (.sysAccept g fd) ((s.create fd .tcp).accepting g none)
  | acceptFail {g} : Effect s (.acceptFail g) (s.accepting g none)
  | connect {fd id} (ht : s.table fd = some id) (htls : (s.socket id).isTls = true) :
      Effect s (.connect fd) (s.connected id)
  | unknown {g kind fd len deadline} :
      Effect s (.start g kind fd len deadline)
        (s.ret ⟨kind, len, false, 0, -1, some .invalidSocketFd⟩)
  | empty {g kind fd deadline id} :
      Effect s (.start g kind fd 0 deadline) (s.ret ⟨kind, 0, (s.socket id).isTls, 0, 0, none⟩)
  | start {g kind fd len deadline id} (hlen : len ≠ 0) (ht : s.table fd = some id) :
      Effect s (.start g kind fd len deadline)
        (s.setOp g (some ⟨kind, id, len, deadline, .wait, 0, 0⟩))
  | pass {g op} (hop : s.ops g = some op) (hwait : op.phase = .wait) :
      Effect s (.pass g) (s.proceed g op)
  | expire {g op} (hop : s.ops g = some op) (hwait : op.phase = .wait) :
      Effect s (.expire g) (s.fail g op .timeout)
  | ready {g op} (hop : s.ops g = some op) (hwait : op.phase = .wait) (hd : op.deadline = true) :
      Effect s (.select g .ready) ((s.call op.sock).proceed g op)
  | waitFail {g op r err} (hop : s.ops g = some op) (hwait : op.phase = .wait)
      (hd : op.deadline = true) : Effect s (.select g r) ((s.call op.sock).fail g op err)
  | waitAgain {g op} (hop : s.ops g = some op) (hwait : op.phase = .wait)
      (hd : op.deadline = true) : Effect s (.select g .interrupted) (s.call op.sock)
  | moved {g op n} (hop : s.ops g = some op) (hio : op.phase = .io) (hn : n ≤ op.len - op.sent) :
      Effect s (.io g (.count n)) ((s.call op.sock).moved g op n)
  | ioFail {g op code} (hop : s.ops g = some op) (hio : op.phase = .io) :
      Effect s (.io g (.failed code)) ((s.call op.sock).fail g op (.errno code))
  | ioAgain {g op} (hop : s.ops g = some op) (hio : op.phase = .io) :
      Effect s (.io g .interrupted) (s.call op.sock)
  | acquire {g op} (hop : s.ops g = some op) (hlock : op.phase = .lock)
      (hmu : s.mu (op.kind, op.sock) = false) (hs : s.session op.sock = true) :
      Effect s (.acquire g)
        ((s.setOp g (some { op with phase := .session })).setMu (op.kind, op.sock) true)
  | gone {g op} (hop : s.ops g = some op) (hlock : op.phase = .lock)
      (hs : s.session op.sock = false) : Effect s (.acquire g) (s.passOn g op (.count 0))
  | tlsCall {g op} (hop : s.ops g = some op) (hsession : op.phase = .session) :
      Effect s (.tlsCall g) (s.call op.sock)
  | tlsEnd {g op r} (hop : s.ops g = some op) (hsession : op.phase = .session) :
      Effect s (.tlsEnd g r) ((s.passOn g op r).setMu (op.kind, op.sock) false)
  | close {fd id} (ht : s.table fd = some id) : Effect s (.close fd) (s.removed fd id)
  | clear {id} (hid : s.closing id = some .removed) (hsend : s.mu (.send, id) = false)
      (hrecv : s.mu (.recv, id) = false) : Effect s (.clear id) (s.cleared id)
  | sysClose {id} (hid : s.closing id = some .cleared) : Effect s (.sysClose id) (s.closed id)

/-- What an action does is one of these. -/
theorem effect_of_step {a : Action} {s t : State} (h : step a s = some t) :
  Effect s a t
  := by
  cases a with
  | sysSocket fd protocol =>
    obtain ⟨hfd, rfl⟩ := guard_eq_some.mp h
    exact .sysSocket hfd
  | list id =>
    obtain ⟨hid, rfl⟩ := guard_eq_some.mp h
    exact .list hid
  | accept g fd =>
    dsimp only [step] at h
    split at h
    · obtain ⟨-, rfl⟩ := guard_eq_some.mp h
      exact .accept
    · cases h
  | sysAccept g fd =>
    obtain ⟨hfd, rfl⟩ := guard_eq_some.mp h
    exact .sysAccept hfd.2
  | acceptFail g =>
    obtain ⟨-, rfl⟩ := guard_eq_some.mp h
    exact .acceptFail
  | connect fd =>
    dsimp only [step] at h
    split at h
    · obtain ⟨htls, rfl⟩ := guard_eq_some.mp h
      exact .connect ‹_› htls
    · cases h
  | start g kind fd len deadline =>
    dsimp only [step] at h
    split at h
    · cases h
      exact .unknown
    · split at h
      · rename_i hlen
        subst hlen
        cases h
        exact .empty
      · cases h
        exact .start ‹_› ‹_›
    · cases h
  | pass g =>
    dsimp only [step] at h
    split at h
    · obtain ⟨hwait, rfl⟩ := guard_eq_some.mp h
      exact .pass ‹_› hwait.1
    · cases h
  | expire g =>
    dsimp only [step] at h
    split at h
    · obtain ⟨hwait, rfl⟩ := guard_eq_some.mp h
      exact .expire ‹_› hwait.1
    · cases h
  | select g r =>
    dsimp only [step] at h
    split at h
    · rename_i op hop
      split at h
      · rename_i hwait
        split at h <;> cases h
        · exact .ready hop hwait.1 hwait.2
        · exact .waitFail hop hwait.1 hwait.2
        · exact .waitAgain hop hwait.1 hwait.2
        · exact .waitFail hop hwait.1 hwait.2
      · cases h
    · cases h
  | io g r =>
    dsimp only [step] at h
    split at h
    · rename_i op hop
      split at h
      · rename_i hio
        split at h
        · obtain ⟨hn, rfl⟩ := guard_eq_some.mp h
          exact .moved hop hio hn
        · cases h
          exact .ioAgain hop hio
        · cases h
          exact .ioFail hop hio
      · cases h
    · cases h
  | acquire g =>
    dsimp only [step] at h
    split at h
    · rename_i op hop
      split at h
      · rename_i hlock
        split at h <;> cases h
        · exact .acquire hop hlock.1 (by simpa using hlock.2) ‹_›
        · rename_i hs
          exact .gone hop hlock.1 (by simpa using hs)
      · cases h
    · cases h
  | tlsCall g =>
    dsimp only [step] at h
    split at h
    · obtain ⟨hsession, rfl⟩ := guard_eq_some.mp h
      exact .tlsCall ‹_› hsession
    · cases h
  | tlsEnd g r =>
    dsimp only [step] at h
    split at h
    · obtain ⟨hsession, rfl⟩ := guard_eq_some.mp h
      exact .tlsEnd ‹_› hsession
    · cases h
  | close fd =>
    dsimp only [step] at h
    split at h <;> cases h
    exact .close ‹_›
  | clear id =>
    obtain ⟨hid, rfl⟩ := guard_eq_some.mp h
    exact .clear hid.1 (by simpa using hid.2.1) (by simpa using hid.2.2)
  | sysClose id =>
    obtain ⟨hid, rfl⟩ := guard_eq_some.mp h
    exact .sysClose hid

end Netdev
