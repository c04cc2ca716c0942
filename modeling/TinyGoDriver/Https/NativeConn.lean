import TinyGoDriver.Lib.Interleaving

/-!
# Cancelling a read from a native TLS connection

`mbedConn` adapts a native TLS session to `net.Conn`.  `Read` and `Close` hold the lock `ioMu`
while they use the session; the deadlines and the flag `closed` stand behind a lock of their
own, which is held only for a moment and needs no action of its own here.

The parties are the goroutine of a request, which reads from the connection, and the watcher
that `watchCancel` starts for the request, which closes the connection through
`persistConn.close` when the request is cancelled.  Of the native session the model takes that
a read returns when there is something to read, when its own time is up, and when the session
has been closed.
-/

namespace Https.NativeConn

open Interleaving

/-- `defaultOpTimeout`, in nanoseconds. -/
def defaultOpTimeout : ℕ := 300000000000

/-- What a `Read` returns. -/
inductive Outcome where
  | data
  | timeout
  /-- `net.ErrClosed` -/
  | closed
  deriving DecidableEq, Repr

/-- Where the goroutine of the request is. -/
inductive Reader where
  /-- outside `Read` -/
  | idle
  /-- in `Read`, before `readBudget` -/
  | called
  /-- in `Read`, waiting for `ioMu`, with the time that the native read will get -/
  | locking (ns : ℕ)
  /-- in the native read, which began at the time `since` -/
  | native (since ns : ℕ)
  | returned (outcome : Outcome)
  deriving DecidableEq, Repr

/-- Where the watcher is. -/
inductive Watcher where
  /-- in its `select` -/
  | selecting
  /-- in `persistConn.close` -/
  | closing
  /-- in `mbedConn.Close`, before `state.close` -/
  | marking
  /-- in `mbedConn.Close`, waiting for `ioMu` -/
  | locking
  /-- in `mbedConn.Close`, holding `ioMu` -/
  | holding
  | exited
  deriving DecidableEq, Repr

inductive Party where
  | reader
  | watcher
  deriving DecidableEq, Repr

structure State where
  now : ℕ
  reader : Reader
  watcher : Watcher
  /-- who holds `ioMu` -/
  ioMu : Option Party
  /-- the request's context is done, or its `Cancel` channel is closed -/
  cancelled : Bool
  /-- the watcher has been stopped -/
  stopped : Bool
  /-- `persistConn.broken` -/
  broken : Bool
  /-- `connState.closed` -/
  closed : Bool
  /-- `connState.readDeadline`, if it is set -/
  readDeadline : Option ℕ
  /-- the session and its descriptor have been closed -/
  sessClosed : Bool
  /-- what the peer has sent and nobody has read -/
  pending : ℕ
  deriving DecidableEq, Repr

/-- A connection that has just been dialed for a request without a deadline. -/
def State.init : State :=
  { now := 0, reader := .idle, watcher := .selecting, ioMu := none, cancelled := false,
    stopped := false, broken := false, closed := false, readDeadline := none, sessClosed := false,
    pending := 0 }

def timeoutNanos (now : ℕ) : Option ℕ → Option ℕ
  | none => some defaultOpTimeout
  | some deadline => if now < deadline then some (deadline - now) else none

/-- `readBudget`, and where the reader is after it. -/
def State.readBudget (s : State) : Reader :=
  if s.closed then .returned .closed
  else
    match timeoutNanos s.now s.readDeadline with
    | some ns => .locking ns
    | none => .returned .timeout

inductive Action where
  | readBudget
  | readLock
  /-- the native read returns what the peer has sent -/
  | readData
  /-- the native read has run out of time -/
  | readTimeout
  /-- the native read finds its session closed -/
  | readClosed
  /-- the `select` of the watcher chooses the cancellation -/
  | watchCancelled
  /-- the `select` of the watcher finds it stopped -/
  | watchStopped
  /-- `persistConn.close` marks the connection -/
  | markBroken
  /-- `state.close` -/
  | markClosed
  | closeLock
  /-- `mbedConn.Close` closes the session and gives up `ioMu` -/
  | closeSession
  /-- the request calls `Read` -/
  | read
  /-- the request stops its watcher -/
  | stop
  /-- the request sets a deadline -/
  | setDeadline (deadline : Option ℕ)
  /-- the request is cancelled -/
  | cancel
  /-- the peer sends something -/
  | send
  /-- time passes -/
  | tick
  deriving DecidableEq, Repr

/-- The actions of the goroutines in `Read`, in the watcher and in `Close`. -/
def Action.own : Action → Bool
  | .read | .stop | .setDeadline _ | .cancel | .send | .tick => false
  | _ => true

/-- One action. -/
def step (a : Action) (s : State) : Option State :=
  match a with
  | .readBudget => if s.reader = .called then some { s with reader := s.readBudget } else none
  | .readLock =>
    match s.reader, s.ioMu with
    | .locking ns, none => some { s with reader := .native s.now ns, ioMu := some .reader }
    | _, _ => none
  | .readData =>
    match s.reader, s.pending with
    | .native _ _, n + 1 =>
      some { s with reader := .returned .data, ioMu := none, pending := n }
    | _, _ => none
  | .readTimeout =>
    match s.reader with
    | .native since ns =>
      if since + ns ≤ s.now then some { s with reader := .returned .timeout, ioMu := none }
      else none
    | _ => none
  | .readClosed =>
    match s.reader with
    | .native _ _ =>
      if s.sessClosed then some { s with reader := .returned .closed, ioMu := none } else none
    | _ => none
  | .watchCancelled =>
    if s.watcher = .selecting ∧ s.cancelled then some { s with watcher := .closing } else none
  | .watchStopped =>
    if s.watcher = .selecting ∧ s.stopped then some { s with watcher := .exited } else none
  | .markBroken =>
    if s.watcher = .closing then
      if s.broken then some { s with watcher := .exited }
      else some { s with watcher := .marking, broken := true }
    else none
  | .markClosed =>
    if s.watcher = .marking then
      if s.closed then some { s with watcher := .exited }
      else some { s with watcher := .locking, closed := true }
    else none
  | .closeLock =>
    if s.watcher = .locking ∧ s.ioMu = none then
      some { s with watcher := .holding, ioMu := some .watcher }
    else none
  | .closeSession =>
    if s.watcher = .holding then
      some { s with watcher := .exited, ioMu := none, sessClosed := true }
    else none
  | .read =>
    match s.reader with
    | .idle | .returned _ => some { s with reader := .called }
    | _ => none
  | .stop => some { s with stopped := true }
  | .setDeadline deadline => some { s with readDeadline := deadline }
  | .cancel => some { s with cancelled := true }
  | .send => some { s with pending := s.pending + 1 }
  | .tick => some { s with now := s.now + 1 }

/-- The actions and what they do, with what they need. -/
inductive Acts : Action → State → State → Prop
  | readBudget {s : State} (h : s.reader = .called) :
      Acts .readBudget s { s with reader := s.readBudget }
  | readLock {s : State} {ns : ℕ} (h : s.reader = .locking ns) (hmu : s.ioMu = none) :
      Acts .readLock s { s with reader := .native s.now ns, ioMu := some .reader }
  | readData {s : State} {since ns n : ℕ} (h : s.reader = .native since ns)
      (hpending : s.pending = n + 1) :
      Acts .readData s { s with reader := .returned .data, ioMu := none, pending := n }
  | readTimeout {s : State} {since ns : ℕ} (h : s.reader = .native since ns)
      (hnow : since + ns ≤ s.now) :
      Acts .readTimeout s { s with reader := .returned .timeout, ioMu := none }
  | readClosed {s : State} {since ns : ℕ} (h : s.reader = .native since ns)
      (hsess : s.sessClosed = true) :
      Acts .readClosed s { s with reader := .returned .closed, ioMu := none }
  | watchCancelled {s : State} (h : s.watcher = .selecting) (hcancel : s.cancelled = true) :
      Acts .watchCancelled s { s with watcher := .closing }
  | watchStopped {s : State} (h : s.watcher = .selecting) (hstop : s.stopped = true) :
      Acts .watchStopped s { s with watcher := .exited }
  | foundBroken {s : State} (h : s.watcher = .closing) (hbroken : s.broken = true) :
      Acts .markBroken s { s with watcher := .exited }
  | markBroken {s : State} (h : s.watcher = .closing) (hbroken : s.broken = false) :
      Acts .markBroken s { s with watcher := .marking, broken := true }
  | foundClosed {s : State} (h : s.watcher = .marking) (hclosed : s.closed = true) :
      Acts .markClosed s { s with watcher := .exited }
  | markClosed {s : State} (h : s.watcher = .marking) (hclosed : s.closed = false) :
      Acts .markClosed s { s with watcher := .locking, closed := true }
  | closeLock {s : State} (h : s.watcher = .locking) (hmu : s.ioMu = none) :
      Acts .closeLock s { s with watcher := .holding, ioMu := some .watcher }
  | closeSession {s : State} (h : s.watcher = .holding) :
      Acts .closeSession s { s with watcher := .exited, ioMu := none, sessClosed := true }
  | read {s : State} (h : ∀ since ns, s.reader ≠ .native since ns) :
      Acts .read s { s with reader := .called }
  | stop {s : State} : Acts .stop s { s with stopped := true }
  | setDeadline {s : State} {deadline : Option ℕ} :
      Acts (.setDeadline deadline) s { s with readDeadline := deadline }
  | cancel {s : State} : Acts .cancel s { s with cancelled := true }
  | send {s : State} : Acts .send s { s with pending := s.pending + 1 }
  | tick {s : State} : Acts .tick s { s with now := s.now + 1 }

variable {a : Action} {s t : State}

/-- What a step does. -/
theorem acts_of_step (h : step a s = some t) :
  Acts a s t
  := by
  cases a with
  | readBudget =>
    obtain ⟨hr, rfl⟩ := guard_eq_some.mp h
    exact .readBudget hr
  | readLock =>
    rw [step] at h
    split at h <;> cases h
    rename_i hr hmu
    exact .readLock hr hmu
  | readData =>
    rw [step] at h
    split at h <;> cases h
    rename_i hr hpending
    exact .readData hr hpending
  | readTimeout =>
    rw [step] at h
    split at h
    · rename_i hr
      obtain ⟨hnow, rfl⟩ := guard_eq_some.mp h
      exact .readTimeout hr hnow
    · cases h
  | readClosed =>
    rw [step] at h
    split at h
    · rename_i hr
      obtain ⟨hsess, rfl⟩ := guard_eq_some.mp h
      exact .readClosed hr hsess
    · cases h
  | watchCancelled =>
    obtain ⟨⟨hw, hcancel⟩, rfl⟩ := guard_eq_some.mp h
    exact .watchCancelled hw hcancel
  | watchStopped =>
    obtain ⟨⟨hw, hstop⟩, rfl⟩ := guard_eq_some.mp h
    exact .watchStopped hw hstop
  | markBroken =>
    rw [step, Option.ite_none_right_eq_some] at h
    obtain ⟨hw, h⟩ := h
    split at h <;> cases h
    · rename_i hbroken
      exact .foundBroken hw hbroken
    · rename_i hbroken
      exact .markBroken hw (by simpa using hbroken)
  | markClosed =>
    rw [step, Option.ite_none_right_eq_some] at h
    obtain ⟨hw, h⟩ := h
    split at h <;> cases h
    · rename_i hclosed
      exact .foundClosed hw hclosed
    · rename_i hclosed
      exact .markClosed hw (by simpa using hclosed)
  | closeLock =>
    obtain ⟨⟨hw, hmu⟩, rfl⟩ := guard_eq_some.mp h
    exact .closeLock hw hmu
  | closeSession =>
    obtain ⟨hw, rfl⟩ := guard_eq_some.mp h
    exact .closeSession hw
  | read =>
    rw [step] at h
    split at h <;> cases h
    · rename_i hr
      exact .read (by simp [hr])
    · rename_i hr
      exact .read (by simp [hr])
  | stop =>
    cases h
    exact .stop
  | setDeadline deadline =>
    cases h
    exact .setDeadline
  | cancel =>
    cases h
    exact .cancel
  | send =>
    cases h
    exact .send
  | tick =>
    cases h
    exact .tick

/-! ### Coming to rest -/

def Reader.rank : Reader → ℕ
  | .idle => 0
  | .called => 3
  | .locking _ => 2
  | .native _ _ => 1
  | .returned _ => 0

def Watcher.rank : Watcher → ℕ
  | .selecting => 5
  | .closing => 4
  | .marking => 3
  | .locking => 2
  | .holding => 1
  | .exited => 0

def State.work (s : State) : ℕ := s.reader.rank + s.watcher.rank

theorem readBudget_cases (s : State) :
  (∃ ns, s.readBudget = .locking ns) ∨ ∃ outcome, s.readBudget = .returned outcome
  := by
  rw [State.readBudget]
  split
  · exact .inr ⟨_, rfl⟩
  split
  · exact .inl ⟨_, rfl⟩
  · exact .inr ⟨_, rfl⟩

/-- Every own action leaves less to do. -/
theorem work_lt (hown : a.own = true) (hstep : step a s = some t) :
  t.work < s.work
  := by
  cases acts_of_step hstep with
  | readBudget h =>
    rcases readBudget_cases s with ⟨ns, hb⟩ | ⟨outcome, hb⟩
    · simp [State.work, h, hb, Reader.rank]
    · simp [State.work, h, hb, Reader.rank]
  | readLock h | readData h | readTimeout h | readClosed h => simp [State.work, h, Reader.rank]
  | watchCancelled h | watchStopped h | foundBroken h | markBroken h | foundClosed h
  | markClosed h | closeLock h | closeSession h => simp [State.work, h, Watcher.rank]
  | _ => cases hown

/-! ### A blocked read -/

/-- A goroutine in the native read holds `ioMu`, and so does one that closes the session. -/
structure Inv (s : State) : Prop where
  reading : ∀ since ns, s.reader = .native since ns → s.ioMu = some .reader
  holding : s.watcher = .holding → s.ioMu = some .watcher

theorem Inv.init : Inv State.init := ⟨by simp [State.init], by simp [State.init]⟩

/-- The watcher does not close the session while the reader is in the native read. -/
theorem Inv.not_holding (hs : Inv s) {since ns : ℕ} (h : s.reader = .native since ns) :
  s.watcher ≠ .holding
  := by
  intro hw
  have hmu := hs.reading since ns h
  rw [hs.holding hw] at hmu
  cases hmu

theorem Inv.step (hstep : step a s = some t) (hs : Inv s) :
  Inv t
  := by
  cases acts_of_step hstep with
  | readBudget h =>
    refine { hs with reading := fun since ns h' => ?_ }
    rcases readBudget_cases s with ⟨ns', hb⟩ | ⟨outcome, hb⟩
    · simp [hb] at h'
    · simp [hb] at h'
  | readLock h hmu =>
    refine ⟨fun _ _ _ => rfl, fun hw => ?_⟩
    rw [hs.holding hw] at hmu
    cases hmu
  | readData h | readTimeout h | readClosed h =>
    exact ⟨by simp, fun hw => absurd hw (hs.not_holding h)⟩
  | closeLock _ hmu =>
    refine ⟨fun since ns hr => ?_, fun _ => rfl⟩
    rw [hs.reading since ns hr] at hmu
    cases hmu
  | closeSession h => exact ⟨fun since ns hr => absurd h (hs.not_holding hr), by simp⟩
  | watchCancelled | watchStopped | foundBroken | markBroken | foundClosed | markClosed =>
    exact { hs with holding := by simp }
  | read => exact { hs with reading := by simp }
  | _ => exact { hs with }

/-- The goroutine of the request is blocked in a native read: the peer has sent nothing, the
time of the read is not up, and the session is open. -/
structure Blocked (s : State) : Prop where
  reader : ∃ since ns, s.reader = .native since ns ∧ s.now < since + ns
  pending : s.pending = 0
  sess : s.sessClosed = false

/-- The blocked read returns, in whatever order the goroutines act, without anything from the
peer and without waiting for the time of the read to be up: left alone, the goroutines come to
rest only where it has returned. -/
def Returns (s : State) : Prop :=
  ∀ bs u, (∀ b ∈ bs, b.own = true) → exec step bs s = some u →
    Quiet step (fun b => b.own = true) u → ∃ outcome, u.reader = .returned outcome

/-- A blocked read stays blocked: the watcher, which would close the session, waits for the
lock that the read holds. -/
theorem Blocked.step (hown : a.own = true) (hstep : step a s = some t) (hinv : Inv s)
    (hs : Blocked s) :
  Blocked t
  := by
  obtain ⟨⟨since, ns, hr, hlt⟩, hpending, hsess⟩ := hs
  have hmu := hinv.reading since ns hr
  cases acts_of_step hstep with
  | readBudget h | readLock h =>
    rw [hr] at h
    cases h
  | readData _ h =>
    rw [hpending] at h
    cases h
  | readTimeout h hnow =>
    rw [hr] at h
    cases h
    omega
  | readClosed _ h =>
    rw [hsess] at h
    cases h
  | closeLock _ h =>
    rw [hmu] at h
    cases h
  | closeSession h => exact absurd h (hinv.not_holding hr)
  | read | stop | setDeadline | cancel | send | tick => cases hown
  | _ => exact ⟨⟨since, ns, hr, hlt⟩, hpending, hsess⟩

/-- A cancellation never takes effect on a blocked read: in whatever order the goroutines act,
the read is still blocked, and they come to rest without its having returned. -/
theorem blocked_not_returns (as : List Action) (s : State)
    (hexec : exec step as State.init = some s) (hblocked : Blocked s)
    (_ : s.cancelled = true) :
  ¬ Returns s
    ∧ ∀ bs u, (∀ b ∈ bs, b.own = true) → exec step bs s = some u → Blocked u
  := by
  have hinv : Inv s := exec_inv (fun _ _ _ h hs => hs.step h) hexec Inv.init
  have hkeep : ∀ bs u, (∀ b ∈ bs, b.own = true) → exec step bs s = some u → Blocked u := by
    intro bs u hown hexec'
    refine (exec_inv_of (P := fun t => Inv t ∧ Blocked t) ?_ hown hexec' ⟨hinv, hblocked⟩).2
    rintro a t v ha hstep ⟨h₁, h₂⟩
    exact ⟨h₁.step hstep, h₂.step ha hstep h₁⟩
  refine ⟨fun hreturns => ?_, hkeep⟩
  obtain ⟨bs, u, hown, hexec', hquiet⟩ :=
    exists_quiet (fun _ _ _ hown hstep => work_lt hown hstep) s
  obtain ⟨outcome, hu⟩ := hreturns bs u hown hexec' hquiet
  obtain ⟨since, ns, hr, -⟩ := (hkeep bs u hown hexec').reader
  rw [hu] at hr
  cases hr

/-- The connection after the request has read from it, found nothing and been cancelled. -/
def cancelledRead : State :=
  { State.init with
    reader := .native 0 defaultOpTimeout, ioMu := some .reader, cancelled := true }

theorem blocked_cancelledRead : Blocked cancelledRead
  := ⟨⟨0, defaultOpTimeout, rfl, by decide⟩, rfl, rfl⟩

theorem exec_cancelledRead :
  exec step [.read, .readBudget, .readLock, .cancel] State.init = some cancelledRead
  := rfl

/-- A request without a deadline that is cancelled while it waits for the peer goes on waiting. -/
theorem blocked_not_returns_cancelledRead : ¬ Returns cancelledRead
  := (blocked_not_returns _ _ exec_cancelledRead blocked_cancelledRead rfl).1

/-- The watcher takes the cancellation and comes to wait for the lock that the read holds. -/
theorem cancelledRead_waits :
  exec step [.read, .readBudget, .readLock, .cancel] State.init = some cancelledRead
    ∧ Blocked cancelledRead ∧ cancelledRead.cancelled = true ∧ cancelledRead.readDeadline = none
    ∧ ∃ u, exec step [.watchCancelled, .markBroken, .markClosed] cancelledRead = some u
        ∧ Quiet step (fun b => b.own = true) u
        ∧ u.watcher = .locking ∧ u.reader = .native 0 defaultOpTimeout
  := by
  refine ⟨exec_cancelledRead, blocked_cancelledRead, rfl, rfl, _, rfl, fun b hown => ?_, rfl, rfl⟩
  cases b with
  | readTimeout => decide
  | read | stop | setDeadline | cancel | send | tick => cases hown
  | _ => rfl

end Https.NativeConn
