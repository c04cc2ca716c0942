import TinyGoDriver.Lib.Interleaving

/-!
# Serving on the TinyGo path

`serve` accepts connections on a listener and hands the ordinary ones to `http.Server`, which
accepts them from a `chanListener`.  The parties are the accept loop of `serve`, the goroutine
that runs `srv.Serve` on the `chanListener`, the goroutines that read the request heads, and
whoever calls `srv.Shutdown` or `srv.Close`.

Of `http.Server` the model takes that its `Serve` closes the listener when it returns, that
`Shutdown` and `Close` close the listeners being served, that either closes a listener at most
once, and that `Serve` reports `ErrServerClosed` if the server has been shut down by then.

`Close` of a `chanListener` looks whether the channel `done` is closed and then closes it.
Nothing holds between the two, so they are separate actions, and the second of two calls that
have both looked panics.
-/

namespace HttpServer

open Interleaving

/-- The errors that an accept loop ends with. -/
inductive Err where
  /-- `http.ErrServerClosed` -/
  | serverClosed
  /-- `net.ErrClosed`, from the `chanListener` -/
  | netClosed
  /-- an error of the listener -/
  | accept
  deriving DecidableEq, Repr

/-- Where the accept loop of `serve` is. -/
inductive Loop where
  /-- in `ln.Accept` -/
  | accepting
  /-- in `handoff.close`, before looking at the channel -/
  | closing (err : Err)
  /-- in `handoff.close`, having found the channel open -/
  | checked (err : Err)
  /-- waiting for the result of `srv.Serve` -/
  | waiting (err : Err)
  | returned (err : Err)
  deriving DecidableEq, Repr

/-- Where the goroutine of `srv.Serve` is. -/
inductive Inner where
  | starting
  /-- in `handoff.Accept` -/
  | accepting
  /-- returning, once the listener has been closed -/
  | exiting (err : Err)
  | exited
  deriving DecidableEq, Repr

/-- The one call of `handoff.Close` that `http.Server` makes. -/
inductive Closer where
  | idle
  | called
  /-- has found the channel open -/
  | checked
  | finished
  deriving DecidableEq, Repr

/-- The state of a call of `serve`.  Connections are numbers. -/
structure State where
  loop : Loop
  inner : Inner
  /-- what the channel `served` holds -/
  served : Option Err
  closer : Closer
  /-- whether the channel `done` of the `chanListener` is closed -/
  done : Bool
  /-- whether `Shutdown` or `Close` of the server has been called -/
  shut : Bool
  /-- the connections that `ln` has for `Accept` -/
  queue : List ℕ
  /-- what `ln.Accept` fails with, once it does -/
  failure : Option Err
  /-- the connections that `ln.Accept` has returned -/
  accepted : List ℕ
  /-- the connections whose request head is being read -/
  reading : List ℕ
  /-- the connections offered to the `chanListener` -/
  offered : List ℕ
  /-- a close of a closed channel has stopped the program -/
  panicked : Bool
  deriving DecidableEq, Repr

/-- The state in which `serve` enters its loop, on a listener with nothing to accept. -/
def State.init : State :=
  { loop := .accepting, inner := .starting, served := none, closer := .idle, done := false,
    shut := false, queue := [], failure := none, accepted := [], reading := [], offered := [],
    panicked := false }

inductive Action where
  /-- `srv.Serve` starts -/
  | innerStart
  /-- `handoff.Accept` receives a connection -/
  | innerReceive (conn : ℕ)
  /-- `handoff.Accept` finds the channel `done` closed -/
  | innerDone
  /-- the result of `srv.Serve` is sent on `served` -/
  | innerSend
  /-- `http.Server` closes the `chanListener`: it looks -/
  | closerCheck
  /-- and closes -/
  | closerClose
  /-- `ln.Accept` returns a connection -/
  | accept
  /-- `ln.Accept` returns an error -/
  | acceptFail
  /-- `handoff.close` looks -/
  | loopCheck
  /-- and closes -/
  | loopClose
  /-- the result of `srv.Serve` is received -/
  | receive
  /-- `offer` finds the channel `done` closed, and closes the connection -/
  | drop (conn : ℕ)
  /-- a client connects -/
  | connect (conn : ℕ)
  /-- the listener fails, or is closed -/
  | fail (err : Err)
  /-- a request head has been read, and the connection is offered to the `chanListener` -/
  | head (conn : ℕ)
  /-- a connection ends in `dispatch` -/
  | hangup (conn : ℕ)
  /-- `srv.Shutdown` or `srv.Close` is called -/
  | shutdown
  deriving DecidableEq, Repr

/-- The actions that need nobody outside: the others are up to clients, to the listener and to
the callers of `Shutdown`. -/
def Action.own : Action → Bool
  | .connect _ | .fail _ | .head _ | .hangup _ | .shutdown => false
  | _ => true

/-- `http.Server` calls `handoff.Close`, unless it has done so before. -/
def Closer.call : Closer → Closer
  | .idle => .called
  | closer => closer

/-- What `srv.Serve` returns when `Accept` fails. -/
def State.serveErr (s : State) : Err := if s.shut then .serverClosed else .netClosed

/-- What an action does while the program runs. -/
def act (a : Action) (s : State) : Option State :=
  match a with
  | .innerStart =>
    if s.inner = .starting then
      if s.shut then some { s with inner := .exiting .serverClosed, closer := s.closer.call }
      else some { s with inner := .accepting }
    else none
  | .innerReceive c =>
    if s.inner = .accepting ∧ c ∈ s.offered then
      some { s with offered := s.offered.erase c }
    else none
  | .innerDone =>
    if s.inner = .accepting ∧ s.done then
      some { s with inner := .exiting s.serveErr, closer := s.closer.call }
    else none
  | .innerSend =>
    match s.inner with
    | .exiting err =>
      if s.closer = .finished then some { s with inner := .exited, served := some err }
      else none
    | _ => none
  | .closerCheck =>
    if s.closer = .called then
      some { s with closer := if s.done then .finished else .checked }
    else none
  | .closerClose =>
    if s.closer = .checked then
      if s.done then some { s with panicked := true }
      else some { s with closer := .finished, done := true }
    else none
  | .accept =>
    match s.queue with
    | c :: queue =>
      if s.loop = .accepting ∧ s.failure = none then
        some { s with queue := queue, accepted := c :: s.accepted, reading := c :: s.reading }
      else none
    | [] => none
  | .acceptFail =>
    match s.failure with
    | some err => if s.loop = .accepting then some { s with loop := .closing err } else none
    | none => none
  | .loopCheck =>
    match s.loop with
    | .closing err => some { s with loop := if s.done then .waiting err else .checked err }
    | _ => none
  | .loopClose =>
    match s.loop with
    | .checked err =>
      if s.done then some { s with panicked := true }
      else some { s with loop := .waiting err, done := true }
    | _ => none
  | .receive =>
    match s.loop, s.served with
    | .waiting _, some err => some { s with loop := .returned err, served := none }
    | _, _ => none
  | .drop c =>
    if c ∈ s.offered ∧ s.done then some { s with offered := s.offered.erase c } else none
  | .connect c => some { s with queue := s.queue ++ [c] }
  | .fail err => if s.failure = none then some { s with failure := some err } else none
  | .head c =>
    if c ∈ s.reading then
      some { s with reading := s.reading.erase c, offered := c :: s.offered }
    else none
  | .hangup c => if c ∈ s.reading then some { s with reading := s.reading.erase c } else none
  | .shutdown =>
    if s.inner = .accepting then some { s with shut := true, closer := s.closer.call }
    else some { s with shut := true }

/-- One action, unless the program has been stopped by a panic. -/
def step (a : Action) (s : State) : Option State := if s.panicked then none else act a s

/-- The actions and what they do, with what they need. -/
inductive Acts : Action → State → State → Prop
  | innerStart {s : State} (h : s.inner = .starting) (hshut : s.shut = false) :
      Acts .innerStart s { s with inner := .accepting }
  | innerRefuse {s : State} (h : s.inner = .starting) (hshut : s.shut = true) :
      Acts .innerStart s { s with inner := .exiting .serverClosed, closer := s.closer.call }
  | innerReceive {s : State} {c : ℕ} (h : s.inner = .accepting) (hc : c ∈ s.offered) :
      Acts (.innerReceive c) s { s with offered := s.offered.erase c }
  | innerDone {s : State} (h : s.inner = .accepting) (hdone : s.done = true) :
      Acts .innerDone s { s with inner := .exiting s.serveErr, closer := s.closer.call }
  | innerSend {s : State} {err : Err} (h : s.inner = .exiting err)
      (hcloser : s.closer = .finished) :
      Acts .innerSend s { s with inner := .exited, served := some err }
  | closerFound {s : State} (h : s.closer = .called) (hdone : s.done = true) :
      Acts .closerCheck s { s with closer := .finished }
  | closerCheck {s : State} (h : s.closer = .called) (hdone : s.done = false) :
      Acts .closerCheck s { s with closer := .checked }
  | closerClose {s : State} (h : s.closer = .checked) (hdone : s.done = false) :
      Acts .closerClose s { s with closer := .finished, done := true }
  | closerPanic {s : State} (h : s.closer = .checked) (hdone : s.done = true) :
      Acts .closerClose s { s with panicked := true }
  | accept {s : State} {c : ℕ} {queue : List ℕ} (hqueue : s.queue = c :: queue)
      (h : s.loop = .accepting) (hfail : s.failure = none) :
      Acts .accept s
        { s with queue := queue, accepted := c :: s.accepted, reading := c :: s.reading }
  | acceptFail {s : State} {err : Err} (h : s.loop = .accepting) (hfail : s.failure = some err) :
      Acts .acceptFail s { s with loop := .closing err }
  | loopFound {s : State} {err : Err} (h : s.loop = .closing err) (hdone : s.done = true) :
      Acts .loopCheck s { s with loop := .waiting err }
  | loopCheck {s : State} {err : Err} (h : s.loop = .closing err) (hdone : s.done = false) :
      Acts .loopCheck s { s with loop := .checked err }
  | loopClose {s : State} {err : Err} (h : s.loop = .checked err) (hdone : s.done = false) :
      Acts .loopClose s { s with loop := .waiting err, done := true }
  | loopPanic {s : State} {err : Err} (h : s.loop = .checked err) (hdone : s.done = true) :
      Acts .loopClose s { s with panicked := true }
  | receive {s : State} {err err' : Err} (h : s.loop = .waiting err')
      (hserved : s.served = some err) :
      Acts .receive s { s with loop := .returned err, served := none }
  | drop {s : State} {c : ℕ} (hc : c ∈ s.offered) (hdone : s.done = true) :
      Acts (.drop c) s { s with offered := s.offered.erase c }
  | connect {s : State} {c : ℕ} : Acts (.connect c) s { s with queue := s.queue ++ [c] }
  | fail {s : State} {err : Err} (h : s.failure = none) :
      Acts (.fail err) s { s with failure := some err }
  | head {s : State} {c : ℕ} (hc : c ∈ s.reading) :
      Acts (.head c) s { s with reading := s.reading.erase c, offered := c :: s.offered }
  | hangup {s : State} {c : ℕ} (hc : c ∈ s.reading) :
      Acts (.hangup c) s { s with reading := s.reading.erase c }
  | shutdown {s : State} (h : s.inner ≠ .accepting) : Acts .shutdown s { s with shut := true }
  | shutdownClose {s : State} (h : s.inner = .accepting) :
      Acts .shutdown s { s with shut := true, closer := s.closer.call }

variable {a : Action} {s t : State}

/-- What a step does. -/
theorem acts_of_step (h : step a s = some t) :
  s.panicked = false ∧ Acts a s t
  := by
  rw [step] at h
  split at h
  · cases h
  rename_i hpanic
  refine ⟨by simpa using hpanic, ?_⟩
  cases a with
  | innerStart =>
    rw [act, Option.ite_none_right_eq_some] at h
    obtain ⟨hinner, h⟩ := h
    split at h <;> cases h
    · rename_i hshut
      exact .innerRefuse hinner hshut
    · rename_i hshut
      exact .innerStart hinner (by simpa using hshut)
  | innerReceive c =>
    obtain ⟨⟨hinner, hc⟩, rfl⟩ := guard_eq_some.mp h
    exact .innerReceive hinner hc
  | innerDone =>
    obtain ⟨⟨hinner, hdone⟩, rfl⟩ := guard_eq_some.mp h
    exact .innerDone hinner hdone
  | innerSend =>
    rw [act] at h
    split at h
    · rename_i err hinner
      obtain ⟨hcloser, rfl⟩ := guard_eq_some.mp h
      exact .innerSend hinner hcloser
    · cases h
  | closerCheck =>
    obtain ⟨hcloser, rfl⟩ := guard_eq_some.mp h
    split
    · rename_i hdone
      exact .closerFound hcloser hdone
    · rename_i hdone
      exact .closerCheck hcloser (by simpa using hdone)
  | closerClose =>
    rw [act, Option.ite_none_right_eq_some] at h
    obtain ⟨hcloser, h⟩ := h
    split at h <;> cases h
    · rename_i hdone
      exact .closerPanic hcloser hdone
    · rename_i hdone
      exact .closerClose hcloser (by simpa using hdone)
  | accept =>
    rw [act] at h
    split at h
    · rename_i c queue hqueue
      obtain ⟨⟨hloop, hfail⟩, rfl⟩ := guard_eq_some.mp h
      exact .accept hqueue hloop hfail
    · cases h
  | acceptFail =>
    rw [act] at h
    split at h
    · rename_i err hfail
      obtain ⟨hloop, rfl⟩ := guard_eq_some.mp h
      exact .acceptFail hloop hfail
    · cases h
  | loopCheck =>
    rw [act] at h
    split at h <;> cases h
    rename_i err hloop
    split
    · rename_i hdone
      exact .loopFound hloop hdone
    · rename_i hdone
      exact .loopCheck hloop (by simpa using hdone)
  | loopClose =>
    rw [act] at h
    split at h
    · rename_i err hloop
      split at h <;> cases h
      · rename_i hdone
        exact .loopPanic hloop hdone
      · rename_i hdone
        exact .loopClose hloop (by simpa using hdone)
    · cases h
  | receive =>
    rw [act] at h
    split at h <;> cases h
    rename_i err' err hloop hserved
    exact .receive hloop hserved
  | drop c =>
    obtain ⟨⟨hc, hdone⟩, rfl⟩ := guard_eq_some.mp h
    exact .drop hc hdone
  | connect c =>
    cases h
    exact .connect
  | fail err =>
    obtain ⟨hfail, rfl⟩ := guard_eq_some.mp h
    exact .fail hfail
  | head c =>
    obtain ⟨hc, rfl⟩ := guard_eq_some.mp h
    exact .head hc
  | hangup c =>
    obtain ⟨hc, rfl⟩ := guard_eq_some.mp h
    exact .hangup hc
  | shutdown =>
    rw [act] at h
    split at h <;> cases h
    · rename_i hinner
      exact .shutdownClose hinner
    · rename_i hinner
      exact .shutdown hinner

/-! ### Coming to rest -/

def Loop.rank : Loop → ℕ
  | .accepting => 4
  | .closing _ => 3
  | .checked _ => 2
  | .waiting _ => 1
  | .returned _ => 0

def Inner.rank : Inner → ℕ
  | .starting => 3
  | .accepting => 2
  | .exiting _ => 1
  | .exited => 0

def Closer.rank : Closer → ℕ
  | .idle => 3
  | .called => 2
  | .checked => 1
  | .finished => 0

/-- What is left to do for the parties by themselves. -/
def State.work (s : State) : ℕ :=
  s.queue.length + s.offered.length + s.loop.rank + s.inner.rank + s.closer.rank
    + if s.panicked then 0 else 1

theorem Closer.rank_call_le (closer : Closer) :
  closer.call.rank ≤ closer.rank
  := by
  cases closer <;> decide

/-- Every own action leaves less to do, so that the parties come to rest unless somebody from
outside acts. -/
theorem work_lt (hown : a.own = true) (h : step a s = some t) :
  t.work < s.work
  := by
  obtain ⟨hpanic, hacts⟩ := acts_of_step h
  clear h
  have hcall := s.closer.rank_call_le
  cases hacts with
  | innerStart h | innerSend h => simp [State.work, h, Inner.rank]
  | innerRefuse h | innerDone h =>
    simp only [State.work, h, Inner.rank]
    omega
  | innerReceive _ hc | drop hc =>
    have := List.length_erase_of_mem hc
    have := List.length_pos_of_mem hc
    simp only [State.work]
    omega
  | closerFound h | closerCheck h | closerClose h => simp [State.work, h, Closer.rank]
  | closerPanic | loopPanic => simp [State.work, hpanic]
  | accept hqueue =>
    simp only [State.work, hqueue, List.length_cons]
    omega
  | acceptFail h | loopFound h | loopCheck h | loopClose h | receive h =>
    simp [State.work, h, Loop.rank]
  | _ => cases hown

/-! ### What holds throughout -/

/-- What every run of `serve` keeps. -/
structure Inv (s : State) : Prop where
  failed : s.loop ≠ .accepting → s.failure.isSome = true
  finished : s.closer = .finished → s.done = true
  past : ∀ err, s.loop = .waiting err ∨ s.loop = .returned err → s.done = true
  idle : s.closer = .idle → s.inner = .starting ∨ s.inner = .accepting ∧ s.shut = false
  exited : s.inner = .exited → s.closer = .finished
    ∧ (s.served = none → ∃ err, s.loop = .returned err)
  result : ∀ err, s.served = some err ∨ s.loop = .returned err → s.inner = .exited
  panicked : s.panicked = true → s.done = true
    ∧ (s.closer = .checked ∨ ∃ err, s.loop = .checked err)

theorem Inv.init : Inv State.init := by
  constructor <;> simp [State.init]

@[simp]
theorem Closer.call_ne_idle (closer : Closer) :
  closer.call ≠ .idle
  := by
  cases closer <;> simp [call]

@[simp]
theorem Closer.call_eq_finished {closer : Closer} :
  closer.call = .finished ↔ closer = .finished
  := by
  cases closer <;> simp [call]

/-- The loop goes on, past `ln.Accept` and before its return. -/
theorem Inv.leave (hs : Inv s) {loop : Loop} {done : Bool} (hpanic : s.panicked = false)
    (hold : ∀ err, s.loop ≠ .returned err) (hfail : s.failure.isSome = true)
    (hret : ∀ err, loop ≠ .returned err)
    (hdone : s.done = true → done = true) (hpast : ∀ err, loop = .waiting err → done = true) :
  Inv { s with loop := loop, done := done }
  := by
  refine { hs with
    failed := fun _ => hfail, finished := fun h => hdone (hs.finished h), past := ?_,
    exited := ?_, result := ?_, panicked := ?_ }
  · rintro err (h | h)
    · exact hpast err h
    · exact absurd h (hret err)
  · intro hexit
    obtain ⟨h₁, h₂⟩ := hs.exited hexit
    refine ⟨h₁, fun hnone => ?_⟩
    obtain ⟨err, h⟩ := h₂ hnone
    exact absurd h (hold err)
  · rintro err (h | h)
    · exact hs.result err (.inl h)
    · exact absurd h (hret err)
  · intro h
    rw [hpanic] at h
    cases h

/-- `srv.Serve` is about to return, and has called `Close`. -/
theorem Inv.exit (hs : Inv s) (err : Err) (hpanic : s.panicked = false) (hne : s.inner ≠ .exited) :
  Inv { s with inner := .exiting err, closer := s.closer.call }
  := by
  refine { hs with
    finished := ?_, idle := ?_, exited := ?_, result := ?_, panicked := by simp [hpanic] }
  · exact fun h => hs.finished (Closer.call_eq_finished.mp h)
  · exact fun h => absurd h (Closer.call_ne_idle _)
  · exact Inner.noConfusion
  · exact fun err h => absurd (hs.result err h) hne

/-- Every action keeps the invariant. -/
theorem Inv.step (h : step a s = some t) (hs : Inv s) :
  Inv t
  := by
  obtain ⟨hpanic, hacts⟩ := acts_of_step h
  clear h
  have hrun : ∀ {P : Prop}, s.panicked = true → P := by
    intro P h
    rw [hpanic] at h
    cases h
  cases hacts with
  | innerStart h hshut =>
    have hne : s.inner ≠ .exited := by simp [h]
    refine { hs with idle := ?_, exited := ?_, result := ?_ }
    · exact fun _ => .inr ⟨rfl, hshut⟩
    · exact Inner.noConfusion
    · exact fun err h => absurd (hs.result err h) hne
  | innerRefuse h | innerDone h => exact hs.exit _ hpanic (by simp [h])
  | innerSend h hcloser =>
    refine { hs with idle := ?_, exited := ?_, result := ?_ }
    · exact fun hidle => absurd hidle (by simp [hcloser])
    · exact fun _ => ⟨hcloser, fun h => by cases h⟩
    · exact fun _ _ => rfl
  | closerFound h hdone =>
    refine { hs with finished := fun _ => hdone, idle := ?_, exited := ?_, panicked := hrun }
    · exact Closer.noConfusion
    · exact fun hexit => ⟨rfl, (hs.exited hexit).2⟩
  | closerCheck h hdone =>
    refine { hs with finished := ?_, idle := ?_, exited := ?_, panicked := hrun }
    · exact Closer.noConfusion
    · exact Closer.noConfusion
    · exact fun hexit => absurd (hs.exited hexit).1 (by simp [h])
  | closerClose h hdone =>
    refine { hs with
      finished := fun _ => rfl, past := fun _ _ => rfl, idle := ?_, exited := ?_,
      panicked := hrun }
    · exact Closer.noConfusion
    · exact fun hexit => ⟨rfl, (hs.exited hexit).2⟩
  | closerPanic h hdone => exact { hs with panicked := fun _ => ⟨hdone, .inl h⟩ }
  | loopPanic h hdone => exact { hs with panicked := fun _ => ⟨hdone, .inr ⟨_, h⟩⟩ }
  | acceptFail h hfail =>
    exact hs.leave hpanic (by simp [h]) (by simp [hfail]) (by simp) id (by simp)
  | loopFound h hdone =>
    exact hs.leave hpanic (by simp [h]) (hs.failed (by simp [h])) (by simp) id (by simp [hdone])
  | loopCheck h hdone =>
    exact hs.leave hpanic (by simp [h]) (hs.failed (by simp [h])) (by simp) id (by simp)
  | loopClose h hdone =>
    exact hs.leave hpanic (by simp [h]) (hs.failed (by simp [h])) (by simp) (fun _ => rfl)
      (by simp)
  | receive h hserved =>
    have hexit := hs.result _ (.inl hserved)
    refine { hs with
      failed := ?_, past := ?_, exited := ?_, result := ?_, panicked := hrun }
    · exact fun _ => hs.failed (by simp [h])
    · exact fun _ _ => hs.past _ (.inl h)
    · exact fun _ => ⟨(hs.exited hexit).1, fun _ => ⟨_, rfl⟩⟩
    · exact fun _ _ => hexit
  | shutdown h =>
    refine { hs with idle := ?_ }
    intro hidle
    rcases hs.idle hidle with h' | ⟨h', -⟩
    · exact .inl h'
    · exact absurd h' h
  | shutdownClose h =>
    refine { hs with finished := ?_, idle := ?_, exited := ?_, panicked := hrun }
    · exact fun h => hs.finished (Closer.call_eq_finished.mp h)
    · exact fun h => absurd h (Closer.call_ne_idle _)
    · exact fun hexit => absurd hexit (by simp [h])
  | fail h => exact { hs with failed := fun _ => rfl }
  | _ => exact { hs with }

/-- What `serve` returns is settled: it has returned, or `srv.Serve` has. -/
def State.Ended (s : State) (err : Err) : Prop :=
  match s.loop with
  | .returned e => e = err
  | _ => s.served = some err ∨ s.inner = .exiting err

variable {err : Err}

/-- It stays settled. -/
theorem State.Ended.step (h : step a s = some t) (hs : Inv s) (hend : s.Ended err) :
  t.Ended err
  := by
  have hresult := hs.result
  cases (acts_of_step h).2 <;> simp only [Ended] at hend ⊢ <;> grind

theorem State.Ended.exec {as : List Action} (h : exec HttpServer.step as s = some t) (hs : Inv s)
    (hend : s.Ended err) :
  t.Ended err
  := (exec_inv (P := fun s => Inv s ∧ s.Ended err)
    (fun _ _ _ h hs => ⟨hs.1.step h, hs.2.step h hs.1⟩) h ⟨hs, hend⟩).2

/-- After a shutdown, nothing but `ErrServerClosed` is settled anew. -/
theorem State.Ended.of_step (h : HttpServer.step a s = some t) (hshut : s.shut = true)
    (hend : t.Ended err) :
  s.Ended err ∨ err = .serverClosed
  := by
  cases (acts_of_step h).2 <;> simp only [Ended] at hend ⊢ <;> grind [State.serveErr]

/-- What holds after a shutdown before which nothing else was settled: from then on every result is
`ErrServerClosed`. -/
structure Shut (s : State) : Prop where
  shut : s.shut = true
  ended : ∀ err, s.Ended err → err = .serverClosed

theorem Shut.of_shutdown (hend : ∀ err, s.Ended err → err = .serverClosed)
    (hstep : step .shutdown s = some t) :
  Shut t
  := by
  cases (acts_of_step hstep).2 with
  | shutdown | shutdownClose => exact ⟨rfl, hend⟩

theorem Shut.step (hstep : step a s = some t) (hs : Shut s) :
  Shut t
  := by
  refine ⟨?_, fun err hend => (hend.of_step hstep hs.shut).elim (hs.ended err) id⟩
  cases (acts_of_step hstep).2 with
  | shutdown | shutdownClose => rfl
  | _ => exact hs.shut

/-! ### When `Serve` stops -/

/-- From here on `serve` accepts nothing and returns `http.ErrServerClosed`, whatever clients
and the listener do and in whatever order the parties act: at any later point the parties come
to rest if they are left alone, and then `serve` has returned. -/
def Stops (s : State) : Prop :=
  ∀ as t, exec step as s = some t →
    t.accepted = s.accepted
    ∧ (∃ n, ∀ bs u, (∀ b ∈ bs, b.own = true) → exec step bs t = some u → bs.length ≤ n)
    ∧ ∀ bs u, (∀ b ∈ bs, b.own = true) → exec step bs t = some u →
        Quiet step (fun b => b.own = true) u → u.loop = .returned .serverClosed

/-- The loop is about to close the `chanListener`, which it has found open. -/
def Loop.isChecked : Loop → Bool
  | .checked _ => true
  | _ => false

/-- The listener has failed, and the `chanListener` has been closed with no call of its `Close`
about to close it again. -/
def State.clear (s : State) : Bool :=
  s.failure.isSome && s.done && s.closer != .checked && !s.loop.isChecked

theorem State.clear_iff :
  s.clear = true ↔ s.failure.isSome = true ∧ s.done = true ∧ s.closer ≠ .checked
    ∧ s.loop.isChecked = false
  := by
  simp [clear, and_assoc]

/-- Once it is so it stays so, and nothing is accepted. -/
theorem clear_step (hstep : step a s = some t) (hs : s.clear = true) :
  t.clear = true ∧ t.accepted = s.accepted
  := by
  rw [State.clear_iff] at hs
  obtain ⟨hfail, hdone, hcloser, hloop⟩ := hs
  have hcall : s.closer.call ≠ .checked := by
    cases hc : s.closer <;> simp_all [Closer.call]
  rw [State.clear_iff]
  cases (acts_of_step hstep).2 with
  | innerRefuse | innerDone | shutdownClose => exact ⟨⟨hfail, hdone, hcall, hloop⟩, rfl⟩
  | closerFound => exact ⟨⟨hfail, hdone, by simp, hloop⟩, rfl⟩
  | closerCheck _ h | loopCheck _ h => exact absurd hdone (by simp [h])
  | closerClose h | closerPanic h => exact absurd h hcloser
  | accept _ _ h => exact absurd hfail (by simp [h])
  | acceptFail | loopFound | receive => exact ⟨⟨hfail, hdone, hcloser, rfl⟩, rfl⟩
  | loopClose h | loopPanic h => exact absurd hloop (by simp [h, Loop.isChecked])
  | fail => exact ⟨⟨rfl, hdone, hcloser, hloop⟩, rfl⟩
  | _ => exact ⟨⟨hfail, hdone, hcloser, hloop⟩, rfl⟩

/-- At rest, `serve` has returned: in every other place of the loop there is an action left. -/
theorem returned_of_quiet (hs : Inv s) (hshut : Shut s) (hclear : s.clear = true)
    (hquiet : Quiet step (fun b => b.own = true) s) :
  s.loop = .returned .serverClosed
  := by
  obtain ⟨hfail, hdone, hcloser, hloop⟩ := State.clear_iff.mp hclear
  have hrun : s.panicked = false := by
    by_contra h
    rcases (hs.panicked (by simpa using h)).2 with h | ⟨err, h⟩
    · exact hcloser h
    · simp [h, Loop.isChecked] at hloop
  have hact : ∀ a, a.own = true → act a s = none := by
    intro a ha
    have := hquiet a ha
    rwa [step, if_neg (by simp [hrun])] at this
  cases h : s.loop with
  | accepting =>
    obtain ⟨err, herr⟩ := Option.isSome_iff_exists.mp hfail
    have := hact .acceptFail rfl
    simp [act, herr, h] at this
  | closing err =>
    have := hact .loopCheck rfl
    simp [act, h] at this
  | checked err => simp [h, Loop.isChecked] at hloop
  | returned err => rw [hshut.ended err (by rw [State.Ended, h])]
  | waiting err =>
    -- the loop waits for the goroutine of `srv.Serve`, which is not done either
    exfalso
    cases hin : s.inner with
    | starting =>
      have := hact .innerStart rfl
      simp [act, hin, hshut.shut] at this
    | accepting =>
      have := hact .innerDone rfl
      simp [act, hin, hdone] at this
    | exiting e =>
      cases hc : s.closer with
      | idle =>
        rcases hs.idle hc with h' | ⟨h', -⟩
        · simp [hin] at h'
        · simp [hin] at h'
      | called =>
        have := hact .closerCheck rfl
        simp [act, hc] at this
      | checked => exact hcloser hc
      | finished =>
        have := hact .innerSend rfl
        simp [act, hin, hc] at this
    | exited =>
      cases hv : s.served with
      | none =>
        obtain ⟨e, he⟩ := (hs.exited hin).2 hv
        simp [h] at he
      | some e =>
        have := hact .receive rfl
        simp [act, h, hv] at this

theorem stops_of_clear (hs : Inv s) (hshut : Shut s) (hclear : s.clear = true) :
  Stops s
  := by
  intro as t hexec
  have hkeep : ∀ a u v, step a u = some v →
      (Inv u ∧ Shut u ∧ u.clear = true ∧ u.accepted = s.accepted) →
      Inv v ∧ Shut v ∧ v.clear = true ∧ v.accepted = s.accepted := by
    rintro a u v hstep ⟨h₁, h₂, h₃, h₄⟩
    obtain ⟨h₅, h₆⟩ := clear_step hstep h₃
    exact ⟨h₁.step hstep, h₂.step hstep, h₅, h₆.trans h₄⟩
  obtain ⟨h₁, h₂, h₃, h₄⟩ := exec_inv hkeep hexec ⟨hs, hshut, hclear, rfl⟩
  refine ⟨h₄, ⟨t.work, ?_⟩, ?_⟩
  · intro bs u hown hexec'
    have := length_le_of_exec (fun a s t hown hstep => work_lt hown hstep) hown hexec'
    omega
  · intro bs u _ hexec' hquiet
    obtain ⟨h₁, h₂, h₃, -⟩ := exec_inv hkeep hexec' ⟨h₁, h₂, h₃, h₄⟩
    exact returned_of_quiet h₁ h₂ h₃ hquiet

theorem Stops.step (hstep : step a s = some t) (hs : Stops s) :
  Stops t
  := by
  have hacc := (hs [a] t (exec_single hstep)).1
  intro as u hexec
  obtain ⟨h₁, h₂, h₃⟩ := hs (a :: as) u (exec_cons.mpr ⟨t, hstep, hexec⟩)
  exact ⟨h₁.trans hacc.symm, h₂, h₃⟩

/-- A panic is not a return. -/
theorem Stops.panicked_eq (hs : Stops s) (hinv : Inv s) :
  s.panicked = false
  := by
  by_contra h
  have hpanic : s.panicked = true := by simpa using h
  have hquiet : Quiet HttpServer.step (fun b => b.own = true) s := by
    intro a _
    rw [HttpServer.step, if_pos hpanic]
  have hret := (hs [] s rfl).2.2 [] s (by simp) rfl hquiet
  rcases (hinv.panicked hpanic).2 with hc | ⟨err, hc⟩
  · have := (hinv.exited (hinv.result _ (.inr hret))).1
    rw [hc] at this
    cases this
  · rw [hret] at hc
    cases hc

/-- While the program runs, an action does what `act` says. -/
theorem step_eq (h : s.panicked = false) (a : Action) :
  step a s = act a s
  := by
  rw [step, if_neg (by simp [h])]

/-- If `serve` stops, no call of `Close` is about to close a closed channel. -/
theorem Stops.not_checked (hs : Stops s) (hinv : Inv s) (hdone : s.done = true) :
  s.closer ≠ .checked ∧ s.loop.isChecked = false
  := by
  have hstep := step_eq (hs.panicked_eq hinv)
  constructor
  · intro h
    have hp : HttpServer.step .closerClose s = some { s with panicked := true } := by
      rw [hstep, act, if_pos h, if_pos hdone]
    have := (hs.step hp).panicked_eq (hinv.step hp)
    cases this
  · cases h : s.loop with
    | checked err =>
      have hp : HttpServer.step .loopClose s = some { s with panicked := true } := by
        rw [hstep, act, h]
        exact if_pos hdone
      have := (hs.step hp).panicked_eq (hinv.step hp)
      cases this
    | _ => rfl

/-- If `serve` stops, the listener has failed: else it would accept the next connection. -/
theorem Stops.failure_isSome (hs : Stops s) (hinv : Inv s) :
  s.failure.isSome = true
  := by
  by_contra h
  have hfail : s.failure = none := by simpa using h
  have hloop : s.loop = .accepting := by
    by_contra hloop
    exact h (hinv.failed hloop)
  have hrun := hs.panicked_eq hinv
  have h₁ : HttpServer.step (.connect 0) s = some { s with queue := s.queue ++ [0] } := by
    rw [step_eq hrun, act]
  obtain ⟨c, queue, hqueue⟩ : ∃ c queue, s.queue ++ [0] = c :: queue := by
    cases s.queue with
    | nil => exact ⟨0, [], rfl⟩
    | cons c queue => exact ⟨c, queue ++ [0], rfl⟩
  have h₂ : HttpServer.step .accept { s with queue := s.queue ++ [0] }
      = some { s with queue := queue, accepted := c :: s.accepted, reading := c :: s.reading } := by
    rw [step_eq (s := { s with queue := s.queue ++ [0] }) hrun, hqueue]
    exact if_pos ⟨hloop, hfail⟩
  have := ((hs.step h₁) [.accept] _ (exec_single h₂)).1
  simp at this

section Race

variable {s : State} (hs : Stops s) (hinv : Inv s)
include hs hinv

/-- Two calls of `Close` have both found the channel open. -/
theorem Stops.not_both_checked (hdone : s.done = false) (hcloser : s.closer = .checked) {err : Err}
    (hloop : s.loop = .checked err) :
  False
  := by
  have hstep : HttpServer.step .loopClose s
      = some { s with loop := .waiting err, done := true } := by
    rw [step_eq (hs.panicked_eq hinv), act, hloop]
    exact if_neg (by simp [hdone])
  exact ((hs.step hstep).not_checked (hinv.step hstep) rfl).1 hcloser

/-- The loop is about to close the channel, and so may `http.Server` be. -/
theorem Stops.not_loop_checked (hshut : Shut s) (hdone : s.done = false) {err : Err}
    (hloop : s.loop = .checked err) :
  False
  := by
  have hcalled : ∀ {t : State}, Stops t → Inv t → t.done = false → t.loop = .checked err →
      t.closer = .called → False := by
    intro t ht htinv htdone htloop htcloser
    have hstep : HttpServer.step .closerCheck t = some { t with closer := .checked } := by
      rw [step_eq (ht.panicked_eq htinv), act, if_pos htcloser, if_neg (by simp [htdone])]
    exact (ht.step hstep).not_both_checked (htinv.step hstep) htdone rfl htloop
  cases hcloser : s.closer with
  | idle =>
    -- `srv.Serve` has not started, and will close the `chanListener` when it does
    have hinner : s.inner = .starting := by
      rcases hinv.idle hcloser with h | ⟨-, h⟩
      · exact h
      · rw [hshut.shut] at h
        cases h
    have hstep : HttpServer.step .innerStart s
        = some { s with inner := .exiting .serverClosed, closer := .called } := by
      rw [step_eq (hs.panicked_eq hinv), act, if_pos hinner, if_pos hshut.shut, hcloser]
      rfl
    exact hcalled (hs.step hstep) (hinv.step hstep) hdone hloop rfl
  | called => exact hcalled hs hinv hdone hloop hcloser
  | checked => exact hs.not_both_checked hinv hdone hcloser hloop
  | finished =>
    have := hinv.finished hcloser
    rw [hdone] at this
    cases this

/-- If `serve` stops, the `chanListener` is closed: else the two calls of `Close` could get in
each other's way. -/
theorem Stops.done_eq (hshut : Shut s) :
  s.done = true
  := by
  by_contra h
  have hdone : s.done = false := by simpa using h
  have hclosing : ∀ {t : State} {err : Err}, Stops t → Inv t → Shut t → t.done = false →
      t.loop = .closing err → False := by
    intro t err ht htinv htshut htdone htloop
    have hstep : HttpServer.step .loopCheck t = some { t with loop := .checked err } := by
      rw [step_eq (ht.panicked_eq htinv), act, htloop]
      simp [htdone]
    exact (ht.step hstep).not_loop_checked (htinv.step hstep) (htshut.step hstep) htdone rfl
  cases hloop : s.loop with
  | accepting =>
    obtain ⟨err, hfail⟩ := Option.isSome_iff_exists.mp (hs.failure_isSome hinv)
    have hstep : HttpServer.step .acceptFail s = some { s with loop := .closing err } := by
      rw [step_eq (hs.panicked_eq hinv), act, hfail]
      exact if_pos hloop
    exact hclosing (hs.step hstep) (hinv.step hstep) (hshut.step hstep) hdone rfl
  | closing err => exact hclosing hs hinv hshut hdone hloop
  | checked err => exact hs.not_loop_checked hinv hshut hdone hloop
  | waiting err => exact h (hinv.past err (.inl hloop))
  | returned err => exact h (hinv.past err (.inr hloop))

end Race

/-- If `serve` stops, nothing but `ErrServerClosed` is settled. -/
theorem Stops.ended_eq (hs : Stops s) (hinv : Inv s) (hend : s.Ended err) :
  err = .serverClosed
  := by
  obtain ⟨as, u, hown, hexec, hquiet⟩ := exists_quiet (fun a s t ha h => work_lt ha h) s
  have hret := (hs [] s rfl).2.2 as u hown hexec hquiet
  have hu := hend.exec hexec hinv
  rw [State.Ended, hret] at hu
  exact hu.symm

/-- After `srv.Shutdown` or `srv.Close` has been called, `serve` stops if and only if its own
listener has failed and the `chanListener` has been closed with no second call of `Close` under way,
and `srv.Serve` had not ended by itself before.  The shutdown by itself does not reach the loop. -/
theorem stops_iff_clear (before after : List Action) (s₀ s₁ s : State)
    (hbefore : exec step before State.init = some s₀)
    (hshutdown : step .shutdown s₀ = some s₁) (hafter : exec step after s₁ = some s) :
  Stops s ↔ s.clear = true ∧ ∀ err, s₀.Ended err → err = .serverClosed
  := by
  have hinv₀ : Inv s₀ := exec_inv (fun _ _ _ h hs => hs.step h) hbefore Inv.init
  have hinv₁ := hinv₀.step hshutdown
  have hinv : Inv s := exec_inv (fun _ _ _ h hs => hs.step h) hafter hinv₁
  have hshut : (∀ err, s₀.Ended err → err = .serverClosed) → Shut s := fun hend =>
    exec_inv (fun _ _ _ h hs => hs.step h) hafter (Shut.of_shutdown hend hshutdown)
  constructor
  · intro hs
    have hend : ∀ err, s₀.Ended err → err = .serverClosed := fun err hend =>
      hs.ended_eq hinv ((hend.step hshutdown hinv₀).exec hafter hinv₁)
    have hdone := hs.done_eq hinv (hshut hend)
    obtain ⟨hcloser, hchecked⟩ := hs.not_checked hinv hdone
    exact ⟨State.clear_iff.mpr ⟨hs.failure_isSome hinv, hdone, hcloser, hchecked⟩, hend⟩
  · rintro ⟨hclear, hend⟩
    exact stops_of_clear hinv (hshut hend) hclear

/-- The listener is closed after the shutdown is through, and `serve` stops. -/
theorem stops_iff_clear_closed :
  ∃ s, exec step [.innerStart, .connect 7, .accept, .shutdown, .closerCheck, .closerClose,
      .innerDone, .innerSend, .fail .accept] State.init = some s ∧ Stops s
  := by
  refine ⟨_, rfl, ?_⟩
  apply (stops_iff_clear [.innerStart, .connect 7, .accept]
    [.closerCheck, .closerClose, .innerDone, .innerSend, .fail .accept] _ _ _ rfl rfl rfl).mpr
  refine ⟨rfl, ?_⟩
  rintro err (h | h) <;> cases h

/-- The server has been shut down and all of it has come to rest, but the loop is still in
`ln.Accept`: `serve` has not returned and would accept the next connection. -/
theorem accepting_after_shutdown :
  ∃ s, exec step [.innerStart, .shutdown, .closerCheck, .closerClose, .innerDone, .innerSend]
      State.init = some s
    ∧ s.shut = true ∧ s.loop = .accepting ∧ Quiet step (fun b => b.own = true) s
    ∧ (∃ t, exec step [.connect 7, .accept] s = some t ∧ t.accepted = [7]) ∧ ¬ Stops s
  := by
  refine ⟨_, rfl, rfl, rfl, ?_, ⟨_, rfl, rfl⟩, ?_⟩
  · intro a ha
    cases a with
    | innerReceive c | drop c => rfl
    | connect c | fail err | head c | hangup c | shutdown => cases ha
    | _ => rfl
  · intro hs
    have := (hs [.connect 7, .accept] _ rfl).1
    cases this

end HttpServer
