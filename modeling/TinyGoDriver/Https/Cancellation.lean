import TinyGoDriver.Https.Transport

/-!
# Cancelling a request whose body has been closed

The `select` of a watcher has nothing to choose between the cancellation and the channel `done`
when it finds both ready.  A watcher that has not run since its request ended can therefore
close the connection of the request when the request is cancelled long after, and the connection
may by then be idle or serve another request.

It cannot if every watcher has left its `select` before a cancellation that comes after `Close`.
-/

namespace Https

open Interleaving

/-- A call and its watchers: one that has closed the connection did so for a cancellation, and
one whose request was cancelled after `Close` had closed nothing by then and is not waiting. -/
structure Calm (phase : Phase) (q : Call) : Prop where
  cancelled : ∀ w ∈ q.watchers, w.status = .closed → q.cancelled = true
  late : q.late = true → phase = .closed ∧ q.cancelled = true
    ∧ ∀ w ∈ q.watchers, w.status = .exited

variable {phase : Phase} {q : Call} {t : Transport}

/-- The call goes on, and no watcher has done anything. -/
theorem Calm.go {phase' : Phase} {q' : Call} (h : Calm phase q) (hphase : phase ≠ .closed)
    (hcancelled : q'.cancelled = q.cancelled) (hlate : q'.late = q.late)
    (hwatchers : ∀ w ∈ q'.watchers, w.status = .closed → ∃ w' ∈ q.watchers, w'.status = .closed) :
  Calm phase' q'
  := by
  constructor
  · intro w hw hclosed
    obtain ⟨w', hw', hclosed'⟩ := hwatchers w hw hclosed
    rw [hcancelled]
    exact h.cancelled w' hw' hclosed'
  · intro hl
    rw [hlate] at hl
    exact absurd (h.late hl).1 hphase

theorem Calm.of (phase : Phase) (req : Req) :
  Calm phase (Call.of req)
  := ⟨by simp [Call.of], by simp [Call.of]⟩

/-- Starting and stopping a watcher closes nothing. -/
theorem Works.watchers {r pc : ℕ} {a : Work} {q' : Call} {stage stage' : Stage} {c c' : Conn}
    (h : Works t r pc a (q, stage, c) (q', stage', c')) :
  q'.cancelled = q.cancelled ∧ q'.late = q.late
    ∧ ∀ w ∈ q'.watchers, w.status = .closed → ∃ w' ∈ q.watchers, w'.status = .closed
  := by
  have hstop : q.stop.cancelled = q.cancelled ∧ q.stop.late = q.late
      ∧ ∀ w ∈ q.stop.watchers, w.status = .closed → ∃ w' ∈ q.watchers, w'.status = .closed := by
    rw [Call.stop]
    cases hq : q.watchers with
    | nil => simp [hq]
    | cons w ws =>
      refine ⟨rfl, rfl, fun v hv hclosed => ?_⟩
      rcases List.mem_cons.mp hv with rfl | hv
      · exact ⟨w, List.mem_cons_self, hclosed⟩
      · exact ⟨v, List.mem_cons_of_mem w hv, hclosed⟩
  have hwatch : (q.watch pc).cancelled = q.cancelled ∧ (q.watch pc).late = q.late
      ∧ ∀ w ∈ (q.watch pc).watchers, w.status = .closed →
        ∃ w' ∈ q.watchers, w'.status = .closed := by
    rw [Call.watch]
    split
    · refine ⟨rfl, rfl, fun v hv hclosed => ?_⟩
      rcases List.mem_cons.mp hv with rfl | hv
      · cases hclosed
      · exact ⟨v, hv, hclosed⟩
    · exact ⟨rfl, rfl, fun w hw hclosed => ⟨w, hw, hclosed⟩⟩
  cases h with
  | start => exact hwatch
  | stop | unwatch => exact hstop
  | _ => exact ⟨rfl, rfl, fun w hw hclosed => ⟨w, hw, hclosed⟩⟩

/-- A watcher leaves its `select`, which it does not do after a late cancellation. -/
theorem Calm.set (h : Calm phase q) {k : ℕ} {w w' : Watcher} (hw : q.watchers[k]? = some w)
    (hwaiting : w.status = .waiting) (hclosed : w'.status = .closed → q.cancelled = true) :
  Calm phase { q with watchers := q.watchers.set k w' }
  := by
  have hmem : w ∈ q.watchers := List.mem_of_getElem? hw
  constructor
  · intro v hv hv'
    rcases List.mem_or_eq_of_mem_set hv with hv | rfl
    · exact h.cancelled v hv hv'
    · exact hclosed hv'
  · intro hlate
    have := (h.late hlate).2.2 w hmem
    rw [hwaiting] at this
    cases this

/-- The request is cancelled, and if `Close` has returned no watcher is waiting. -/
theorem Calm.cancel (h : Calm phase q)
    (hwaiting : phase = .closed → ∀ w ∈ q.watchers, w.status ≠ .waiting) :
  Calm phase (q.cancel (phase == .closed))
  := by
  constructor
  · exact fun _ _ _ => rfl
  intro hlate
  rw [Call.cancel] at hlate
  simp only [Bool.or_eq_true, Bool.and_eq_true, beq_iff_eq, Bool.not_eq_true'] at hlate
  rcases hlate with hlate | ⟨hphase, hnot⟩
  · obtain ⟨hphase, -, hexited⟩ := h.late hlate
    exact ⟨hphase, rfl, hexited⟩
  refine ⟨hphase, rfl, fun w hw => ?_⟩
  cases hstatus : w.status with
  | waiting => exact absurd hstatus (hwaiting hphase w hw)
  | exited => rfl
  | closed =>
    rw [h.cancelled w hw hstatus] at hnot
    cases hnot

/-- A cancellation that comes after `Close` has returned finds no watcher of the request in its
`select`. -/
def Orderly (a : Action) (s : State) : Prop :=
  match a with
  | .cancel r => s.phase r = .closed → ∀ w ∈ (s.call r).watchers, w.status ≠ .waiting
  | _ => True

theorem calm_move {s : State} (hs : ∀ r, Calm (s.phase r) (s.call r)) {r : ℕ} (h : Calm phase q)
    (r' : ℕ) :
  Calm ((s.move r phase q).phase r') ((s.move r phase q).call r')
  := by
  rcases eq_or_ne r' r with rfl | hne
  · simpa using h
  · simpa [hne] using hs r'

theorem calm_step {a : Action} {s s' : State} (horderly : Orderly a s)
    (hstep : step t a s = some s') (hs : ∀ r, Calm (s.phase r) (s.call r)) :
  ∀ r, Calm (s'.phase r) (s'.call r)
  := by
  -- a call that moves on without its watchers
  have hgo : ∀ {r : ℕ} {phase' : Phase} {q : Call}, s.phase r ≠ .closed →
      q.cancelled = (s.call r).cancelled → q.late = (s.call r).late →
      q.watchers = (s.call r).watchers →
      ∀ r', Calm ((s.move r phase' q).phase r') ((s.move r phase' q).call r') := by
    intro r phase' q hphase hcancelled hlate hwatchers
    refine calm_move hs ((hs r).go hphase hcancelled hlate fun w hw hclosed => ?_)
    exact ⟨w, hwatchers ▸ hw, hclosed⟩
  cases acts_of_step hstep with
  | start => exact calm_move hs (.of _ _)
  | getBodyFails h | leaseNone h | leaseMiss h | leaseHit h | dial h | dialFails h | abandon h
  | retry h | giveUp h | put h | putRefused h | drop h => exact hgo (by simp [h]) rfl rfl rfl
  | work h hwork =>
    obtain ⟨hcancelled, hlate, hwatchers⟩ := hwork.watchers
    exact calm_move hs ((hs _).go (by simp [h]) hcancelled hlate hwatchers)
  | fire hw hwaiting hcancelled =>
    exact calm_move hs ((hs _).set hw hwaiting fun _ => hcancelled)
  | leave hw hwaiting => exact calm_move hs ((hs _).set hw hwaiting nofun)
  | cancel => exact calm_move hs ((hs _).cancel horderly)
  | closeIdle | closeDetached | reply | hangUp | tick => exact hs

/-- If cancellations that come after `Close` find no watcher in its `select`, none of them
closes a connection. -/
theorem late_cancel_closes_nothing (t : Transport) (as : List Action) (s : State)
    (horderly : Along (step t) Orderly as State.init)
    (hexec : exec (step t) as State.init = some s) :
  ∀ r, (s.call r).late = true → ∀ w ∈ (s.call r).watchers, w.status ≠ .closed
  := by
  have hcalm : ∀ r, Calm (s.phase r) (s.call r) :=
    exec_inv_along
      (fun _ _ _ horderly hstep hs => calm_step horderly hstep hs) horderly hexec
      fun _ => .of _ _
  intro r hlate w hw hclosed
  rw [((hcalm r).late hlate).2.2 w hw] at hclosed
  cases hclosed

/-- The watcher of the request leaves its `select`, and then the request is cancelled. -/
theorem late_cancel_closes_nothing_left :
  ∃ s, exec (step defaultTransport) (answered 0 0 plainGet noContent ++ [.leave 0 0, .cancel 0])
      State.init = some s
    ∧ (s.call 0).late = true ∧ ∀ w ∈ (s.call 0).watchers, w.status ≠ .closed
  := by
  refine ⟨_, rfl, rfl, ?_⟩
  refine late_cancel_closes_nothing defaultTransport
    (answered 0 0 plainGet noContent ++ [.leave 0 0, .cancel 0]) _ ?_ rfl 0 rfl
  refine along_append (along_of_forall (by simp [answered, Orderly]) _) rfl ⟨trivial, ?_⟩
  intro u hu
  cases hu
  exact ⟨fun _ => by decide, fun _ _ => trivial⟩

/-- The watcher of the first request has not run when the request is cancelled, after its body
was closed; it closes the connection, which by then serves the second request. -/
theorem late_cancel_closes_busy_connection :
  ∃ s s', exec (step defaultTransport) (answered 0 0 plainGet noContent
      ++ [.start 1 plainGet, .lease 1, .work 1 .start, .work 1 .flush]) State.init = some s
    ∧ s.phase 0 = .closed ∧ (s.call 0).cancelled = false
    ∧ s.phase 1 = .holding 0 .awaiting ∧ (s.conns 0).broken = false
    ∧ exec (step defaultTransport) [.cancel 0, .fire 0 0] s = some s'
    ∧ (s'.call 0).late = true ∧ (s'.call 0).watchers.map Watcher.status = [.closed]
    ∧ s'.phase 1 = .holding 0 .awaiting ∧ (s'.conns 0).broken = true
  := ⟨_, _, rfl, rfl, rfl, rfl, rfl, rfl, rfl, rfl, rfl, rfl⟩

end Https
