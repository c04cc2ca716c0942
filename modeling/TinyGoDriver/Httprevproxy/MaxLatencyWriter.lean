import Mathlib.Algebra.Order.Group.Int
import TinyGoDriver.Lib.Interleaving

/-!
# Flushing a proxied response

A `maxLatencyWriter` passes on what is written to it and flushes it a latency later: `Write` arms a
timer, and when that fires, `delayedFlush` is called in a goroutine of its own.  A negative latency
means a `Flush` in every `Write`.  `Write`, `delayedFlush` and `stop` hold a mutex.

They are called at any time, by anyone.  A call is cut where it has taken the mutex and where
`dst.Write` or `Flush` returns.  The main result is `flush_within_latency`.
-/

namespace Httprevproxy

open Interleaving

structure MaxLatencyWriter where
  latency : ℤ
  /-- whether it is locked -/
  mu : Bool
  /-- how long it still has to run, if it is armed -/
  timer : Option ℕ
  stopped : Bool
  pending : Bool
  /-- bytes have been written since the last `Flush` -/
  unflushed : Bool
  /-- the calls of `Write` that are in `dst.Write` -/
  writing : ℕ
  /-- the calls of `Write` that are in `Flush` -/
  direct : ℕ
  /-- the calls of `delayedFlush` that wait for the mutex -/
  fired : ℕ
  /-- the calls of `delayedFlush` that are in `Flush` -/
  flushing : ℕ

def newMaxLatencyWriter (latency : ℤ) : MaxLatencyWriter :=
  { latency := latency, mu := false
    timer := if latency < 0 then none else some latency.toNat
    stopped := false, pending := !decide (latency < 0), unflushed := false
    writing := 0, direct := 0, fired := 0, flushing := 0 }

inductive Action where
  /-- `Write` takes the mutex -/
  | write
  /-- `dst.Write` returns, having written so many bytes -/
  | wrote (n : ℕ)
  /-- `Flush` returns in `Write` -/
  | flushed
  /-- the timer fires -/
  | fire
  /-- `delayedFlush` takes the mutex -/
  | delayedFlush
  /-- `Flush` returns in `delayedFlush` -/
  | delayedFlushed
  | stop
  /-- time passes -/
  | wait (d : ℕ)

/-- What `Write` does behind `dst.Write`. -/
def MaxLatencyWriter.goOn (w : MaxLatencyWriter) : MaxLatencyWriter :=
  if w.latency < 0 then
    { w with direct := w.direct + 1 }
  else if !w.pending && !w.stopped then
    { w with mu := false, pending := true, timer := some w.latency.toNat }
  else
    { w with mu := false }

/-- What `delayedFlush` does with the mutex. -/
def MaxLatencyWriter.callBack (w : MaxLatencyWriter) : MaxLatencyWriter :=
  if w.stopped then w else { w with mu := true, flushing := w.flushing + 1 }

def step (a : Action) (w : MaxLatencyWriter) : Option MaxLatencyWriter :=
  match a with
  | .write => if w.mu = false then some { w with mu := true, writing := w.writing + 1 } else none
  | .wrote n =>
    if 0 < w.writing then
      some { w.goOn with writing := w.writing - 1, unflushed := w.unflushed || decide (0 < n) }
    else none
  | .flushed =>
    if 0 < w.direct then
      some { w with mu := false, direct := w.direct - 1, unflushed := false }
    else none
  | .fire =>
    if w.timer = some 0 then some { w with timer := none, fired := w.fired + 1 } else none
  | .delayedFlush =>
    if w.mu = false ∧ 0 < w.fired then some { w.callBack with fired := w.fired - 1 } else none
  | .delayedFlushed =>
    if 0 < w.flushing then
      some { w with mu := false, flushing := w.flushing - 1, pending := false, unflushed := false }
    else none
  | .stop => if w.mu = false then some { w with stopped := true, timer := none } else none
  | .wait d => some { w with timer := w.timer.map (· - d) }

variable {latency : ℤ} {w w' : MaxLatencyWriter}

/-- What holds after any actions if the latency is positive. -/
structure Inv (latency : ℤ) (w : MaxLatencyWriter) : Prop where
  same : w.latency = latency
  direct : w.direct = 0
  mutex : w.writing + w.flushing = if w.mu then 1 else 0
  timer : ∀ t ∈ w.timer, (t : ℤ) ≤ latency
  pending : w.unflushed = true → w.stopped = false → w.pending = true
  /-- `pending` is only reset by the call that the timer has made. -/
  armed : w.pending = true → w.stopped = false → w.timer ≠ none ∨ 0 < w.fired ∨ 0 < w.flushing
  stopped : w.stopped = true → w.flushing = 0

theorem inv_new (hpos : 0 < latency) :
  Inv latency (newMaxLatencyWriter latency)
  := by
  have hneg : ¬ latency < 0 := not_lt.mpr hpos.le
  constructor <;> simp [newMaxLatencyWriter, hneg, hpos.le]

theorem Inv.step (hpos : 0 < latency) {a : Action} (h : Inv latency w)
    (hstep : step a w = some w') :
  Inv latency w'
  := by
  obtain ⟨rfl, hdirect, hmutex, htimer, hpending, harmed, hstopped⟩ := h
  cases a with
  | wait d =>
    cases hstep
    refine ⟨rfl, hdirect, hmutex, ?_, hpending, by simpa using harmed, hstopped⟩
    intro t ht
    obtain ⟨t', ht', rfl⟩ := Option.map_eq_some_iff.mp ht
    have := htimer t' ht'
    omega
  | wrote n =>
    obtain ⟨hwriting, rfl⟩ := guard_eq_some.mp hstep
    have hheld : w.writing = 1 ∧ w.flushing = 0 := by
      split at hmutex <;> omega
    rw [MaxLatencyWriter.goOn, if_neg (by omega)]
    split
    · exact ⟨rfl, hdirect, by simp [hheld], by simp [hpos.le], by simp, by simp, hstopped⟩
    · rename_i harm
      refine ⟨rfl, hdirect, by simp [hheld], htimer, ?_, harmed, hstopped⟩
      rintro - (hrun : w.stopped = false)
      simpa [hrun] using harm
  | _ =>
    -- the others move counts under the mutex
    dsimp only [Httprevproxy.step] at hstep
    obtain ⟨hguard, rfl⟩ := guard_eq_some.mp hstep
    constructor <;> grind -ring -linarith [MaxLatencyWriter.callBack]

/-- While there are bytes to flush and the writer is not stopped, the timer is armed for no more
than the latency, or has made a call of `delayedFlush` that is under way.  `Flush` and `Write`
exclude each other, and after `stop` there is no `Flush`. -/
theorem flush_within_latency (hpos : 0 < latency) (as : List Action)
    (hexec : exec step as (newMaxLatencyWriter latency) = some w) :
  (w.unflushed = true → w.stopped = false →
      (∃ t ∈ w.timer, (t : ℤ) ≤ latency) ∨ 0 < w.fired + w.flushing)
    ∧ w.writing + w.direct + w.flushing ≤ 1
    ∧ (w.stopped = true → w.direct + w.flushing = 0)
  := by
  have h := exec_inv (fun _ _ _ hstep h => h.step hpos hstep) hexec (inv_new hpos)
  have hdirect := h.direct
  refine ⟨fun hbytes hrun => ?_, ?_, fun hstop => ?_⟩
  · rcases h.armed (h.pending hbytes hrun) hrun with htimer | hcall
    · obtain ⟨t, ht⟩ := Option.ne_none_iff_exists'.mp htimer
      exact .inl ⟨t, ht, h.timer t ht⟩
    · omega
  · have hmutex := h.mutex
    split at hmutex <;> omega
  · have hflushing := h.stopped hstop
    omega

/-- Bytes that are written while `Flush` of the bytes before is still to come, and then `stop`. -/
theorem flush_within_latency_written :
  ∃ w w', exec step [.write, .wrote 3, .wait 5, .fire, .write, .wrote 1] (newMaxLatencyWriter 5)
      = some w
    ∧ ((∃ t ∈ w.timer, (t : ℤ) ≤ 5) ∨ 0 < w.fired + w.flushing)
    ∧ w.writing + w.direct + w.flushing ≤ 1
    ∧ exec step [.write, .wrote 3, .wait 5, .fire, .stop, .delayedFlush] (newMaxLatencyWriter 5)
      = some w' ∧ w'.unflushed = true ∧ w'.direct + w'.flushing = 0
  := by
  obtain ⟨harmed, hmutex, -⟩ := flush_within_latency (show (0 : ℤ) < 5 by decide)
    [.write, .wrote 3, .wait 5, .fire, .write, .wrote 1] rfl
  obtain ⟨-, -, hstopped⟩ := flush_within_latency (show (0 : ℤ) < 5 by decide)
    [.write, .wrote 3, .wait 5, .fire, .stop, .delayedFlush] rfl
  exact ⟨_, _, rfl, harmed rfl rfl, hmutex, rfl, rfl, hstopped rfl⟩

end Httprevproxy
