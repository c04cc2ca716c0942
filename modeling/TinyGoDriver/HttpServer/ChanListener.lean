import Mathlib.Data.List.Nodup
import TinyGoDriver.Lib.Interleaving

/-!
# The hand-off listener

A `chanListener` hands connections from the goroutines that call `offer` to those that call
`Accept`, over the unbuffered channel `conns`, until its channel `done` is closed.  Any number
of calls of `offer`, `Accept` and `Close` are under way at once; they are told apart by
numbers, and a call of `offer` has the number of its connection.

A `select` is one action: it takes a case that is ready, or, if there is none, joins the queues
of its channels.  Who hands over a connection takes the first of the waiting calls of the other
side, and closing `done` settles all that wait.  Between the `select` of `Close` and its
`close(l.done)` nothing is held, so these are two actions.
-/

namespace HttpServer.ChanListener

open Interleaving Function

/-- Where a call of `offer` is. -/
inductive Offer where
  | idle
  /-- in the queue of `conns` -/
  | waiting
  /-- returned, the connection went to this call of `Accept` -/
  | delivered (accept : ℕ)
  /-- has found `done` closed, and is about to close its connection -/
  | refused
  /-- returned, the connection is closed -/
  | closed
  deriving DecidableEq, Repr

/-- Where a call of `Accept` is. -/
inductive Accept where
  | idle
  /-- in the queue of `conns` -/
  | waiting
  /-- returned a connection -/
  | received (conn : ℕ)
  /-- returned `net.ErrClosed` -/
  | failed
  deriving DecidableEq, Repr

/-- Where a call of `Close` is. -/
inductive Close where
  | idle
  /-- has found `done` open, and is about to close it -/
  | looked
  | returned
  deriving DecidableEq, Repr

structure State where
  offers : ℕ → Offer
  accepts : ℕ → Accept
  closes : ℕ → Close
  /-- the calls of `offer` that wait on `conns` -/
  sendq : List ℕ
  /-- the calls of `Accept` that wait on `conns` -/
  recvq : List ℕ
  /-- whether the channel `done` is closed -/
  done : Bool
  /-- a close of a closed channel has stopped the program -/
  panicked : Bool

/-- `newChanListener` -/
def State.init : State :=
  { offers := fun _ => .idle, accepts := fun _ => .idle, closes := fun _ => .idle, sendq := [],
    recvq := [], done := false, panicked := false }

/-- How a `select` on `conns` and `done` goes on. -/
inductive Case where
  | conns
  | done
  /-- no case is ready -/
  | wait
  deriving DecidableEq, Repr

inductive Action where
  /-- the `select` of `offer` -/
  | offer (conn : ℕ) (case : Case)
  /-- `c.Close` in `offer` -/
  | hangUp (conn : ℕ)
  /-- the `select` of `Accept` -/
  | accept (call : ℕ) (case : Case)
  /-- the `select` of `Close` -/
  | look (call : ℕ)
  /-- `close(l.done)` in `Close` -/
  | close (call : ℕ)
  deriving DecidableEq, Repr

/-- Closing `done` settles every `select` that waits. -/
def State.settle (s : State) : State :=
  { s with
    offers := fun i => if i ∈ s.sendq then .refused else s.offers i
    accepts := fun k => if k ∈ s.recvq then .failed else s.accepts k
    sendq := []
    recvq := []
    done := true }

/-- The connection `i` goes to the call `k` of `Accept`. -/
def State.hand (s : State) (i k : ℕ) : State :=
  { s with
    offers := Function.update s.offers i (.delivered k)
    accepts := Function.update s.accepts k (.received i) }

/-- What an action does while the program runs. -/
def act (a : Action) (s : State) : Option State :=
  match a with
  | .offer i case =>
    if s.offers i = .idle then
      match case, s.recvq with
      | .conns, k :: recvq => some { s.hand i k with recvq := recvq }
      | .done, _ =>
        if s.done then some { s with offers := Function.update s.offers i .refused }
        else none
      | .wait, [] =>
        if s.done then none
        else some { s with
          offers := Function.update s.offers i .waiting, sendq := s.sendq ++ [i] }
      | _, _ => none
    else none
  | .hangUp i =>
    if s.offers i = .refused then
      some { s with offers := Function.update s.offers i .closed }
    else none
  | .accept k case =>
    if s.accepts k = .idle then
      match case, s.sendq with
      | .conns, i :: sendq => some { s.hand i k with sendq := sendq }
      | .done, _ =>
        if s.done then some { s with accepts := Function.update s.accepts k .failed }
        else none
      | .wait, [] =>
        if s.done then none
        else some { s with
          accepts := Function.update s.accepts k .waiting, recvq := s.recvq ++ [k] }
      | _, _ => none
    else none
  | .look m =>
    if s.closes m = .idle then
      some { s with
        closes := Function.update s.closes m (if s.done then .returned else .looked) }
    else none
  | .close m =>
    if s.closes m = .looked then
      if s.done then some { s with panicked := true }
      else some { s.settle with closes := Function.update s.closes m .returned }
    else none

/-- One action, unless the program has been stopped by a panic. -/
def step (a : Action) (s : State) : Option State := if s.panicked then none else act a s

/-- The actions and what they do, with what they need. -/
inductive Acts : Action → State → State → Prop
  | offerHand {s : State} {i k : ℕ} {recvq : List ℕ} (h : s.offers i = .idle)
      (hq : s.recvq = k :: recvq) :
      Acts (.offer i .conns) s { s.hand i k with recvq := recvq }
  | offerDone {s : State} {i : ℕ} (h : s.offers i = .idle) (hdone : s.done = true) :
      Acts (.offer i .done) s { s with offers := Function.update s.offers i .refused }
  | offerWait {s : State} {i : ℕ} (h : s.offers i = .idle) (hq : s.recvq = [])
      (hdone : s.done = false) :
      Acts (.offer i .wait) s
        { s with offers := Function.update s.offers i .waiting, sendq := s.sendq ++ [i] }
  | hangUp {s : State} {i : ℕ} (h : s.offers i = .refused) :
      Acts (.hangUp i) s { s with offers := Function.update s.offers i .closed }
  | acceptHand {s : State} {i k : ℕ} {sendq : List ℕ} (h : s.accepts k = .idle)
      (hq : s.sendq = i :: sendq) :
      Acts (.accept k .conns) s { s.hand i k with sendq := sendq }
  | acceptDone {s : State} {k : ℕ} (h : s.accepts k = .idle) (hdone : s.done = true) :
      Acts (.accept k .done) s { s with accepts := Function.update s.accepts k .failed }
  | acceptWait {s : State} {k : ℕ} (h : s.accepts k = .idle) (hq : s.sendq = [])
      (hdone : s.done = false) :
      Acts (.accept k .wait) s
        { s with accepts := Function.update s.accepts k .waiting, recvq := s.recvq ++ [k] }
  | lookDone {s : State} {m : ℕ} (h : s.closes m = .idle) (hdone : s.done = true) :
      Acts (.look m) s { s with closes := Function.update s.closes m .returned }
  | look {s : State} {m : ℕ} (h : s.closes m = .idle) (hdone : s.done = false) :
      Acts (.look m) s { s with closes := Function.update s.closes m .looked }
  | close {s : State} {m : ℕ} (h : s.closes m = .looked) (hdone : s.done = false) :
      Acts (.close m) s { s.settle with closes := Function.update s.closes m .returned }
  | panic {s : State} {m : ℕ} (h : s.closes m = .looked) (hdone : s.done = true) :
      Acts (.close m) s { s with panicked := true }

variable {s : State} {i : ℕ}

variable {a : Action} {t : State}

/-- What a step does. -/
theorem acts_of_step (h : step a s = some t) :
  s.panicked = false ∧ Acts a s t
  := by
  rw [step] at h
  split at h
  · cases h
  rename_i hpanic
  refine ⟨by simpa using hpanic, ?_⟩
  cases a with
  | offer i case =>
    unfold act at h
    rw [Option.ite_none_right_eq_some] at h
    obtain ⟨hi, h⟩ := h
    split at h
    · rename_i k recvq hq
      cases h
      exact .offerHand hi hq
    · obtain ⟨hdone, rfl⟩ := guard_eq_some.mp h
      exact .offerDone hi hdone
    · rename_i hq
      rw [Option.ite_none_left_eq_some] at h
      obtain ⟨hdone, h⟩ := h
      cases h
      exact .offerWait hi hq (by simpa using hdone)
    · cases h
  | hangUp i =>
    obtain ⟨hi, rfl⟩ := guard_eq_some.mp h
    exact .hangUp hi
  | accept k case =>
    unfold act at h
    rw [Option.ite_none_right_eq_some] at h
    obtain ⟨hk, h⟩ := h
    split at h
    · rename_i i sendq hq
      cases h
      exact .acceptHand hk hq
    · obtain ⟨hdone, rfl⟩ := guard_eq_some.mp h
      exact .acceptDone hk hdone
    · rename_i hq
      rw [Option.ite_none_left_eq_some] at h
      obtain ⟨hdone, h⟩ := h
      cases h
      exact .acceptWait hk hq (by simpa using hdone)
    · cases h
  | look m =>
    obtain ⟨hm, rfl⟩ := guard_eq_some.mp h
    split
    · rename_i hdone
      exact .lookDone hm hdone
    · rename_i hdone
      exact .look hm (by simpa using hdone)
  | close m =>
    rw [act, Option.ite_none_right_eq_some] at h
    obtain ⟨hm, h⟩ := h
    split at h <;> cases h
    · rename_i hdone
      exact .panic hm hdone
    · rename_i hdone
      exact .close hm (by simpa using hdone)

/-! ### Connections -/

/-- A queue holds the calls that wait, each once. -/
structure Queue {β : Type} (q : List ℕ) (calls : ℕ → β) (waiting : β) : Prop where
  nodup : q.Nodup
  mem_iff : ∀ i, i ∈ q ↔ calls i = waiting

section Queue

variable {β : Type} {q : List ℕ} {calls : ℕ → β} {waiting : β}

variable {b : β}

/-- The call at the head of the queue goes on. -/
theorem Queue.pop (hq : Queue (i :: q) calls waiting) (hb : b ≠ waiting) :
  Queue q (Function.update calls i b) waiting
  := by
  obtain ⟨hi, hnodup⟩ := List.nodup_cons.mp hq.nodup
  refine ⟨hnodup, fun j => ?_⟩
  by_cases hj : j = i
  · subst hj
    simp [hi, hb]
  · simpa [update_of_ne hj, hj] using hq.mem_iff j

/-- A call that does not wait goes on. -/
theorem Queue.pass (hq : Queue q calls waiting) (hi : calls i ≠ waiting) (hb : b ≠ waiting) :
  Queue q (Function.update calls i b) waiting
  := by
  refine ⟨hq.nodup, fun j => ?_⟩
  by_cases hj : j = i
  · subst hj
    simp [hq.mem_iff, hi, hb]
  · rw [update_of_ne hj]
    exact hq.mem_iff j

/-- A call joins the queue. -/
theorem Queue.push (hq : Queue q calls waiting) (hi : calls i ≠ waiting) :
  Queue (q ++ [i]) (Function.update calls i waiting) waiting
  := by
  refine ⟨?_, fun j => ?_⟩
  · apply List.nodup_append_comm.mp
    exact List.nodup_cons.mpr ⟨fun h => hi ((hq.mem_iff i).mp h), hq.nodup⟩
  by_cases hj : j = i
  · subst hj
    simp
  · simpa [update_of_ne hj, hj] using hq.mem_iff j

/-- All calls that wait go on. -/
theorem Queue.clear (hq : Queue q calls waiting) (hb : b ≠ waiting) :
  Queue [] (fun i => if i ∈ q then b else calls i) waiting
  := by
  refine ⟨List.nodup_nil, fun j => ?_⟩
  by_cases hj : j ∈ q
  · simp [hj, hb]
  · simpa [hj] using (hq.mem_iff j).not.mp hj

end Queue

/-- What holds in every state: the calls of `offer` and of `Accept` agree on who got what, the
queues hold those that wait, and nobody waits once `done` is closed. -/
structure Inv (s : State) : Prop where
  agree : ∀ i k, s.offers i = .delivered k ↔ s.accepts k = .received i
  sendq : Queue s.sendq s.offers .waiting
  recvq : Queue s.recvq s.accepts .waiting
  settled : s.done = true → s.sendq = [] ∧ s.recvq = []
  returned : ∀ m, s.closes m = .returned → s.done = true

theorem Inv.init :
  Inv .init
  := ⟨by simp [State.init], ⟨List.nodup_nil, by simp [State.init]⟩,
    ⟨List.nodup_nil, by simp [State.init]⟩, by simp [State.init], by simp [State.init]⟩

section

variable (h : ∀ i k, s.offers i = .delivered k ↔ s.accepts k = .received i)
include h

/-- A connection that nobody has goes to a call of `Accept` that has none. -/
theorem agree_hand {k : ℕ}
    (hi : ∀ k, s.offers i ≠ .delivered k) (hk : ∀ i, s.accepts k ≠ .received i) (j l : ℕ) :
  (s.hand i k).offers j = .delivered l ↔ (s.hand i k).accepts l = .received j
  := by
  simp only [State.hand, update_apply]
  by_cases hj : j = i <;> by_cases hl : l = k
  · simp [hj, hl]
  · simpa [hj, hl, Ne.symm hl] using (h i l).not.mp (hi l)
  · simpa [hj, hl, Ne.symm hj] using (h j k).not.mpr (hk j)
  · simpa [hj, hl] using h j l

/-- A call of `offer` goes on without handing its connection over. -/
theorem agree_offer {o : Offer}
    (hi : ∀ k, s.offers i ≠ .delivered k) (ho : ∀ k, o ≠ .delivered k) (j l : ℕ) :
  Function.update s.offers i o j = .delivered l ↔ s.accepts l = .received j
  := by
  by_cases hj : j = i
  · subst hj
    simpa [ho] using (h j l).not.mp (hi l)
  · rw [update_of_ne hj]
    exact h j l

/-- A call of `Accept` goes on without a connection. -/
theorem agree_accept {k : ℕ} {a : Accept}
    (hk : ∀ i, s.accepts k ≠ .received i) (ha : ∀ i, a ≠ .received i) (j l : ℕ) :
  s.offers j = .delivered l ↔ Function.update s.accepts k a l = .received j
  := by
  by_cases hl : l = k
  · subst hl
    simpa [ha] using (h j l).not.mpr (hk j)
  · rw [update_of_ne hl]
    exact h j l

end

/-- Settling those that wait hands nothing over. -/
theorem Inv.agree_settle (hs : Inv s) (j l : ℕ) :
  s.settle.offers j = .delivered l ↔ s.settle.accepts l = .received j
  := by
  simp only [State.settle]
  by_cases hj : j ∈ s.sendq <;> by_cases hl : l ∈ s.recvq
  · simp [hj, hl]
  · have hwait : s.offers j = .waiting := (hs.sendq.mem_iff j).mp hj
    simpa [hj, hl, hwait] using (hs.agree j l).not
  · have hwait : s.accepts l = .waiting := (hs.recvq.mem_iff l).mp hl
    simpa [hj, hl, hwait] using (hs.agree j l).not
  · simpa [hj, hl] using hs.agree j l

theorem Inv.step (h : step a s = some t) (hs : Inv s) :
  Inv t
  := by
  obtain ⟨agree, sendq, recvq, settled, returned⟩ := hs
  cases (acts_of_step h).2 with
  | @offerHand _ i k recvq' hi hq =>
    have hk : s.accepts k = .waiting := (recvq.mem_iff k).mp (by simp [hq])
    refine ⟨?_, sendq.pass (by simp [hi]) (by simp), ?_, ?_, returned⟩
    · exact agree_hand agree (by simp [hi]) (by simp [hk])
    · exact Queue.pop (hq ▸ recvq) (by simp)
    · intro hdone
      simp [settled hdone] at hq
  | offerDone hi hdone | hangUp hi =>
    exact ⟨agree_offer agree (by simp [hi]) (by simp), sendq.pass (by simp [hi]) (by simp),
      recvq, settled, returned⟩
  | offerWait hi hq hdone =>
    exact ⟨agree_offer agree (by simp [hi]) (by simp), sendq.push (by simp [hi]), recvq,
      fun h => by simp [hdone] at h, returned⟩
  | @acceptHand _ i k sendq' hk hq =>
    have hi : s.offers i = .waiting := (sendq.mem_iff i).mp (by simp [hq])
    refine ⟨?_, ?_, recvq.pass (by simp [hk]) (by simp), ?_, returned⟩
    · exact agree_hand agree (by simp [hi]) (by simp [hk])
    · exact Queue.pop (hq ▸ sendq) (by simp)
    · intro hdone
      simp [settled hdone] at hq
  | acceptDone hk hdone =>
    exact ⟨agree_accept agree (by simp [hk]) (by simp), sendq,
      recvq.pass (by simp [hk]) (by simp), settled, returned⟩
  | acceptWait hk hq hdone =>
    exact ⟨agree_accept agree (by simp [hk]) (by simp), sendq, recvq.push (by simp [hk]),
      fun h => by simp [hdone] at h, returned⟩
  | lookDone hm hdone => exact ⟨agree, sendq, recvq, settled, fun _ _ => hdone⟩
  | @look _ m hm hdone =>
    refine ⟨agree, sendq, recvq, settled, fun m' hm' => ?_⟩
    by_cases hmm : m' = m
    · simp [hmm] at hm'
    · exact returned m' (by simpa [update_of_ne hmm] using hm')
  | close hm hdone =>
    exact ⟨Inv.agree_settle ⟨agree, sendq, recvq, settled, returned⟩, sendq.clear (by simp),
      recvq.clear (by simp), fun _ => ⟨rfl, rfl⟩, fun _ _ => rfl⟩
  | panic hm hdone => exact ⟨agree, sendq, recvq, settled, returned⟩

/-! ### Closing -/

/-- A call of `Close` looks at `done` only while no other stands between its look and its
`close(l.done)`. -/
def Apart (a : Action) (s : State) : Prop :=
  ∀ m, a = .look m → ∀ m', s.closes m' ≠ .looked

/-- At most one call of `Close` is about to close `done`, which is then open. -/
structure Single (s : State) : Prop where
  running : s.panicked = false
  one : ∀ m m', s.closes m = .looked → s.closes m' = .looked → m = m'
  isOpen : ∀ m, s.closes m = .looked → s.done = false

theorem Single.init :
  Single .init
  := ⟨rfl, by simp [State.init], by simp [State.init]⟩

theorem Single.step (hapart : Apart a s) (h : step a s = some t) (hs : Single s) :
  Single t
  := by
  obtain ⟨running, one, isOpen⟩ := hs
  cases (acts_of_step h).2 with
  | offerHand | offerDone | offerWait | hangUp | acceptHand | acceptDone | acceptWait =>
    exact ⟨running, one, isOpen⟩
  | @lookDone _ m hm hdone =>
    have hlooked : ∀ m', update s.closes m .returned m' ≠ .looked := by
      intro m' hm'
      by_cases hmm : m' = m
      · simp [hmm] at hm'
      · exact hapart m rfl m' (by simpa [update_of_ne hmm] using hm')
    exact ⟨running, fun m₁ _ h₁ _ => absurd h₁ (hlooked m₁), fun m₁ h₁ => absurd h₁ (hlooked m₁)⟩
  | @look _ m hm hdone =>
    have hlooked : ∀ m', update s.closes m .looked m' = .looked → m' = m := by
      intro m' hm'
      by_contra hmm
      exact hapart m rfl m' (by simpa [update_of_ne hmm] using hm')
    exact ⟨running, fun m₁ m₂ h₁ h₂ => (hlooked m₁ h₁).trans (hlooked m₂ h₂).symm,
      fun _ _ => hdone⟩
  | @close _ m hm hdone =>
    have hlooked : ∀ m', update s.closes m .returned m' ≠ .looked := by
      intro m' hm'
      by_cases hmm : m' = m
      · simp [hmm] at hm'
      · exact hmm (one m' m (by simpa [update_of_ne hmm] using hm') hm)
    exact ⟨running, fun m₁ _ h₁ _ => absurd h₁ (hlooked m₁), fun m₁ h₁ => absurd h₁ (hlooked m₁)⟩
  | @panic _ m hm hdone => simp [isOpen m hm] at hdone

/-- What the listener promises, in a state: no panic; a `Close` that comes after another has
returned changes nothing but its own caller; a connection that has been offered was returned
by exactly one call of `Accept`, or by none, and then it still waits, or has been refused and
is closed; and once a `Close` has returned, no `offer` and no `Accept` waits, and the `select` of
an `offer` or of an `Accept` that begins goes on, and can only refuse or fail. -/
structure Promise (s : State) : Prop where
  noPanic : s.panicked = false
  idempotent : ∀ m m' t, s.closes m = .returned → step (.look m') s = some t →
    t = { s with closes := Function.update s.closes m' .returned }
  fate : ∀ i, s.offers i ≠ .idle →
    (∃! k, s.accepts k = .received i) ∨
    (∀ k, s.accepts k ≠ .received i) ∧
      (s.offers i = .waiting ∨ s.offers i = .refused ∨ s.offers i = .closed)
  hangsUp : ∀ i, s.offers i = .refused → ∃ t, step (.hangUp i) s = some t ∧ t.offers i = .closed
  nobodyWaits : ∀ m, s.closes m = .returned →
    (∀ i, s.offers i ≠ .waiting) ∧ ∀ k, s.accepts k ≠ .waiting
  laterOffer : ∀ m i, s.closes m = .returned →
    (s.offers i = .idle → ∃ case t, step (.offer i case) s = some t)
      ∧ ∀ case t, step (.offer i case) s = some t → t.offers i = .refused
  laterAccept : ∀ m k, s.closes m = .returned →
    (s.accepts k = .idle → ∃ case t, step (.accept k case) s = some t)
      ∧ ∀ case t, step (.accept k case) s = some t → t.accepts k = .failed

theorem Inv.promise (hs : Inv s) (hrun : s.panicked = false) :
  Promise s
  := by
  constructor
  case noPanic => exact hrun
  case idempotent =>
    intro m m' t hm h
    have hdone := hs.returned m hm
    cases (acts_of_step h).2 with
    | lookDone => rfl
    | look _ hopen => simp [hdone] at hopen
  case fate =>
    intro i hi
    have hagree : ∀ k, s.accepts k = .received i ↔ s.offers i = .delivered k :=
      fun k => (hs.agree i k).symm
    cases hoffer : s.offers i with
    | idle => exact absurd hoffer hi
    | delivered k => exact .inl ⟨k, (hagree k).mpr hoffer, by simp [hagree, hoffer, eq_comm]⟩
    | waiting | refused | closed => exact .inr ⟨by simp [hagree, hoffer], by simp⟩
  case hangsUp =>
    intro i hi
    exact ⟨_, by rw [ChanListener.step, act, if_neg (by simp [hrun]), if_pos hi], by simp⟩
  case nobodyWaits =>
    intro m hm
    obtain ⟨hsend, hrecv⟩ := hs.settled (hs.returned m hm)
    refine ⟨fun i hi => ?_, fun k hk => ?_⟩
    · simpa [hsend] using (hs.sendq.mem_iff i).mpr hi
    · simpa [hrecv] using (hs.recvq.mem_iff k).mpr hk
  case laterOffer =>
    intro m i hm
    have hdone := hs.returned m hm
    refine ⟨fun hi => ⟨.done, Option.isSome_iff_exists.mp ?_⟩, fun case t h => ?_⟩
    · simp [ChanListener.step, act, hrun, hi, hdone]
    cases (acts_of_step h).2 with
    | offerHand _ hq => simp [(hs.settled hdone).2] at hq
    | offerDone => simp
    | offerWait _ _ hopen => simp [hdone] at hopen
  case laterAccept =>
    intro m k hm
    have hdone := hs.returned m hm
    refine ⟨fun hk => ⟨.done, Option.isSome_iff_exists.mp ?_⟩, fun case t h => ?_⟩
    · simp [ChanListener.step, act, hrun, hk, hdone]
    cases (acts_of_step h).2 with
    | acceptHand _ hq => simp [(hs.settled hdone).1] at hq
    | acceptDone => simp
    | acceptWait _ _ hopen => simp [hdone] at hopen

/-- In every interleaving in which the calls of `Close` keep apart, the listener keeps its
promise in every state. -/
theorem promise_of_apart {as : List Action} {s : State} (halong : Along step Apart as .init)
    (hexec : exec step as .init = some s) :
  Promise s
  := by
  have hinv : Inv s := exec_inv (fun _ _ _ => Inv.step) hexec .init
  have hsingle : Single s := exec_inv_along (fun _ _ _ => Single.step) halong hexec .init
  exact hinv.promise hsingle.running

/-- A connection is offered and accepted, and the listener closed twice, one call after the
other. -/
def closedTwice : List Action :=
  [.accept 0 .wait, .offer 7 .conns, .accept 1 .wait, .look 0, .close 0, .look 1]

theorem apart_closedTwice :
  Along step Apart closedTwice .init
  := by
  refine ⟨nofun, fun _ h => ?_⟩
  cases h
  refine ⟨nofun, fun _ h => ?_⟩
  cases h
  refine ⟨nofun, fun _ h => ?_⟩
  cases h
  refine ⟨fun _ _ _ => nofun, fun _ h => ?_⟩
  cases h
  refine ⟨nofun, fun _ h => ?_⟩
  cases h
  refine ⟨fun _ _ m => ?_, fun _ _ => trivial⟩
  simp only [State.hand, State.init, update_apply]
  split <;> simp

theorem promise_of_apart_closedTwice :
  ∃ s, exec step closedTwice .init = some s ∧ s.accepts 0 = .received 7 ∧
    s.accepts 1 = .failed ∧ s.closes 1 = .returned ∧ Promise s
  := ⟨_, rfl, rfl, rfl, rfl, @promise_of_apart closedTwice _ apart_closedTwice rfl⟩

/-- `http.Server` and `serve` close the listener at the same time: both find `done` open, and
the second `close(l.done)` panics. -/
theorem closes_together_panic :
  ∃ s, exec step [.look 0, .look 1, .close 0, .close 1] .init = some s ∧ s.panicked = true
  := ⟨_, rfl, rfl⟩

end HttpServer.ChanListener
