import Mathlib.Data.List.Basic
import Mathlib.Tactic.Linarith

/-!
# `Client.call`

The retry loop of one RPC.  A turn of the loop waits out the backoff, unless it is the first attempt
or the context is done, sends the request, and acts on the reply.  The flag `internalRetried` is
shared: it is set when `INTERNAL` is retried, and also when a token is refreshed.  So there is one
refresh in a call, and after a refresh `INTERNAL` is not retried any more; this is all that can be
seen of it.
-/

namespace Datastore

open List

/-- `Error.Status`: the names the client knows, and the others. -/
inductive Status where
  | notFound
  | alreadyExists
  | aborted
  | failedPrecondition
  | invalidArgument
  | permissionDenied
  | unauthenticated
  | unavailable
  | deadlineExceeded
  | resourceExhausted
  | internal
  | other
  deriving DecidableEq, Repr

/-- `Error.Retryable` -/
def Status.retryable : Status → Bool
  | .unavailable | .deadlineExceeded | .resourceExhausted => true
  | .internal => true
  | _ => false

/-- What comes of a request: no reply, a reply with status 200, whose body may not decode, or a
refusal.  Each comes with the error that `call` would return for it. -/
inductive Reply (ε : Type) where
  | transport (e : ε)
  | ok
  | undecodable (e : ε)
  | refused (status : Status) (e : ε)
  deriving DecidableEq, Repr

/-- A turn of the loop as the world has it: the error of the context, if it is done before the
backoff is over, and otherwise the reply. -/
structure Turn (ε : Type) where
  done : Option ε
  reply : Reply ε
  deriving DecidableEq, Repr

/-- The variables of the loop. -/
structure Loop (ε : Type) where
  attempt : ℕ
  internalRetried : Bool
  lastErr : Option ε
  deriving DecidableEq, Repr

inductive Next (ε : Type) where
  | resend (s : Loop ε)
  | returned (err : Option ε)

/-- How a call ends: with what it returns, or with nothing yet if a reply is awaited, and with how
many retries left; and the replies to the requests it sent. -/
structure Ended (ε : Type) where
  returned : Option (Option ε)
  retriesLeft : ℕ
  sent : List (Reply ε)
  deriving DecidableEq, Repr

def Ended.after {ε : Type} (r : Reply ε) (e : Ended ε) : Ended ε := { e with sent := r :: e.sent }

namespace Loop

variable {ε : Type}

/-- What the loop does with a reply; `cached` is whether the client has a token to refresh. -/
def answer (cached : Bool) (s : Loop ε) : Reply ε → Next ε
  | .transport e => .resend { s with attempt := s.attempt + 1, lastErr := some e }
  | .ok => .returned none
  | .undecodable e => .returned (some e)
  | .refused .unauthenticated e =>
    if cached && !s.internalRetried then
      -- `attempt--`, and the `attempt++` of the loop
      .resend { s with internalRetried := true, lastErr := some e }
    else
      .returned (some e)
  | .refused .internal e =>
    if s.internalRetried then
      .returned (some e)
    else
      .resend ⟨s.attempt + 1, true, some e⟩
  | .refused status e =>
    if status.retryable then
      .resend { s with attempt := s.attempt + 1, lastErr := some e }
    else
      .returned (some e)

/-- The error with which `sleep` ends a turn. -/
def interrupted (s : Loop ε) (t : Turn ε) : Option ε := if 0 < s.attempt then t.done else none

/-- The loop, for as many turns as there are. -/
def run (cached : Bool) (attempts : ℕ) : Loop ε → List (Turn ε) → Ended ε
  | s, [] =>
    if attempts ≤ s.attempt then ⟨some s.lastErr, 0, []⟩
    else ⟨none, attempts - 1 - s.attempt, []⟩
  | s, t :: turns =>
    if attempts ≤ s.attempt then
      ⟨some s.lastErr, 0, []⟩
    else
      match s.interrupted t with
      | some e => ⟨some (some e), attempts - 1 - s.attempt, []⟩
      | none =>
        match s.answer cached t.reply with
        | .returned err => ⟨some err, attempts - 1 - s.attempt, [t.reply]⟩
        | .resend s' => (run cached attempts s' turns).after t.reply

/-- The state after turns that do not end the loop. -/
def steps (cached : Bool) (attempts : ℕ) : Loop ε → List (Turn ε) → Option (Loop ε)
  | s, [] => some s
  | s, t :: turns =>
    if attempts ≤ s.attempt then
      none
    else
      match s.interrupted t, s.answer cached t.reply with
      | none, .resend s' => steps cached attempts s' turns
      | _, _ => none

end Loop

/-- `call`, by what its loop makes of the turns. -/
def call {ε : Type} (cached : Bool) (attempts : ℤ) (turns : List (Turn ε)) : Ended ε :=
  Loop.run cached (max attempts 1).toNat ⟨0, false, none⟩ turns

/-! ### What a reply leads to -/

variable {ε : Type}

/-- The replies that only use up an attempt. -/
def Reply.passes : Reply ε → Bool
  | .transport _ => true
  | .refused status _ => status.retryable && status != .internal
  | _ => false

/-- The errors that are not resent. -/
def Reply.terminal : Reply ε → Bool
  | .undecodable _ => true
  | .refused status _ => !status.retryable && status != .unauthenticated
  | _ => false

def Reply.internal : Reply ε → Bool
  | .refused .internal _ => true
  | _ => false

/-- What a reply can lead to. -/
theorem Reply.cases (r : Reply ε) :
  (r.passes = true ∧ r.terminal = false ∧ r.internal = false
      ∧ ∃ e, ∀ cached (s : Loop ε), s.answer cached r
        = .resend { s with attempt := s.attempt + 1, lastErr := some e })
    ∨ (r.passes = false ∧ r.internal = false
      ∧ ∃ err, ∀ cached (s : Loop ε), s.answer cached r = .returned err)
    ∨ (∃ e, r = .refused .unauthenticated e) ∨ ∃ e, r = .refused .internal e
  := by
  cases r with
  | transport e => exact .inl ⟨rfl, rfl, rfl, e, fun _ _ => rfl⟩
  | ok => exact .inr (.inl ⟨rfl, rfl, none, fun _ _ => rfl⟩)
  | undecodable e => exact .inr (.inl ⟨rfl, rfl, some e, fun _ _ => rfl⟩)
  | refused status e =>
    cases status with
    | unauthenticated => exact .inr (.inr (.inl ⟨e, rfl⟩))
    | internal => exact .inr (.inr (.inr ⟨e, rfl⟩))
    | unavailable | deadlineExceeded | resourceExhausted =>
      exact .inl ⟨rfl, rfl, rfl, e, fun _ _ => rfl⟩
    | _ => exact .inr (.inl ⟨rfl, rfl, some e, fun _ _ => rfl⟩)

theorem mem_dropLast_cons {α : Type} {a b : α} {l : List α} (h : a ∈ (b :: l).dropLast) :
  a ∈ b :: l.dropLast
  := by
  cases l with
  | nil => simp at h
  | cons c l => exact h

theorem countP_dropLast_cons_le {α : Type} (p : α → Bool) (a : α) (l : List α) :
  (a :: l).dropLast.countP p ≤ l.dropLast.countP p + if p a then 1 else 0
  := by
  cases l with
  | nil => exact Nat.zero_le _
  | cons b l => rw [dropLast_cons_cons, countP_cons]

namespace Loop

variable {cached : Bool} {attempts : ℕ}

variable {s s' : Loop ε} {t : Turn ε} {pre : List (Turn ε)} {r : Reply ε}

theorem run_exhausted (h : attempts ≤ s.attempt) (turns : List (Turn ε)) :
  s.run cached attempts turns = ⟨some s.lastErr, 0, []⟩
  := by
  cases turns with
  | nil | cons t turns => rw [run, if_pos h]

theorem run_interrupted {e : ε} (h : s.attempt < attempts) (ht : s.interrupted t = some e)
    (turns : List (Turn ε)) :
  s.run cached attempts (t :: turns) = ⟨some (some e), attempts - 1 - s.attempt, []⟩
  := by
  rw [run, if_neg (Nat.not_le_of_lt h), ht]

theorem run_returned {err : Option ε} (h : s.attempt < attempts) (ht : s.interrupted t = none)
    (hr : s.answer cached t.reply = .returned err) (turns : List (Turn ε)) :
  s.run cached attempts (t :: turns) = ⟨some err, attempts - 1 - s.attempt, [t.reply]⟩
  := by
  rw [run, if_neg (Nat.not_le_of_lt h), ht]
  rw [hr]

theorem run_resend (h : s.attempt < attempts) (ht : s.interrupted t = none)
    (hr : s.answer cached t.reply = .resend s') (turns : List (Turn ε)) :
  s.run cached attempts (t :: turns) = (s'.run cached attempts turns).after t.reply
  := by
  rw [run, if_neg (Nat.not_le_of_lt h), ht]
  rw [hr]

/-- The loop by what its first turn is: nothing is sent, or one request, or it goes on. -/
theorem run_cases (cached : Bool) (attempts : ℕ) (s : Loop ε) (turns : List (Turn ε)) :
  ((s.run cached attempts turns).sent = []
      ∧ (s.run cached attempts turns).retriesLeft ≤ attempts - 1 - s.attempt)
    ∨ ∃ t turns', turns = t :: turns' ∧ s.attempt < attempts
      ∧ ((∃ err, s.run cached attempts turns = ⟨some err, attempts - 1 - s.attempt, [t.reply]⟩)
        ∨ ∃ s', s.answer cached t.reply = .resend s'
          ∧ s.run cached attempts turns = (s'.run cached attempts turns').after t.reply)
  := by
  by_cases h : attempts ≤ s.attempt
  · rw [run_exhausted h]
    exact .inl ⟨rfl, Nat.zero_le _⟩
  have hlt := Nat.lt_of_not_ge h
  cases turns with
  | nil =>
    rw [run, if_neg h]
    exact .inl ⟨rfl, le_rfl⟩
  | cons t turns =>
    cases ht : s.interrupted t with
    | some e =>
      rw [run_interrupted hlt ht]
      exact .inl ⟨rfl, le_rfl⟩
    | none =>
      refine .inr ⟨t, turns, rfl, hlt, ?_⟩
      cases hr : s.answer cached t.reply with
      | returned err => exact .inl ⟨err, run_returned hlt ht hr turns⟩
      | resend s' => exact .inr ⟨s', rfl, run_resend hlt ht hr turns⟩

/-- What a request that is sent again has cost: an attempt, or the flag. -/
theorem answer_resend (h : s.answer cached r = .resend s') :
  r.terminal = false ∧ s.attempt ≤ s'.attempt
    ∧ (s.internalRetried = true → s'.internalRetried = true)
    ∧ (s'.attempt = s.attempt + 1
      ∨ s'.attempt = s.attempt ∧ s.internalRetried = false ∧ s'.internalRetried = true)
    ∧ (r.internal = true → s.internalRetried = false ∧ s'.internalRetried = true)
  := by
  rcases r.cases with ⟨-, hterm, hint, e, hr⟩ | ⟨-, -, err, hr⟩ | ⟨e, rfl⟩ | ⟨e, rfl⟩
  · rw [hr] at h
    cases h
    exact ⟨hterm, Nat.le_succ _, id, .inl rfl, fun hr => absurd hr (by simp [hint])⟩
  · exact absurd ((hr cached s).symm.trans h) (by simp)
  · rw [answer] at h
    split at h
    · rename_i hflag
      cases h
      simp only [Bool.and_eq_true, Bool.not_eq_true'] at hflag
      exact ⟨rfl, le_rfl, fun _ => rfl, .inr ⟨rfl, hflag.2, rfl⟩, by simp [Reply.internal]⟩
    · cases h
  · rw [answer] at h
    split at h
    · cases h
    rename_i hflag
    cases h
    rw [Bool.not_eq_true] at hflag
    exact ⟨rfl, Nat.le_succ _, fun _ => rfl, .inl rfl, fun _ => ⟨hflag, rfl⟩⟩

theorem answer_refresh {e : ε} (he : r = .refused .unauthenticated e)
    (h : s.answer cached r = .resend s') :
  s.internalRetried = false ∧ s' = { s with internalRetried := true, lastErr := some e }
  := by
  subst he
  rw [answer] at h
  split at h
  · rename_i hflag
    simp only [Bool.and_eq_true, Bool.not_eq_true'] at hflag
    exact ⟨hflag.2, (Next.resend.inj h).symm⟩
  · cases h

theorem run_lastErr (h : s.attempt < attempts) (l : Option ε) (turns : List (Turn ε)) :
  Loop.run cached attempts { s with lastErr := l } turns = s.run cached attempts turns
  := by
  cases turns with
  | nil => rw [run, run, if_neg (Nat.not_le_of_lt h), if_neg (Nat.not_le_of_lt h)]
  | cons t turns =>
    rw [run, run, if_neg (Nat.not_le_of_lt h), if_neg (Nat.not_le_of_lt h)]
    rfl

theorem retriesLeft_le (cached : Bool) (attempts : ℕ) (s : Loop ε) (turns : List (Turn ε)) :
  (s.run cached attempts turns).retriesLeft ≤ attempts - 1 - s.attempt
  := by
  induction turns generalizing s with
  | nil =>
    rw [run]
    split
    · exact Nat.zero_le _
    · exact le_rfl
  | cons t turns ih =>
    rcases run_cases cached attempts s (t :: turns) with
      ⟨-, h⟩ | ⟨t', turns', heq, -, ⟨err, h⟩ | ⟨s', hr, h⟩⟩
    · exact h
    · rw [h]
    cases heq
    rw [h]
    have hle := (answer_resend hr).2.1
    exact (ih s').trans (by omega)

/-- One more request is sent than there are attempts, at most, and only while the flag is not set;
of those that are resent none has a terminal error, and at most one `INTERNAL`. -/
theorem run_sent (s : Loop ε) (turns : List (Turn ε)) :
  (s.run cached attempts turns).sent.length
      ≤ attempts - s.attempt + (if s.internalRetried then 0 else 1)
    ∧ (∀ r ∈ (s.run cached attempts turns).sent.dropLast, r.terminal = false)
    ∧ (s.run cached attempts turns).sent.dropLast.countP Reply.internal
      ≤ if s.internalRetried then 0 else 1
  := by
  induction turns generalizing s with
  | nil =>
    rcases run_cases cached attempts s [] with
      ⟨h, -⟩ | ⟨t, turns', heq, -⟩
    · simp [h]
    · cases heq
  | cons t turns ih =>
    rcases run_cases cached attempts s (t :: turns) with
      ⟨h, -⟩ | ⟨t', turns', heq, hlt, ⟨err, h⟩ | ⟨s', hr, h⟩⟩
    · simp [h]
    · rw [h]
      refine ⟨?_, by simp, by simp⟩
      rw [length_singleton]
      omega
    cases heq
    obtain ⟨hterm, hle, hflag, hcost, hint⟩ := answer_resend hr
    obtain ⟨hlen, hterms, hcount⟩ := ih s'
    have hroom : (if s'.internalRetried then 0 else 1) ≤ if s.internalRetried then 0 else 1 := by
      cases hs : s.internalRetried with
      | true => rw [hflag hs]
      | false => split <;> simp
    rw [h, Ended.after]
    refine ⟨?_, fun r hmem => ?_, ?_⟩
    · rw [length_cons]
      rcases hcost with hcost | ⟨hcost, hs, hs'⟩
      · omega
      rw [hs', if_pos rfl] at hlen
      rw [hs, if_neg Bool.false_ne_true]
      omega
    · rcases mem_cons.mp (mem_dropLast_cons hmem) with rfl | hmem
      · exact hterm
      · exact hterms r hmem
    · refine (countP_dropLast_cons_le _ _ _).trans ?_
      cases hr' : Reply.internal t.reply with
      | true =>
        obtain ⟨hs, hs'⟩ := hint hr'
        rw [hs', if_pos rfl] at hcount
        rw [hs, if_pos rfl, if_neg Bool.false_ne_true]
        omega
      | false =>
        exact hcount.trans hroom

/-! ### A refresh -/

/-- A reply `INTERNAL` is received from the attempt `a` on while another attempt is left, and only
attempts have been used up before. -/
def internalLater (attempts : ℕ) : ℕ → List (Turn ε) → Bool
  | _, [] => false
  | a, t :: turns =>
    decide (a + 1 < attempts) && (a == 0 || t.done.isNone)
      && (t.reply.internal || t.reply.passes && internalLater attempts (a + 1) turns)

theorem steps_append (h : s.steps cached attempts pre = some s') (post : List (Turn ε)) :
  ∃ sent, s.run cached attempts (pre ++ post)
    = { s'.run cached attempts post with sent := sent ++ (s'.run cached attempts post).sent }
  := by
  induction pre generalizing s with
  | nil =>
    cases h
    exact ⟨[], rfl⟩
  | cons t pre ih =>
    rw [steps] at h
    split at h
    · cases h
    rename_i hlt
    split at h
    · rename_i s'' ht hr
      obtain ⟨sent, hrun⟩ := ih h
      refine ⟨t.reply :: sent, ?_⟩
      rw [cons_append, run_resend (Nat.lt_of_not_ge hlt) ht hr, hrun]
      rfl
    · cases h

theorem steps_concat (s : Loop ε) (pre post : List (Turn ε)) :
  s.steps cached attempts (pre ++ post)
    = (s.steps cached attempts pre).bind fun s' => s'.steps cached attempts post
  := by
  induction pre generalizing s with
  | nil => rfl
  | cons t pre ih =>
    rw [cons_append, steps, steps]
    split
    · rfl
    split
    · exact ih _
    · rfl

/-- While the flag is not set, only attempts have been used up, and no token has been refreshed. -/
theorem steps_unset (h : s.steps cached attempts pre = some s') (hs' : s'.internalRetried = false) :
  s.steps false attempts pre = some s' ∧ s'.attempt = s.attempt + pre.length
    ∧ s.internalRetried = false
  := by
  induction pre generalizing s with
  | nil =>
    cases h
    exact ⟨rfl, rfl, hs'⟩
  | cons t pre ih =>
    rw [steps] at h
    split at h
    · cases h
    rename_i hlt
    split at h
    · rename_i s'' ht hr
      obtain ⟨hsteps, hattempt, hunset⟩ := ih h
      rcases t.reply.cases with ⟨-, -, -, e, hpass⟩ | ⟨-, -, err, hend⟩ | ⟨e, he⟩ | ⟨e, he⟩
      · obtain rfl := Next.resend.inj ((hpass cached s).symm.trans hr)
        refine ⟨?_, ?_, hunset⟩
        · rw [steps, if_neg hlt, ht, hpass]
          exact hsteps
        · rw [hattempt, length_cons]
          dsimp only
          omega
      · exact absurd ((hend cached s).symm.trans hr) (by simp)
      · exact absurd hunset (by rw [(answer_refresh he hr).2]; simp)
      · exact absurd ((answer_resend hr).2.2.2.2 (by rw [he]; rfl)).2 (by simp [hunset])
    · cases h

theorem steps_singleton {u : Turn ε} (h : s.steps cached attempts [u] = some s') :
  s.attempt < attempts ∧ s.answer cached u.reply = .resend s'
  := by
  rw [steps] at h
  split at h
  · cases h
  rename_i hlt
  split at h
  · rename_i s'' ht hr
    cases h
    exact ⟨Nat.lt_of_not_ge hlt, hr⟩
  · cases h

/-- With the flag set, and without it and without a token to refresh, the loop comes to the same,
unless it meets `INTERNAL` with an attempt left. -/
theorem run_flag (a : ℕ) (lastErr : Option ε) (turns : List (Turn ε)) :
  (let e := Loop.run cached attempts ⟨a, true, lastErr⟩ turns
    let e' := Loop.run false attempts ⟨a, false, lastErr⟩ turns
    e.returned = e'.returned ∧ e.retriesLeft = e'.retriesLeft)
    ↔ internalLater attempts a turns = false
  := by
  induction turns generalizing a lastErr with
  | nil => exact iff_of_true ⟨rfl, rfl⟩ rfl
  | cons t turns ih =>
    by_cases hlt : attempts ≤ a
    · rw [run_exhausted hlt, run_exhausted hlt, internalLater, decide_eq_false (by omega)]
      exact iff_of_true ⟨rfl, rfl⟩ rfl
    replace hlt := Nat.lt_of_not_ge hlt
    have hsame : (⟨a, true, lastErr⟩ : Loop ε).interrupted t
        = (⟨a, false, lastErr⟩ : Loop ε).interrupted t := rfl
    have hdone : (a == 0 || t.done.isNone)
        = ((⟨a, false, lastErr⟩ : Loop ε).interrupted t).isNone := by
      cases a <;> simp [interrupted]
    rw [internalLater, hdone]
    cases ht : (⟨a, false, lastErr⟩ : Loop ε).interrupted t with
    | some e =>
      rw [run_interrupted hlt ht, run_interrupted hlt (hsame.trans ht)]
      exact iff_of_true ⟨rfl, rfl⟩ (by simp)
    | none =>
      rcases t.reply.cases with ⟨hp, -, hi, e, hpass⟩ | ⟨hp, hi, err, hend⟩ | ⟨e, he⟩ | ⟨e, he⟩
      · rw [run_resend hlt ht (hpass _ _), run_resend hlt (hsame.trans ht) (hpass _ _), hp, hi]
        refine (ih (a + 1) (some e)).trans ?_
        by_cases hnext : a + 1 < attempts
        · simp [hnext]
        cases turns with
        | nil => simp [internalLater]
        | cons t' turns =>
          have hlast : ¬ a + 1 + 1 < attempts := by omega
          simp [internalLater, hnext, hlast]
      · rw [run_returned hlt ht (hend _ _), run_returned hlt (hsame.trans ht) (hend _ _), hp, hi]
        exact iff_of_true ⟨rfl, rfl⟩ (by simp)
      · have h₁ : (⟨a, true, lastErr⟩ : Loop ε).answer cached t.reply = .returned (some e) := by
          rw [he, answer, if_neg (by simp)]
        have h₂ : (⟨a, false, lastErr⟩ : Loop ε).answer false t.reply = .returned (some e) := by
          rw [he]
          rfl
        rw [run_returned hlt ht h₂, run_returned hlt (hsame.trans ht) h₁, he]
        exact iff_of_true ⟨rfl, rfl⟩ (by simp [Reply.internal, Reply.passes, Status.retryable])
      · have h₁ : (⟨a, true, lastErr⟩ : Loop ε).answer cached t.reply = .returned (some e) := by
          rw [he]
          rfl
        have h₂ : (⟨a, false, lastErr⟩ : Loop ε).answer false t.reply
            = .resend ⟨a + 1, true, some e⟩ := by
          rw [he]
          rfl
        rw [run_returned hlt (hsame.trans ht) h₁, run_resend hlt ht h₂, he]
        by_cases hnext : a + 1 < attempts
        · -- the retry that is made without the flag leaves fewer retries
          have hle := retriesLeft_le false attempts ⟨a + 1, true, some e⟩ turns
          refine iff_of_false (fun h => ?_) (by simp [hnext, Reply.internal])
          have hleft : attempts - 1 - a
              = (Loop.run false attempts ⟨a + 1, true, some e⟩ turns).retriesLeft := h.2
          dsimp only at hle
          omega
        · rw [run_exhausted (by dsimp only; omega)]
          refine iff_of_true ⟨rfl, ?_⟩ (by simp [hnext])
          change attempts - 1 - a = 0
          omega

end Loop

/-- The turn `u` after the turns `pre` is a reply `UNAUTHENTICATED` that is answered by a token
refresh. -/
def Refreshed (attempts : ℕ) (pre : List (Turn ε)) (u : Turn ε) : Prop :=
  (∃ e, u.reply = .refused .unauthenticated e)
    ∧ ((⟨0, false, none⟩ : Loop ε).steps true attempts (pre ++ [u])).isSome = true

/-- The policy of `call`.  At most one more request is sent than there are attempts; no terminal
error is resent, and `INTERNAL` once at most.  A refresh is not seen by the rest, except that there
is no second one, unless and only unless `INTERNAL` is received after it with an attempt left. -/
theorem call_policy (attempts : ℤ) :
  (∀ cached, ∀ turns : List (Turn ε),
      (call cached attempts turns).sent.length ≤ (max attempts 1).toNat + 1
      ∧ (∀ r ∈ (call cached attempts turns).sent.dropLast, r.terminal = false)
      ∧ (call cached attempts turns).sent.dropLast.countP Reply.internal ≤ 1)
    ∧ ∀ (pre post : List (Turn ε)) u, Refreshed (max attempts 1).toNat pre u →
      (let e := call true attempts (pre ++ u :: post)
        let e' := call false attempts (pre ++ post)
        (e.returned = e'.returned ∧ e.retriesLeft = e'.retriesLeft)
          ↔ Loop.internalLater (max attempts 1).toNat pre.length post = false)
  := by
  refine ⟨fun cached turns => ?_, fun pre post u hu => ?_⟩
  · exact Loop.run_sent ⟨0, false, none⟩ turns
  obtain ⟨⟨e, he⟩, hsteps⟩ := hu
  obtain ⟨s', hs'⟩ := Option.isSome_iff_exists.mp hsteps
  obtain ⟨sent, hrun⟩ := Loop.steps_append hs' post
  rw [Loop.steps_concat, Option.bind_eq_some_iff] at hs'
  obtain ⟨s, hpre, hu⟩ := hs'
  obtain ⟨hlt, hrefresh⟩ := Loop.steps_singleton hu
  obtain ⟨a, flag, lastErr⟩ := s
  obtain ⟨rfl, rfl⟩ := Loop.answer_refresh he hrefresh
  obtain ⟨hpre', hattempt, -⟩ := Loop.steps_unset hpre rfl
  obtain ⟨sent', hrun'⟩ := Loop.steps_append hpre' post
  obtain rfl : a = pre.length := hattempt.trans (Nat.zero_add _)
  rw [append_assoc, singleton_append] at hrun
  have hlast : Loop.run true (max attempts 1).toNat ⟨pre.length, true, some e⟩ post
      = Loop.run true (max attempts 1).toNat ⟨pre.length, true, lastErr⟩ post :=
    Loop.run_lastErr (s := ⟨pre.length, true, lastErr⟩) hlt (some e) post
  rw [call, call, hrun, hrun', hlast]
  exact Loop.run_flag pre.length lastErr post

/-- After a refresh `INTERNAL` is not retried although two attempts are left, and a second refusal
of the token is returned; without the first refusal, either call succeeds. -/
theorem refresh_visible :
  let refusal (status : Status) : Turn Status := ⟨none, .refused status status⟩
  let u := refusal .unauthenticated
  let ok : Turn Status := ⟨none, .ok⟩
  Refreshed 3 [] u
    ∧ (call true 3 [u, refusal .internal, ok]).returned = some (some .internal)
    ∧ (call true 3 [refusal .internal, ok]).returned = some none
    ∧ (call true 3 [u, u, ok]).returned = some (some .unauthenticated)
    ∧ (call true 3 [u, ok]).returned = some none
  := ⟨⟨⟨_, rfl⟩, rfl⟩, by decide, by decide, by decide, by decide⟩

/-- A refresh before a reply `UNAVAILABLE` and a success. -/
theorem call_policy_unavailable :
  let u : Turn Status := ⟨none, .refused .unauthenticated .unauthenticated⟩
  let post := [⟨none, .refused .unavailable .unavailable⟩, ⟨none, .ok⟩]
  (call true 3 ([] ++ u :: post)).returned = (call false 3 ([] ++ post)).returned
    ∧ (call true 3 ([] ++ u :: post)).retriesLeft = (call false 3 ([] ++ post)).retriesLeft
  := ((call_policy 3).2 [] _ _ ⟨⟨_, rfl⟩, rfl⟩).mpr (by decide)

end Datastore
