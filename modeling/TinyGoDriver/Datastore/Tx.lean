import Mathlib.Data.List.Basic
import Mathlib.Tactic.Linarith

/-!
# `RunInTransaction`

A transaction starts inside the first read, whose reply carries its handle, or inside the commit.
The closure is a program of reads and queued mutations; what it does next may depend on all that it
has read, in this attempt or before, and on anything else.  The server answers every request as it
likes.  What an attempt does is recorded as a list of events.
-/

namespace Datastore

/-- The handle of a transaction, empty if there is none. -/
abbrev Handle := List UInt8

/-- The transaction that a request names: one that is open, or a new one with these options. -/
inductive Start where
  | within (handle : Handle)
  | fresh (readOnly : Bool)
  deriving DecidableEq, Repr

inductive Event (M : Type) where
  | queued (m : M)
  /-- A read, with the handle in its reply if it succeeded. -/
  | read (start : Start) (reply : Option Handle)
  | commit (start : Start) (mutations : List M) (ok : Bool)
  | rollback (handle : Handle)
  deriving DecidableEq, Repr

structure Tx (M : Type) where
  handle : Handle
  readOnly : Bool
  mutations : List M

/-- What a closure does with its `Tx`. -/
inductive Closure (M ε D : Type) where
  | ret (err : Option ε)
  | queue (m : M) (k : Closure M ε D)
  | read (k : Except ε D → Closure M ε D)

/-- An attempt: its events, the error of the closure and the error of the attempt. -/
structure Attempt (M ε : Type) where
  events : List (Event M)
  closureErr : Option ε
  err : Option ε

/-- What `RunInTransaction` depends on: the replies to the requests after the events so far, which
mutations cannot be encoded, which errors are `ErrAborted`, and whether the context is done before
the backoff after some attempts is over. -/
structure World (M ε D : Type) where
  read : List (Event M) → Start → Except ε (Handle × D)
  commit : List (Event M) → Start → List M → Option ε
  encode : M → Option ε
  aborted : ε → Bool
  done : List (Attempt M ε) → Option ε
  readOnlyWrite : ε

variable {M ε D : Type}

/-- `buildReadOptions` and `commit`: the transaction that the next request names. -/
def Tx.start (tx : Tx M) : Start :=
  if tx.handle = [] then .fresh tx.readOnly else .within tx.handle

def Tx.adopt (tx : Tx M) (handle : Handle) : Tx M :=
  if handle = [] ∨ tx.handle ≠ [] then tx else { tx with handle := handle }

def Tx.queue (tx : Tx M) (m : M) : Tx M := { tx with mutations := tx.mutations ++ [m] }

/-- `fn(tx)`, after the events `past` and with the events of this attempt so far. -/
def Closure.run (w : World M ε D) (past : List (Event M)) :
    Closure M ε D → Tx M → List (Event M) → Option ε × Tx M × List (Event M)
  | .ret err, tx, evs => (err, tx, evs)
  | .queue m k, tx, evs => k.run w past (tx.queue m) (evs ++ [.queued m])
  | .read k, tx, evs =>
    match w.read (past ++ evs) tx.start with
    | .error e => (k (.error e)).run w past tx (evs ++ [.read tx.start none])
    | .ok (h, d) => (k (.ok d)).run w past (tx.adopt h) (evs ++ [.read tx.start (some h)])

/-- The end of an attempt whose closure succeeded: `commit`, or `releaseEmpty` if nothing was
queued, or nothing if nothing was read either. -/
def Tx.commit (w : World M ε D) (past : List (Event M)) (tx : Tx M) : Option ε × List (Event M) :=
  if tx.mutations = [] ∧ tx.handle = [] then
    (none, [])
  else
    match tx.mutations.findSome? w.encode with
    | some e => (some e, [])
    | none =>
      let err := w.commit past tx.start tx.mutations
      (err, [.commit tx.start tx.mutations err.isNone])

/-- The deferred call, if nothing was committed; its own error is ignored. -/
def Tx.rollback (tx : Tx M) : List (Event M) :=
  if tx.handle = [] then [] else [.rollback tx.handle]

/-- The check that `RunReadOnly` makes after the closure. -/
def Tx.readOnlyErr (w : World M ε D) (tx : Tx M) (err : Option ε) : Option ε :=
  if tx.readOnly ∧ err.isNone ∧ tx.mutations ≠ [] then some w.readOnlyWrite else err

def runOneTransaction (w : World M ε D) (readOnly : Bool) (past : List (Event M))
    (fn : Closure M ε D) : Attempt M ε :=
  let (err, tx, evs) := fn.run w past ⟨[], readOnly, []⟩ []
  match tx.readOnlyErr w err with
  | some e => ⟨evs ++ tx.rollback, some e, some e⟩
  | none =>
    match tx.commit w (past ++ evs) with
    | (none, sent) => ⟨evs ++ sent, none, none⟩
    | (some e, sent) => ⟨evs ++ sent ++ tx.rollback, none, some e⟩

/-- The loop of `RunInTransaction` for `n` more attempts after those made. -/
def runAttempts (w : World M ε D) (readOnly : Bool) (fn : List (Attempt M ε) → Closure M ε D) :
    ℕ → List (Attempt M ε) → Option ε → List (Attempt M ε) × Option ε
  | 0, made, lastErr => (made, lastErr)
  | n + 1, made, _ =>
    match if made = [] then none else w.done made with
    | some e => (made, some e)
    | none =>
      let a := runOneTransaction w readOnly (made.flatMap Attempt.events) (fn made)
      match a.err with
      | none => (made ++ [a], none)
      | some e =>
        if w.aborted e then runAttempts w readOnly fn n (made ++ [a]) (some e)
        else (made ++ [a], some e)

/-- `RunInTransaction` and `RunReadOnly`: the attempts and the error. -/
def runInTransaction (w : World M ε D) (readOnly : Bool) (attempts : ℤ)
    (fn : List (Attempt M ε) → Closure M ε D) : List (Attempt M ε) × Option ε :=
  runAttempts w readOnly fn (max attempts 1).toNat [] none

/-! ### What the events of an attempt tell -/

/-- The mutations that were queued. -/
def queuedIn (evs : List (Event M)) : List M :=
  evs.filterMap fun
    | .queued m => some m
    | _ => none

/-- The handle that was adopted. -/
def adoptedIn : List (Event M) → Handle
  | [] => []
  | .read _ (some h) :: evs => if h = [] then adoptedIn evs else h
  | _ :: evs => adoptedIn evs

def Event.isCommit : Event M → Bool
  | .commit _ _ _ => true
  | _ => false

/-- A commit reported successful. -/
def Event.committed : Event M → Bool
  | .commit _ _ ok => ok
  | _ => false

/-- A commit of the transaction that is reported successful, or a rollback call for it. -/
def Event.ends (h : Handle) : Event M → Bool
  | .commit (.within h') _ ok => ok && h' == h
  | .rollback h' => h' == h
  | _ => false

/-- What is promised of an attempt. -/
structure Attempt.Disciplined (a : Attempt M ε) : Prop where
  /-- A handle is ended once. -/
  ended : adoptedIn a.events ≠ [] → a.events.countP (Event.ends (adoptedIn a.events)) = 1
  /-- A closure that fails commits nothing. -/
  failed : a.closureErr ≠ none → ∀ e ∈ a.events, e.isCommit = false
  once : a.events.countP Event.committed ≤ 1
  /-- What is committed was queued in this attempt. -/
  own : ∀ start ms ok, .commit start ms ok ∈ a.events → ms = queuedIn a.events

/-- While the closure runs, nothing is committed or rolled back, and the `Tx` holds what the events
say. -/
structure Tx.Holds (tx : Tx M) (evs : List (Event M)) : Prop where
  mutations_eq : tx.mutations = queuedIn evs
  handle_eq : tx.handle = adoptedIn evs
  open_ : ∀ e ∈ evs, (∃ m, e = .queued m) ∨ ∃ start reply, e = .read start reply

theorem adoptedIn_append (evs evs' : List (Event M)) :
  adoptedIn (evs ++ evs') = if adoptedIn evs = [] then adoptedIn evs' else adoptedIn evs
  := by
  induction evs with
  | nil => rfl
  | cons e evs ih =>
    cases e with
    | read start reply =>
      cases reply with
      | none => exact ih
      | some h =>
        rw [List.cons_append, adoptedIn, adoptedIn]
        split
        · exact ih
        · rfl
    | queued m | commit start ms ok | rollback h => exact ih

variable {tx : Tx M} {evs : List (Event M)}

theorem Tx.Holds.queue (h : tx.Holds evs) (m : M) :
  (tx.queue m).Holds (evs ++ [.queued m])
  := by
  refine ⟨?_, ?_, ?_⟩
  · rw [Tx.queue, h.mutations_eq, queuedIn, queuedIn, List.filterMap_append]
    rfl
  · rw [adoptedIn_append, ← h.handle_eq]
    split
    · assumption
    · rfl
  · simp only [List.forall_mem_append, List.forall_mem_singleton]
    exact ⟨h.open_, .inl ⟨m, rfl⟩⟩

theorem Tx.Holds.read {tx' : Tx M} (h : tx.Holds evs) (start : Start) {reply : Option Handle}
    (hmutations : tx'.mutations = tx.mutations)
    (hhandle : tx'.handle = if tx.handle = [] then reply.getD [] else tx.handle) :
  tx'.Holds (evs ++ [.read start reply])
  := by
  refine ⟨?_, ?_, ?_⟩
  · rw [hmutations, h.mutations_eq, queuedIn, queuedIn]
    simp
  · rw [hhandle, adoptedIn_append, ← h.handle_eq]
    cases reply with
    | none => rfl
    | some r =>
      congr 1
      rw [adoptedIn]
      split
      · assumption
      · rfl
  · simp only [List.forall_mem_append, List.forall_mem_singleton]
    exact ⟨h.open_, .inr ⟨start, reply, rfl⟩⟩

variable (w : World M ε D)

/-- The closure keeps the `Tx` in step with the events. -/
theorem Closure.run_holds (past : List (Event M)) (fn : Closure M ε D)
    (h : tx.Holds evs) :
  (fn.run w past tx evs).2.1.Holds (fn.run w past tx evs).2.2
  := by
  induction fn generalizing tx evs with
  | ret err => exact h
  | queue m k ih => exact ih (h.queue m)
  | read k ih =>
    rw [Closure.run]
    split
    · exact ih _ (h.read tx.start rfl (by split <;> simp_all))
    refine ih _ (h.read tx.start ?_ ?_)
    · rw [Tx.adopt]
      split <;> rfl
    rw [Tx.adopt]
    split
    · rename_i hkeep
      rcases hkeep with rfl | hne
      · split
        · assumption
        · rfl
      · rw [if_neg hne]
    · rename_i hadopt
      simp only [not_or, not_not] at hadopt
      rw [if_pos hadopt.2]
      rfl

theorem Tx.Holds.countP_eq_zero (h : tx.Holds evs) {p : Event M → Bool}
    (hqueued : ∀ m, p (.queued m) = false) (hread : ∀ start reply, p (.read start reply) = false) :
  evs.countP p = 0
  := by
  rw [List.countP_eq_zero]
  intro e he
  rcases h.open_ e he with ⟨m, rfl⟩ | ⟨start, reply, rfl⟩
  · simp [hqueued]
  · simp [hread]

/-- An attempt is disciplined if its last events are. -/
theorem Tx.Holds.disciplined {tail : List (Event M)} (h : tx.Holds evs) (closureErr err : Option ε)
    (htail : ∀ e ∈ tail, (∃ ok, e = .commit tx.start tx.mutations ok) ∨ e = .rollback tx.handle)
    (hended : tx.handle ≠ [] → tail.countP (Event.ends tx.handle) = 1)
    (honce : tail.countP Event.committed ≤ 1)
    (hfailed : closureErr ≠ none → ∀ e ∈ tail, e.isCommit = false) :
  (⟨evs ++ tail, closureErr, err⟩ : Attempt M ε).Disciplined
  := by
  have hadopted : adoptedIn (evs ++ tail) = tx.handle := by
    have hnil : adoptedIn tail = [] := by
      clear hended honce hfailed
      induction tail with
      | nil => rfl
      | cons e tail ih =>
        rw [List.forall_mem_cons] at htail
        rcases htail.1 with ⟨ok, rfl⟩ | rfl
        · exact ih htail.2
        · exact ih htail.2
    rw [adoptedIn_append, ← h.handle_eq, hnil]
    split
    · exact Eq.symm ‹_›
    · rfl
  have hqueued : queuedIn (evs ++ tail) = tx.mutations := by
    have hnil : queuedIn tail = [] := by
      rw [queuedIn, List.filterMap_eq_nil_iff]
      intro e he
      rcases htail e he with ⟨ok, rfl⟩ | rfl <;> rfl
    rw [queuedIn, List.filterMap_append, ← queuedIn, ← queuedIn, hnil, List.append_nil,
      h.mutations_eq]
  refine ⟨fun hne => ?_, fun hne e he => ?_, ?_, fun start ms ok he => ?_⟩
  · rw [hadopted] at hne ⊢
    rw [List.countP_append, h.countP_eq_zero (fun _ => rfl) (fun _ _ => rfl), hended hne]
  · rcases List.mem_append.mp he with he | he
    · rcases h.open_ e he with ⟨m, rfl⟩ | ⟨start, reply, rfl⟩ <;> rfl
    · exact hfailed hne e he
  · rw [List.countP_append, h.countP_eq_zero (fun _ => rfl) (fun _ _ => rfl)]
    omega
  · rw [hqueued]
    rcases List.mem_append.mp he with he | he
    · rcases h.open_ _ he with ⟨m, heq⟩ | ⟨start, reply, heq⟩ <;> cases heq
    rcases htail _ he with ⟨ok, heq⟩ | heq
    · cases heq
      rfl
    · cases heq

theorem Tx.rollback_of_ne (h : tx.handle ≠ []) :
  tx.rollback = [.rollback tx.handle] ∧ tx.start = .within tx.handle
  := by
  rw [rollback, start, if_neg h, if_neg h]
  exact ⟨rfl, rfl⟩

/-- What `commit` sends: nothing, or one request; and with nothing sent there is an error, unless
there is no transaction. -/
theorem Tx.commit_cases (past : List (Event M)) (tx : Tx M) :
  (tx.commit w past = (none, []) ∧ tx.handle = [])
    ∨ (∃ e, tx.commit w past = (some e, []))
    ∨ ∃ err : Option ε, tx.commit w past
        = (err, [.commit tx.start tx.mutations err.isNone])
  := by
  rw [commit]
  split
  · exact .inl ⟨rfl, (by assumption : _ ∧ _).2⟩
  split
  · exact .inr (.inl ⟨_, rfl⟩)
  · exact .inr (.inr ⟨_, rfl⟩)

theorem runOneTransaction_disciplined (readOnly : Bool) (past : List (Event M))
    (fn : Closure M ε D) :
  (runOneTransaction w readOnly past fn).Disciplined
  := by
  have hnew : (⟨[], readOnly, []⟩ : Tx M).Holds [] := ⟨rfl, rfl, by simp⟩
  have h := fn.run_holds w past hnew
  rw [runOneTransaction]
  generalize fn.run w past ⟨[], readOnly, []⟩ [] = r at h
  obtain ⟨err, tx, evs⟩ := r
  dsimp only at h ⊢
  have hrollback : ∀ e ∈ tx.rollback, e = .rollback tx.handle := by
    intro e he
    rw [Tx.rollback] at he
    split at he <;> simp_all
  have hcommitted : tx.rollback.countP Event.committed = 0 := by
    rw [List.countP_eq_zero]
    intro e he
    rw [hrollback e he]
    simp [Event.committed]
  have hends : tx.handle ≠ [] → tx.rollback.countP (Event.ends tx.handle) = 1 := by
    intro hne
    rw [(Tx.rollback_of_ne hne).1]
    simp [Event.ends]
  split
  · -- the closure failed
    refine h.disciplined _ _ (fun e he => .inr (hrollback e he)) hends (by omega) fun _ e he => ?_
    rw [hrollback e he]
    rfl
  rcases tx.commit_cases w (past ++ evs) with ⟨hcommit, hnone⟩ | ⟨e, hcommit⟩ | ⟨err, hcommit⟩
  · rw [hcommit]
    exact h.disciplined _ _ (by simp) (fun hne => absurd hnone hne) (by simp) (by simp)
  · rw [hcommit]
    dsimp only
    rw [List.append_nil]
    exact h.disciplined _ _ (fun e he => .inr (hrollback e he)) hends (by omega) (by simp)
  rw [hcommit]
  cases err with
  | none =>
    refine h.disciplined _ _ (by simp) (fun hne => ?_) (by simp [Event.committed]) (by simp)
    rw [(Tx.rollback_of_ne hne).2]
    simp [Event.ends]
  | some e =>
    dsimp only
    rw [List.append_assoc]
    refine h.disciplined _ _ (fun e he => ?_) (fun hne => ?_) ?_ (by simp)
    · rcases List.mem_append.mp he with he | he
      · exact .inl ⟨_, List.mem_singleton.mp he⟩
      · exact .inr (hrollback e he)
    · rw [List.countP_append, hends hne, (Tx.rollback_of_ne hne).2]
      simp [Event.ends]
    · rw [List.countP_append, hcommitted]
      simp [Event.committed]

/-- The attempts of the loop: no more than allowed, all but the last aborted, each disciplined. -/
theorem runAttempts_disciplined (readOnly : Bool)
    (fn : List (Attempt M ε) → Closure M ε D) (n : ℕ) (made : List (Attempt M ε))
    (lastErr : Option ε) (hmade : ∀ a ∈ made, a.Disciplined)
    (haborted : ∀ a ∈ made, ∃ e, a.err = some e ∧ w.aborted e = true) :
  let all := (runAttempts w readOnly fn n made lastErr).1
  all.length ≤ made.length + n ∧ (∀ a ∈ all, a.Disciplined)
    ∧ ∀ a ∈ all.dropLast, ∃ e, a.err = some e ∧ w.aborted e = true
  := by
  have hdrop : ∀ a ∈ made.dropLast, ∃ e, a.err = some e ∧ w.aborted e = true :=
    fun a ha => haborted a (List.dropLast_subset _ ha)
  induction n generalizing made lastErr with
  | zero => exact ⟨le_rfl, hmade, hdrop⟩
  | succ n ih =>
    rw [runAttempts]
    split
    · exact ⟨Nat.le_add_right _ _, hmade, hdrop⟩
    have ha := runOneTransaction_disciplined w readOnly (made.flatMap Attempt.events) (fn made)
    generalize runOneTransaction w readOnly (made.flatMap Attempt.events) (fn made) = a at ha
    dsimp only
    have hall : ∀ b ∈ made ++ [a], b.Disciplined := by
      simpa [or_imp, forall_and] using ⟨hmade, ha⟩
    have hlast : ∀ b ∈ (made ++ [a]).dropLast, ∃ e, b.err = some e ∧ w.aborted e = true := by
      simpa using haborted
    have hlength : (made ++ [a]).length = made.length + 1 := by simp
    cases herr : a.err with
    | none => exact ⟨by rw [hlength]; omega, hall, hlast⟩
    | some e =>
      dsimp only
      split
      · rename_i hab
        have haborted' : ∀ b ∈ made ++ [a], ∃ e, b.err = some e ∧ w.aborted e = true := by
          simpa [or_imp, forall_and] using ⟨haborted, e, herr, hab⟩
        obtain ⟨hle, hrest⟩ := ih (made ++ [a]) (some e) hall haborted' hlast
        exact ⟨by rw [hlength] at hle; omega, hrest⟩
      · exact ⟨by rw [hlength]; omega, hall, hlast⟩

/-- Whatever the closure does and the server replies: in every attempt an adopted handle is ended by
exactly one of a commit reported successful and a rollback call, a closure that fails sends no
commit, at most one commit succeeds, and only what was queued in the attempt is committed; the
closure runs again only after an attempt that ended in `ErrAborted`, and as often as is configured
at most. -/
theorem transaction_discipline (w : World M ε D) (readOnly : Bool) (attempts : ℤ)
    (fn : List (Attempt M ε) → Closure M ε D) :
  let all := (runInTransaction w readOnly attempts fn).1
  (all.length : ℤ) ≤ max attempts 1 ∧ (∀ a ∈ all, a.Disciplined)
    ∧ ∀ a ∈ all.dropLast, ∃ e, a.err = some e ∧ w.aborted e = true
  := by
  obtain ⟨hle, hrest⟩ := runAttempts_disciplined w readOnly fn (max attempts 1).toNat [] none
    (by simp) (by simp)
  refine ⟨?_, hrest⟩
  rw [List.length_nil] at hle
  rw [runInTransaction]
  omega

/-- A read and a mutation, whose first commit is aborted. -/
theorem transaction_discipline_aborted :
  let w : World ℕ ℕ Unit := ⟨fun _ _ => .ok ([1], ()),
    fun past _ _ => if past.length < 3 then some 409 else none, fun _ => none, (· == 409),
    fun _ => none, 0⟩
  let all := (runInTransaction w false 3 fun _ => .read fun _ => .queue 7 (.ret none)).1
  all.map Attempt.events
      = [[.read (.fresh false) (some [1]), .queued 7, .commit (.within [1]) [7] false,
          .rollback [1]],
        [.read (.fresh false) (some [1]), .queued 7, .commit (.within [1]) [7] true]]
    ∧ ∀ a ∈ all, a.Disciplined
  := ⟨by decide, (transaction_discipline _ false 3 _).2.1⟩

end Datastore
