import TinyGoDriver.Lib.Interleaving

/-!
# Cancellation

A step of a statement cannot be stopped but through its connection: `sqlite3_interrupt` sets a flag
of it, at which whatever is running on it fails.  The flag is cleared by the next `sqlite3_prepare`
or `sqlite3_step`, but not while a statement of the connection is active, that is between its rows.

So the driver has watchers, goroutines that wait for a context to be done and then interrupt the
connection.  An `Exec` has one for its only step; a result set has one from its opening to its
closing, so that it watches between the steps too.

The calls on a connection exclude each other by `conn.mu`, which a call holds from its start until
its watcher has stopped.  The watchers hold nothing.
-/

namespace Sqlite.Interrupt

open Interleaving

/-- What `sqlite3_step` returns if it is not interrupted. -/
inductive Rc where
  | row
  | done
  | error (code : ℕ)
  deriving DecidableEq, Repr

/-- What a call returns. -/
inductive Ret where
  | rc (rc : Rc)
  /-- an error after its own context was done -/
  | canceled
  /-- the error of SQLite about an interrupted step -/
  | interrupted
  deriving DecidableEq, Repr

/-- What a statement and its watcher belong to. -/
inductive Owner where
  | exec (call : ℕ)
  | rows (id : ℕ)
  deriving DecidableEq, Repr

structure Watcher where
  owner : Owner
  ctx : ℕ
  /-- whether the channel that tells it to stop is closed -/
  told : Bool
  deriving DecidableEq, Repr

/-- Where the call that holds `conn.mu` is. -/
inductive Phase where
  /-- in `sqlite3_prepare` -/
  | preparing
  /-- in `sqlite3_step` -/
  | stepping
  /-- in `conn.stepLocked`, behind the step, waiting for the watcher to stop -/
  | finishing (ret : Ret)
  /-- in `closeLocked`, waiting for the watcher to stop, with what `Next` will return -/
  | closing (ret : Option Ret)
  deriving DecidableEq, Repr

/-- SQLite is at work for the call. -/
def Phase.runs : Phase → Bool
  | preparing | stepping => true
  | _ => false

structure Call where
  owner : Owner
  ctx : ℕ
  phase : Phase
  deriving DecidableEq, Repr

structure State where
  cancelled : ℕ → Bool
  watchers : List Watcher
  /-- the call that holds `conn.mu` -/
  mu : Option Call
  /-- the open result sets, with their contexts -/
  rows : ℕ → Option ℕ
  /-- those whose statement is between two rows -/
  active : List ℕ
  /-- the flag that `sqlite3_interrupt` sets -/
  isInterrupted : Bool
  /-- what the calls have returned, with their contexts -/
  returned : List (ℕ × Ret)

def State.init : State :=
  { cancelled := fun _ => false, watchers := [], mu := none, rows := fun _ => none, active := [],
    isInterrupted := false, returned := [] }

inductive Action where
  | cancel (ctx : ℕ)
  /-- `ExecContext` and `QueryContext` of a connection, up to `sqlite3_prepare` -/
  | prepare (owner : Owner) (ctx : ℕ)
  /-- `sqlite3_prepare` returns -/
  | prepared
  /-- `QueryContext` of a prepared statement -/
  | query (id ctx : ℕ)
  /-- `ExecContext` of a prepared statement, up to its step -/
  | exec (call ctx : ℕ)
  /-- `rows.Next`, up to its step -/
  | next (id : ℕ)
  /-- the running step returns -/
  | stepEnd (rc : Rc)
  /-- a watcher whose context is done interrupts the connection and stops -/
  | interrupt (w : Watcher)
  /-- a watcher stops as it is told -/
  | leave (w : Watcher)
  /-- `rows.Close` -/
  | close (id : ℕ)
  /-- the watcher has stopped, and the call returns -/
  | join
  deriving DecidableEq, Repr

namespace State

def resultError (s : State) (ctx : ℕ) (ret : Ret) : Ret :=
  if ret = .interrupted ∧ s.cancelled ctx = true then .canceled else ret

def ret (s : State) (ctx : ℕ) (ret : Ret) : State :=
  { s with returned := s.returned ++ [(ctx, ret)] }

/-- The watcher of a context that can be done. -/
def watch (s : State) (fires : ℕ → Bool) (owner : Owner) (ctx : ℕ) : State :=
  if fires ctx then { s with watchers := s.watchers ++ [⟨owner, ctx, false⟩] } else s

/-- The watchers of a statement are told to stop. -/
def tell (s : State) (owner : Owner) : State :=
  { s with
    watchers := s.watchers.map fun w => if w.owner = owner then { w with told := true } else w }

/-- `closeLocked`, up to the wait for the watcher. -/
def closeLocked (s : State) (id ctx : ℕ) (ret : Option Ret) : State :=
  { s.tell (.rows id) with
    rows := Function.update s.rows id none, active := s.active.erase id,
    mu := some ⟨.rows id, ctx, .closing ret⟩ }

/-- SQLite starts to work, and clears the flag if no statement is active. -/
def start (s : State) (owner : Owner) (ctx : ℕ) (phase : Phase) : State :=
  { s with
    mu := some ⟨owner, ctx, phase⟩, isInterrupted := s.isInterrupted && !s.active.isEmpty }

def newRows (s : State) (fires : ℕ → Bool) (id ctx : ℕ) : State :=
  { s.watch fires (.rows id) ctx with rows := Function.update s.rows id (some ctx), mu := none }

/-- `conn.stepLocked`, up to its step. -/
def stepLocked (s : State) (fires : ℕ → Bool) (call ctx : ℕ) : State :=
  if s.cancelled ctx then { s.ret ctx .canceled with mu := none }
  else (s.watch fires (.exec call) ctx).start (.exec call) ctx .stepping

end State

/-- What a step returns. -/
def stepRet (interrupted : Bool) (rc : Rc) : Ret := if interrupted then .interrupted else .rc rc

/-- One action.  `fires` tells which contexts can be done. -/
def step (fires : ℕ → Bool) (a : Action) (s : State) : Option State :=
  match a with
  | .cancel c =>
    if fires c then some { s with cancelled := Function.update s.cancelled c true } else none
  | .prepare owner c =>
    if s.mu = none then
      if s.cancelled c then some (s.ret c .canceled) else some (s.start owner c .preparing)
    else none
  | .prepared =>
    match s.mu with
    | some ⟨owner, c, .preparing⟩ =>
      -- `prepareLocked` returns the error of SQLite also if its own context is done
      if s.isInterrupted then some { s.ret c (s.resultError c .interrupted) with mu := none }
      else
        match owner with
        | .exec n => some (s.stepLocked fires n c)
        | .rows r => if s.rows r = none then some (s.newRows fires r c) else none
    | _ => none
  | .query r c =>
    if s.mu = none ∧ s.rows r = none then some (s.newRows fires r c) else none
  | .exec n c => if s.mu = none then some (s.stepLocked fires n c) else none
  | .next r =>
    match s.mu, s.rows r with
    | none, some c =>
      if s.cancelled c then some (s.closeLocked r c (some .canceled))
      else some (s.start (.rows r) c .stepping)
    | _, _ => none
  | .stepEnd rc =>
    match s.mu with
    | some ⟨owner, c, .stepping⟩ =>
      let ret := stepRet s.isInterrupted rc
      match owner with
      | .exec n => some { s.tell (.exec n) with mu := some ⟨.exec n, c, .finishing ret⟩ }
      | .rows r =>
        if ret = .rc .row then
          some { s.ret c ret with mu := none, active := r :: s.active.erase r }
        else some (s.closeLocked r c (some (s.resultError c ret)))
    | _ => none
  | .interrupt w =>
    if w ∈ s.watchers ∧ s.cancelled w.ctx = true then
      some { s with watchers := s.watchers.erase w, isInterrupted := true }
    else none
  | .leave w =>
    if w ∈ s.watchers ∧ w.told = true then
      some { s with watchers := s.watchers.erase w }
    else none
  | .close r =>
    match s.mu, s.rows r with
    | none, some c => some (s.closeLocked r c none)
    | _, _ => none
  | .join =>
    match s.mu with
    | some ⟨owner, c, .finishing ret⟩ =>
      if ∀ w ∈ s.watchers, w.owner ≠ owner then
        some { s.ret c (s.resultError c ret) with mu := none }
      else none
    | some ⟨owner, c, .closing ret⟩ =>
      if ∀ w ∈ s.watchers, w.owner ≠ owner then
        match ret with
        | some ret => some { s.ret c ret with mu := none }
        | none => some { s with mu := none }
      else none
    | _ => none

/-! ### Isolation -/

/-- No call has failed for being interrupted, but for its own context. -/
def Isolated (s : State) : Prop := ∀ x ∈ s.returned, x.2 ≠ .interrupted

/-- Every context of a watcher that has been cancelled is `c`, or `c` has been too. -/
def Clear (s : State) (c : ℕ) : Prop :=
  s.cancelled c = true ∨ ∀ w ∈ s.watchers, s.cancelled w.ctx = true → w.ctx = c

/-- Nothing is left over that would interrupt a call under the context. -/
def Ready (s : State) (c : ℕ) : Prop :=
  Clear s c ∧ (s.cancelled c = true ∨ (s.isInterrupted = true → s.active = []))

/-- SQLite is set to work only if no context of a watcher but the call's own has been cancelled, and
its flag is not set while a statement is active; and while it works under a context that is not
cancelled no other context of a watcher is. -/
def Apart (a : Action) (s : State) : Prop :=
  match a with
  | .prepare _ c | .exec _ c => Ready s c
  | .next r => ∀ c ∈ s.rows r, Ready s c
  | .cancel c => ∀ call ∈ s.mu, call.phase.runs = true →
      s.cancelled call.ctx = true ∨ call.ctx = c ∨ ∀ w ∈ s.watchers, w.ctx ≠ c
  | _ => True

/-- The call that holds `conn.mu` will not fail for another's context. -/
def Call.Safe (s : State) (call : Call) : Prop :=
  match call.phase with
  | .preparing | .stepping =>
    Clear s call.ctx ∧ (s.isInterrupted = true → s.cancelled call.ctx = true)
  | .finishing ret => ret = .interrupted → s.cancelled call.ctx = true
  | .closing ret => ret ≠ some .interrupted

structure Inv (s : State) : Prop where
  safe : ∀ call ∈ s.mu, call.Safe s
  isolated : Isolated s

theorem Inv.init :
  Inv .init
  := ⟨by simp [State.init], by simp [Isolated, State.init]⟩

section

variable {s t : State} {c c' : ℕ} {call : Call}

theorem Isolated.ret {r : Ret} (h : Isolated s) (hr : r ≠ .interrupted) :
  Isolated (s.ret c r)
  := by
  intro x hx
  rcases List.mem_append.mp hx with hx | hx
  · exact h x hx
  · rw [List.mem_singleton.mp hx]
    exact hr

theorem resultError_ne {r : Ret} (h : r = .interrupted → s.cancelled c = true) :
  s.resultError c r ≠ .interrupted
  := by
  unfold State.resultError
  split
  · simp
  · rename_i hnot
    exact fun hr => hnot ⟨hr, h hr⟩

/-- With the same contexts cancelled, and no other contexts watched. -/
theorem Clear.of_watchers (h : Clear s c) (hcancelled : t.cancelled = s.cancelled)
    (hwatchers : ∀ w ∈ t.watchers, w.ctx = c ∨ w ∈ s.watchers) :
  Clear t c
  := by
  unfold Clear
  rw [hcancelled]
  refine h.imp_right fun hall w hw hdone => ?_
  rcases hwatchers w hw with hctx | hw
  · exact hctx
  · exact hall w hw hdone

theorem clear_watch (h : Clear s c) (fires : ℕ → Bool) (owner : Owner) :
  Clear (s.watch fires owner c) c
  := by
  unfold State.watch
  split
  · refine h.of_watchers rfl fun w hw => ?_
    rcases List.mem_append.mp hw with hw | hw
    · exact .inr hw
    · rw [List.mem_singleton.mp hw]
      exact .inl rfl
  · exact h

theorem cancelled_cancel (h : s.cancelled c = true) :
  Function.update s.cancelled c' true c = true
  := by
  rw [Function.update_apply]
  split
  · rfl
  · exact h

/-- Another context is cancelled. -/
theorem clear_cancel (h : Clear s c)
    (hapart : s.cancelled c = true ∨ c = c' ∨ ∀ w ∈ s.watchers, w.ctx ≠ c') :
  Clear { s with cancelled := Function.update s.cancelled c' true } c
  := by
  rcases hapart with hdone | rfl | hother
  · exact .inl (cancelled_cancel hdone)
  · exact .inl (Function.update_self ..)
  refine h.imp cancelled_cancel fun hall w hw hdone => ?_
  dsimp only at hdone
  rw [Function.update_of_ne (hother w hw)] at hdone
  exact hall w hw hdone

/-- A watcher goes away.  If it interrupts, that hits a call of its own context, or one whose
context has been cancelled too. -/
theorem Call.Safe.erase {w : Watcher} {interrupted : Bool} (h : call.Safe s)
    (hw : interrupted = true → s.isInterrupted = true
      ∨ w ∈ s.watchers ∧ s.cancelled w.ctx = true) :
  call.Safe { s with watchers := s.watchers.erase w, isInterrupted := interrupted }
  := by
  obtain ⟨owner, ctx, phase⟩ := call
  cases phase with
  | preparing | stepping =>
    obtain ⟨hclear, hflag⟩ := h
    refine ⟨hclear.of_watchers rfl fun v hv => .inr (List.mem_of_mem_erase hv), fun hset => ?_⟩
    rcases hw hset with hset | ⟨hw, hdone⟩
    · exact hflag hset
    rcases hclear with hctx | hall
    · exact hctx
    · exact hall w hw hdone ▸ hdone
  | finishing ret | closing ret => exact h

theorem Call.Safe.cancel (h : call.Safe s)
    (hapart : call.phase.runs = true →
      s.cancelled call.ctx = true ∨ call.ctx = c' ∨ ∀ w ∈ s.watchers, w.ctx ≠ c') :
  call.Safe { s with cancelled := Function.update s.cancelled c' true }
  := by
  obtain ⟨owner, ctx, phase⟩ := call
  cases phase with
  | preparing | stepping =>
    exact ⟨clear_cancel h.1 (hapart rfl), fun hset => cancelled_cancel (h.2 hset)⟩
  | finishing ret => exact fun hret => cancelled_cancel (h hret)
  | closing ret => exact h

theorem Inv.free (h : Isolated s) (hmu : s.mu = none) :
  Inv s
  := ⟨by simp [hmu], h⟩

theorem Inv.closeLocked {r : ℕ} {ret : Option Ret} (h : Isolated s)
    (hret : ret ≠ some .interrupted) :
  Inv (s.closeLocked r c ret)
  := by
  refine ⟨fun call hcall => ?_, h⟩
  obtain rfl : _ = call := Option.some_inj.mp hcall
  exact hret

/-- SQLite is set to work when nothing is left over. -/
theorem Inv.start (h : Isolated s) (hready : Ready s c) (owner : Owner) {phase : Phase}
    (hphase : phase.runs = true) :
  Inv (s.start owner c phase)
  := by
  refine ⟨fun call hcall => ?_, h⟩
  obtain rfl : _ = call := Option.some_inj.mp hcall
  have hflag : (s.start owner c phase).isInterrupted = true → s.cancelled c = true := by
    intro hset
    obtain ⟨hset, hactive⟩ := Bool.and_eq_true_iff.mp hset
    exact hready.2.resolve_right fun h => by simp [h hset] at hactive
  cases phase with
  | preparing | stepping => exact ⟨hready.1, hflag⟩
  | finishing | closing => cases hphase

theorem Inv.newRows (h : Isolated s) (fires : ℕ → Bool) (r : ℕ) :
  Inv (s.newRows fires r c)
  := by
  refine .free ?_ rfl
  unfold State.newRows State.watch
  split <;> exact h

theorem Inv.stepLocked (h : Isolated s) (hready : Ready s c) (fires : ℕ → Bool) (n : ℕ) :
  Inv (s.stepLocked fires n c)
  := by
  unfold State.stepLocked
  split
  · exact .free (h.ret (by simp)) rfl
  refine .start ?_ ⟨clear_watch hready.1 fires _, ?_⟩ _ rfl
  · unfold State.watch
    split <;> exact h
  · unfold State.watch
    split <;> exact hready.2

end

theorem Inv.step {fires : ℕ → Bool} {a : Action} {s t : State} (hapart : Apart a s)
    (h : step fires a s = some t) (hs : Inv s) :
  Inv t
  := by
  obtain ⟨hsafe, hisolated⟩ := hs
  cases a with
  | cancel c =>
    obtain ⟨-, rfl⟩ := guard_eq_some.mp h
    exact ⟨fun call hcall => (hsafe call hcall).cancel (hapart call hcall), hisolated⟩
  | prepare owner c =>
    rw [Interrupt.step, Option.ite_none_right_eq_some] at h
    obtain ⟨hmu, h⟩ := h
    split at h <;> cases h
    · exact .free (hisolated.ret (by simp)) hmu
    · exact .start hisolated hapart owner rfl
  | prepared =>
    dsimp only [Interrupt.step] at h
    split at h
    · rename_i owner c hmu
      obtain ⟨hclear, hdone⟩ := hsafe _ hmu
      split at h
      · rename_i hset
        cases h
        exact .free (hisolated.ret (resultError_ne fun _ => hdone hset)) rfl
      rename_i hset
      split at h
      · cases h
        exact .stepLocked hisolated ⟨hclear, .inr fun h => absurd h hset⟩ fires _
      · obtain ⟨-, rfl⟩ := guard_eq_some.mp h
        exact .newRows hisolated fires _
    · cases h
  | query r c =>
    obtain ⟨-, rfl⟩ := guard_eq_some.mp h
    exact .newRows hisolated fires r
  | exec n c =>
    obtain ⟨-, rfl⟩ := guard_eq_some.mp h
    exact .stepLocked hisolated hapart fires n
  | next r =>
    dsimp only [Interrupt.step] at h
    split at h
    · rename_i c hmu hrows
      split at h <;> cases h
      · exact .closeLocked hisolated (by simp)
      · exact .start hisolated (hapart c hrows) _ rfl
    · cases h
  | stepEnd rc =>
    dsimp only [Interrupt.step] at h
    split at h
    · rename_i owner c hmu
      obtain ⟨-, hdone⟩ := hsafe _ hmu
      have hret : stepRet s.isInterrupted rc = .interrupted → s.cancelled c = true := by
        intro hret
        apply hdone
        by_contra hset
        simp [stepRet, hset] at hret
      split at h
      · cases h
        refine ⟨fun call hcall => ?_, hisolated⟩
        obtain rfl : _ = call := Option.some_inj.mp hcall
        exact hret
      · split at h <;> cases h
        · rename_i hrow
          exact .free (hisolated.ret (by simp [hrow])) rfl
        · exact .closeLocked hisolated (by simpa using resultError_ne hret)
    · cases h
  | interrupt w =>
    obtain ⟨hw, rfl⟩ := guard_eq_some.mp h
    exact ⟨fun call hcall => (hsafe call hcall).erase fun _ => .inr hw, hisolated⟩
  | leave w =>
    obtain ⟨-, rfl⟩ := guard_eq_some.mp h
    exact ⟨fun call hcall => (hsafe call hcall).erase .inl, hisolated⟩
  | close r =>
    dsimp only [Interrupt.step] at h
    split at h <;> cases h
    exact .closeLocked hisolated (by simp)
  | join =>
    dsimp only [Interrupt.step] at h
    split at h
    · rename_i owner c ret hmu
      obtain ⟨-, rfl⟩ := guard_eq_some.mp h
      exact .free (hisolated.ret (resultError_ne (hsafe _ hmu))) rfl
    · rename_i owner c ret hmu
      rw [Option.ite_none_right_eq_some] at h
      have hret := hsafe _ hmu
      obtain ⟨-, h⟩ := h
      split at h <;> cases h
      · exact .free (hisolated.ret fun hr => hret (by simp [hr])) rfl
      · exact .free hisolated rfl
    · cases h

end Sqlite.Interrupt
