import TinyGoDriver.Netdev.Device

/-!
# Writing the whole buffer

On a plaintext socket `Send` calls the system until all bytes are taken or a call fails, and what it
returns is the number of bytes that were taken.  On a TLS socket it returns what the TLS layer
returns, and if the session has ended before it has the lock, it returns no bytes and no error.

The main result is `send_whole`: what a `Send` on a plaintext socket returns is as it should be in
every interleaving, and on a TLS socket it is if the session is there (`Served`).
-/

namespace Netdev

open Interleaving State

/-- A `Send` took the whole buffer or failed. -/
def Ret.Whole (r : Ret) : Prop :=
  r.kind = .send → r.len ≠ 0 → (r.count = r.len ∧ r.err = none) ∨ r.err ≠ none

/-- A count that is not negative is the number of bytes that the system has taken. -/
def Ret.Exact (r : Ret) : Prop :=
  r.kind = .send → r.tls = false → 0 ≤ r.count → r.count = r.handed

/-- A `Send` with the lock finds the session, and the TLS layer writes the whole buffer or fails. -/
def Served (a : Action) (s : State) : Prop :=
  match a with
  | .acquire g => ∀ op, s.ops g = some op → op.kind = .send → s.session op.sock = true
  | .tlsEnd g (.count n) => ∀ op, s.ops g = some op → op.kind = .send → n = op.len
  | _ => True

theorem Ret.whole_of_err {r : Ret} {err : Err} (h : r.err = some err) : r.Whole := by
  intro _ _
  right
  simp [h]

/-! ### The calls in flight -/

/-- What holds of a `Send` or `Recv` on the socket. -/
structure Op.Counted (op : Op) (sock : Socket) : Prop where
  handed : op.handed = op.sent
  sent : op.sent < op.len
  io : op.phase = .io → sock.isTls = false
  tls : op.phase = .lock ∨ op.phase = .session → sock.isTls = true

structure Counts (s : State) : Prop where
  created : ∀ {id}, s.created id = true → id < s.next
  table : ∀ {fd id}, s.table fd = some id → id < s.next
  sock : ∀ {g op}, s.ops g = some op → op.sock < s.next
  counted : ∀ {g op}, s.ops g = some op → op.Counted (s.socket op.sock)

theorem counts_init : Counts State.init := by
  constructor <;> intros <;> simp_all [init]

variable {op : Op}

variable {t s : State} {sock : Socket}

namespace Counts

variable {s : State}

variable {g : ℕ}

theorem setOp (h : Counts s) {op' : Option Op} (hsock : ∀ op, op' = some op → op.sock < s.next)
    (hcounted : ∀ op, op' = some op → op.Counted (s.socket op.sock)) :
  Counts (s.setOp g op')
  := by
  refine { h with sock := fun {g' op} hop => ?_, counted := fun {g' op} hop => ?_ }
  · by_cases hg : g' = g
    · exact hsock op (by simpa [State.setOp, hg] using hop)
    · exact h.sock (by simpa [State.setOp, hg] using hop)
  · by_cases hg : g' = g
    · exact hcounted op (by simpa [State.setOp, hg] using hop)
    · exact h.counted (by simpa [State.setOp, hg] using hop)

theorem setOp_some (h : Counts s) (hsock : op.sock < s.next)
    (hcounted : op.Counted (s.socket op.sock)) :
  Counts (s.setOp g (some op))
  := by
  refine h.setOp (fun _ heq => ?_) fun _ heq => ?_
  · exact Option.some.inj heq ▸ hsock
  · exact Option.some.inj heq ▸ hcounted

theorem finish (h : Counts s) (g : ℕ) (op : Op) (count : ℤ) (err : Option Err) :
  Counts (s.finish g op count err)
  := by
  have hnone : Counts (s.setOp g none) := h.setOp (by simp) (by simp)
  exact { hnone with }

theorem call (h : Counts s) (sock : ℕ) : Counts (s.call sock) := { h with }

section

variable (h : Counts s)
include h

theorem proceed (hop : s.ops g = some op) :
  Counts (s.proceed g op)
  := by
  have hlt := h.sock hop
  have hc := h.counted hop
  refine h.setOp_some hlt { hc with io := fun hp => ?_, tls := fun hp => ?_ }
  · by_contra htls
    simp [htls] at hp
  · by_contra htls
    simp [htls] at hp

theorem moved (hop : s.ops g = some op) (n : ℕ) :
  Counts (s.moved g op n)
  := by
  have hlt := h.sock hop
  have hc := h.counted hop
  dsimp only [State.moved]
  split
  · split
    · exact h.finish ..
    · split
      · exact h.setOp_some hlt ⟨by simp [hc.handed], ‹_›, by simp, by simp⟩
      · exact h.finish ..
  · split
    · exact h.finish ..
    · exact h.finish ..

theorem acquire (hop : s.ops g = some op) (hlock : op.phase = .lock) :
  Counts ((s.setOp g (some { op with phase := .session })).setMu (op.kind, op.sock) true)
  := by
  have hlt := h.sock hop
  have hc := h.counted hop
  have hset : Counts (s.setOp g (some { op with phase := .session })) :=
    h.setOp_some hlt { hc with io := by simp, tls := fun _ => hc.tls (.inl hlock) }
  exact { hset with }

theorem passOn (g : ℕ) (op : Op) (r : TlsResult) :
  Counts (s.passOn g op r)
  := by
  rw [passOn.eq_def]
  split
  · split
    · exact h.finish ..
    · exact h.finish ..
  · exact h.finish ..

theorem create (fd : ℕ) (protocol : Protocol) :
  Counts (s.create fd protocol)
  := by
  constructor
  · intro id hid
    by_cases heq : id = s.next
    · rw [heq]
      exact Nat.lt_succ_self _
    · exact Nat.lt_succ_of_lt (h.created (by simpa [State.create, heq] using hid))
  · intro fd' id ht
    exact Nat.lt_succ_of_lt (h.table ht)
  · intro g op hop
    exact Nat.lt_succ_of_lt (h.sock hop)
  · intro g op hop
    have hne : op.sock ≠ s.next := Nat.ne_of_lt (h.sock hop)
    have hsocket : (s.create fd protocol).socket op.sock = s.socket op.sock :=
      Function.update_of_ne hne ..
    rw [hsocket]
    exact h.counted hop

theorem listed {id : ℕ} (hid : s.created id = true) :
  Counts (s.listed id)
  := by
  refine { h with created := fun {id'} hc => ?_, table := fun {fd id'} ht => ?_ }
  · have hne : id' ≠ id := by
      rintro rfl
      simp [State.listed] at hc
    exact h.created (by simpa [State.listed, hne] using hc)
  · by_cases hfd : fd = (s.socket id).fd
    · obtain rfl : id = id' := by simpa [State.listed, hfd] using ht
      exact h.created hid
    · exact h.table (by simpa [State.listed, hfd] using ht)

theorem removed (fd id : ℕ) :
  Counts (s.removed fd id)
  := by
  refine { h with table := fun {fd' id'} ht => ?_ }
  have hfd : fd' ≠ fd := by
    rintro rfl
    simp [State.removed] at ht
  exact h.table (by simpa [State.removed, hfd] using ht)

/-- Every action keeps the counts. -/
theorem step {a : Action} (hstep : Netdev.step a s = some t) :
  Counts t
  := by
  cases effect_of_step hstep with
  | sysSocket => exact h.create ..
  | list hid => exact h.listed hid
  | sysAccept => exact { h.create _ .tcp with }
  | start hlen ht =>
    exact h.setOp_some (h.table ht) ⟨rfl, Nat.pos_of_ne_zero hlen, by simp, by simp⟩
  | pass hop => exact h.proceed hop
  | expire => exact h.finish ..
  | ready hop => exact (h.call _).proceed hop
  | waitFail | ioFail => exact (h.call _).finish ..
  | moved hop => exact (h.call _).moved hop _
  | acquire hop hlock => exact h.acquire hop hlock
  | gone => exact h.passOn ..
  | tlsEnd => exact { h.passOn .. with }
  | close => exact h.removed ..
  | _ => exact { h with }

end

end Counts

/-! ### What is returned -/

/-- Nothing is returned, or one more result that has the property. -/
def Returns (P : Ret → Prop) (s t : State) : Prop :=
  t.returned = s.returned ∨ ∃ r, t.returned = s.returned ++ [r] ∧ P r

theorem Returns.forall_returned {P Q : Ret → Prop} (h : Returns P s t) (hPQ : ∀ r, P r → Q r)
    (hs : ∀ r ∈ s.returned, Q r) :
  ∀ r ∈ t.returned, Q r
  := by
  intro r hr
  rcases h with heq | ⟨r', heq, hP⟩
  · exact hs r (heq ▸ hr)
  rw [heq] at hr
  rcases List.mem_append.mp hr with hr | hr
  · exact hs r hr
  · exact List.mem_singleton.mp hr ▸ hPQ r' hP

/-- What a call returns: a count that is exact, and the whole buffer, on a TLS socket if the session
is there. -/
def Ret.Kept (served : Prop) (r : Ret) : Prop := r.Exact ∧ (r.tls = false ∨ served → r.Whole)

theorem Op.Counted.returns_fail (hc : op.Counted sock) (served : Prop) (g : ℕ) (err : Err) :
  Returns (Ret.Kept served) s (s.fail g op err)
  := by
  refine .inr ⟨_, rfl, fun _ _ hnn => ?_, fun _ => Ret.whole_of_err rfl⟩
  dsimp only at hnn ⊢
  split at hnn
  · omega
  · rw [if_neg ‹_›, hc.handed]

theorem Op.Counted.returns_moved (hc : op.Counted sock) (served : Prop) (g : ℕ) {n : ℕ}
    (hn : n ≤ op.len - op.sent) :
  Returns (Ret.Kept served) s (s.moved g op n)
  := by
  dsimp only [moved]
  split
  case h_1 hkind =>
      split
      case isTrue hzero =>
          -- the system takes nothing
          refine .inr ⟨_, rfl, fun _ _ _ => ?_, fun _ => Ret.whole_of_err rfl⟩
          simp [hc.handed, hzero]
      case isFalse =>
          split
          case isTrue => exact .inl rfl
          case isFalse hfull =>
              refine .inr ⟨_, rfl, fun _ _ _ => ?_, fun _ _ _ => .inl ⟨?_, rfl⟩⟩
              · simp [hc.handed]
              · dsimp only at hfull ⊢
                omega
  case h_2 hkind =>
      have hrecv : op.kind ≠ .send := by simp [show op.kind = .recv from hkind]
      split
      · exact .inr ⟨_, rfl, fun h => absurd h hrecv, fun _ h => absurd h hrecv⟩
      · exact .inr ⟨_, rfl, fun h => absurd h hrecv, fun _ h => absurd h hrecv⟩

/-- The TLS layer has written the whole buffer or failed. -/
theorem returns_passOn (htls : (s.socket op.sock).isTls = true) {served : Prop} (g : ℕ)
    {r : TlsResult} (hserved : served → op.kind = .send → ∀ n, r = .count n → n = op.len) :
  Returns (Ret.Kept served) s (s.passOn g op r)
  := by
  have hplain : (s.socket op.sock).isTls ≠ false := by simp [htls]
  rw [passOn.eq_def]
  split
  case h_1 n =>
      split
      case isTrue => exact .inr ⟨_, rfl, fun _ h => absurd h hplain, fun _ => Ret.whole_of_err rfl⟩
      case isFalse =>
          refine .inr ⟨_, rfl, fun _ h => absurd h hplain, fun h hkind _ => .inl ⟨?_, rfl⟩⟩
          have hs := h.resolve_left hplain
          exact congrArg Int.ofNat (hserved hs hkind n rfl)
  case h_2 => exact .inr ⟨_, rfl, fun _ h => absurd h hplain, fun _ => Ret.whole_of_err rfl⟩

/-- What an action returns. -/
theorem Counts.returns {a : Action} (h : Counts s) (hstep : Netdev.step a s = some t) :
  Returns (Ret.Kept (Served a s)) s t
  := by
  cases effect_of_step hstep with
  | unknown => exact .inr ⟨_, rfl, by simp [Ret.Exact], fun _ => Ret.whole_of_err rfl⟩
  | empty => exact .inr ⟨_, rfl, by simp [Ret.Exact], fun _ _ hlen => absurd rfl hlen⟩
  | expire hop | waitFail hop | ioFail hop => exact (h.counted hop).returns_fail ..
  | moved hop _ hn => exact (h.counted hop).returns_moved _ _ hn
  | gone hop hlock hs =>
    refine returns_passOn ((h.counted hop).tls (.inl hlock)) _ ?_
    intro hserved hkind
    cases hs.symm.trans (hserved _ hop hkind)
  | tlsEnd hop hsession =>
    refine returns_passOn ((h.counted hop).tls (.inr hsession)) _ ?_
    rintro hserved hkind n rfl
    exact hserved _ hop hkind
  | _ => exact .inl rfl

/-- What is returned in a schedule whose actions meet a condition. -/
theorem forall_returned {C : Action → State → Prop} {Q : Ret → Prop}
    (hQ : ∀ a s, C a s → ∀ r, Ret.Kept (Served a s) r → Q r) {as : List Action}
    (halong : Along step C as State.init) (hexec : exec step as State.init = some s) :
  ∀ r ∈ s.returned, Q r
  := by
  have hkeep : ∀ a s t, C a s → step a s = some t → (Counts s ∧ ∀ r ∈ s.returned, Q r) →
      Counts t ∧ ∀ r ∈ t.returned, Q r := by
    intro a s t hC hstep h
    exact ⟨h.1.step hstep, (h.1.returns hstep).forall_returned (hQ a s hC) h.2⟩
  exact (exec_inv_along hkeep halong hexec ⟨counts_init, by simp [init]⟩).2

/-- In every interleaving a `Send` on a plaintext socket takes the whole buffer or fails, and a
count that is not negative is the number of bytes taken; on a TLS socket it takes the whole buffer
or fails if the session is there. -/
theorem send_whole {as : List Action} {s : State} (hexec : exec step as State.init = some s) :
  ∀ r ∈ s.returned, r.kind = .send → r.len ≠ 0 →
    (r.tls = false ∨ Along step Served as State.init →
      (r.count = r.len ∧ r.err = none) ∨ r.err ≠ none)
    ∧ (r.tls = false → 0 ≤ r.count → r.count = r.handed)
  := by
  intro r hr hkind hlen
  -- what holds in any schedule
  have hany : Along step (fun _ _ => True) as init := along_of_forall (by simp) _
  have hkept := forall_returned (Q := fun r => r.Exact ∧ (r.tls = false → r.Whole))
    (fun _ _ _ _ h => ⟨h.1, fun hplain => h.2 (.inl hplain)⟩) hany hexec r hr
  refine ⟨?_, hkept.1 hkind⟩
  rintro (hplain | hserved)
  · exact hkept.2 hplain hkind hlen
  · exact forall_returned (fun _ _ hs _ h => h.2 (.inr hs)) hserved hexec r hr hkind hlen

/-- A partial write on a plaintext socket and one that finishes it, and a `Send` on a TLS socket. -/
def sends : List Action :=
  [.sysSocket 3 .tcp, .list 0, .start 0 .send 3 5 false, .pass 0, .io 0 (.count 2), .pass 0,
    .io 0 (.count 3), .sysSocket 4 .tls, .list 1, .connect 4, .start 0 .send 4 5 false, .pass 0]

theorem send_whole_sends :
  ∃ s, exec step (sends ++ [.acquire 0, .tlsEnd 0 (.count 5)]) State.init = some s
    ∧ s.returned = [⟨.send, 5, false, 5, 5, none⟩, ⟨.send, 5, true, 0, 5, none⟩]
    ∧ ∀ r ∈ s.returned, r.kind = .send → r.len ≠ 0 →
      (r.count = r.len ∧ r.err = none) ∨ r.err ≠ none
  := by
  have hfirst : Along step Served sends init := by
    refine along_of_forall (fun a ha s => ?_) _
    simp only [sends, List.mem_cons, List.not_mem_nil, or_false] at ha
    rcases ha with rfl | rfl | rfl | rfl | rfl | rfl | rfl | rfl | rfl | rfl | rfl | rfl <;> trivial
  have hserved : Along step Served (sends ++ [.acquire 0, .tlsEnd 0 (.count 5)]) init := by
    refine along_append hfirst rfl ⟨fun op hop _ => ?_, fun t ht => ?_⟩
    · cases hop
      rfl
    cases ht
    refine ⟨fun op hop _ => ?_, fun _ _ => trivial⟩
    cases hop
    rfl
  refine ⟨_, rfl, rfl, fun r hr hkind hlen => ?_⟩
  exact (send_whole rfl r hr hkind hlen).1 (.inr hserved)

/-- A `Send` on a TLS socket waits for the lock while the socket is closed.  It writes nothing and
returns no error. -/
theorem send_after_close_returns_zero :
  (exec step [.sysSocket 3 .tls, .list 0, .connect 3, .start 0 .send 3 5 false, .pass 0, .close 3,
        .clear 0, .acquire 0]
      State.init).map (·.returned)
    = some [⟨.send, 5, true, 0, 0, none⟩]
  := rfl

end Netdev
