import TinyGoDriver.Netdev.Device

/-!
# Recycled descriptors

`Send` and `Recv` keep the socket they have looked up, but nothing keeps its descriptor open.  A
`Close` may come in between, and then the number of the descriptor belongs to another socket.

The TLS layer calls the system with the lock of the socket, for which `Close` waits.  Other calls
are exposed: those of `Send` and `Recv` on a plaintext socket, and those of the wait for a deadline.
As long as no descriptor is closed under an exposed call, every call reaches the socket it was
issued for (`reached_of_unexposed`).
-/

namespace Netdev

open Interleaving Function State

/-- Whether the call may go on to a system call without a lock. -/
def State.exposed (s : State) (op : Op) : Bool :=
  op.phase = .io ∨ op.phase = .wait ∧ (op.deadline ∨ ¬ (s.socket op.sock).isTls)

/-- The number of the descriptor of a socket refers to it. -/
def State.Refers (s : State) (id : ℕ) : Prop := s.kernel (s.socket id).fd = some id

variable {id g : ℕ} {op : Op} {s t : State} {a : Action}

/-- Numbers refer to one socket each. -/
theorem State.Refers.eq_of_fd {id' : ℕ} (hr : s.Refers id) (hr' : s.Refers id')
    (hfd : (s.socket id).fd = (s.socket id').fd) :
  id = id'
  := by
  rw [State.Refers, hfd, hr'] at hr
  exact (Option.some.inj hr).symm

/-- What holds of the numbers and the sockets as long as no descriptor is closed under an exposed
call. -/
structure Inv (s : State) : Prop where
  kernel : ∀ {fd id}, s.kernel fd = some id → (s.socket id).fd = fd ∧ id < s.next
  created : ∀ {id}, s.created id = true →
    s.Refers id ∧ s.closing id = none ∧ s.table (s.socket id).fd ≠ some id
  table : ∀ {fd id}, s.table fd = some id → s.kernel fd = some id ∧ s.closing id = none
  closing : ∀ {id c}, s.closing id = some c → s.Refers id
  cleared : ∀ {id}, s.closing id = some .cleared → s.session id = false
  session : ∀ {id}, s.session id = true → s.Refers id
  sock : ∀ {g op}, s.ops g = some op → op.sock < s.next
  exposed : ∀ {g op}, s.ops g = some op → s.exposed op = true → s.Refers op.sock
  locked : ∀ {g op}, s.ops g = some op → op.phase = .session →
    s.mu (op.kind, op.sock) = true ∧ s.session op.sock = true
  alone : ∀ {g g' op op'}, s.ops g = some op → s.ops g' = some op' → op.phase = .session →
    op'.phase = .session → op.kind = op'.kind → op.sock = op'.sock → g = g'

theorem inv_init : Inv State.init := by
  constructor <;> intros <;> simp_all [init]

theorem passOn_ops (s : State) (g : ℕ) (op : Op) (r : TlsResult) :
  (s.passOn g op r).ops = Function.update s.ops g none
  := by
  rw [passOn.eq_def]
  split
  · split <;> rfl
  · rfl

namespace Inv

variable {s : State}

/-- The identity of the next socket is not in use. -/
theorem not_refers_next (h : Inv s) : ¬ s.Refers s.next := fun hr =>
  Nat.lt_irrefl _ (h.kernel hr).2

/-- A call that returns, or goes on to where it is not exposed, keeps the rest. -/
theorem setOp (h : Inv s) {op' : Option Op} (hsock : ∀ op, op' = some op → op.sock < s.next)
    (hexposed : ∀ op, op' = some op → s.exposed op = true → s.Refers op.sock)
    (hphase : ∀ op, op' = some op → op.phase ≠ .session) :
  Inv (s.setOp g op')
  := by
  have hcases : ∀ {g' op}, (s.setOp g op').ops g' = some op →
      (g' = g ∧ op' = some op) ∨ (g' ≠ g ∧ s.ops g' = some op) := by
    intro g' op hop
    by_cases hg : g' = g
    · subst hg
      exact .inl ⟨rfl, by simpa [setOp] using hop⟩
    · exact .inr ⟨hg, by simpa [State.setOp, hg] using hop⟩
  refine
    { h with
      sock := fun hop => ?_
      exposed := fun hop hexp => ?_
      locked := fun hop hp => ?_
      alone := fun hop hop' hp hp' hkind hs => ?_ }
  · rcases hcases hop with ⟨-, heq⟩ | ⟨-, hold⟩
    · exact hsock _ heq
    · exact h.sock hold
  · rcases hcases hop with ⟨-, heq⟩ | ⟨-, hold⟩
    · exact hexposed _ heq hexp
    · exact h.exposed hold hexp
  · rcases hcases hop with ⟨-, heq⟩ | ⟨-, hold⟩
    · exact absurd hp (hphase _ heq)
    · exact h.locked hold hp
  · rcases hcases hop with ⟨-, heq⟩ | ⟨-, hold⟩
    · exact absurd hp (hphase _ heq)
    · rcases hcases hop' with ⟨-, heq'⟩ | ⟨-, hold'⟩
      · exact absurd hp' (hphase _ heq')
      · exact h.alone hold hold' hp hp' hkind hs

theorem setOp_some (h : Inv s) (hsock : op.sock < s.next)
    (hexposed : s.exposed op = true → s.Refers op.sock) (hphase : op.phase ≠ .session) :
  Inv (s.setOp g (some op))
  := by
  apply h.setOp
  · rintro _ ⟨⟩
    exact hsock
  · rintro _ ⟨⟩
    exact hexposed
  · rintro _ ⟨⟩
    exact hphase

variable {fd : ℕ}

theorem start (h : Inv s) (ht : s.table fd = some id) {kind : Kind} {len : ℕ} {deadline : Bool} :
  Inv (s.setOp g (some ⟨kind, id, len, deadline, .wait, 0, 0⟩))
  := by
  obtain ⟨hk, -⟩ := h.table ht
  obtain ⟨hfd, hlt⟩ := h.kernel hk
  exact h.setOp_some hlt (fun _ => by rw [State.Refers, hfd, hk]) (by simp)

theorem call (h : Inv s) (sock : ℕ) : Inv (s.call sock) := { h with }

theorem ret (h : Inv s) (r : Ret) : Inv (s.ret r) := { h with }

theorem finish (h : Inv s) (g : ℕ) (op : Op) (count : ℤ) (err : Option Err) :
  Inv (s.finish g op count err)
  := ret (h.setOp (by simp) (by simp) (by simp)) _

theorem passOn (h : Inv s) (g : ℕ) (op : Op) (r : TlsResult) : Inv (s.passOn g op r) := by
  rw [passOn.eq_def]
  split
  · split
    · exact h.finish ..
    · exact h.finish ..
  · exact h.finish ..

theorem fail (h : Inv s) (g : ℕ) (op : Op) (err : Err) : Inv (s.fail g op err) := h.finish ..

section

variable (h : Inv s)
include h

/-- After the wait a call is as exposed as before, or waits for the lock. -/
theorem proceed (hop : s.ops g = some op) (hwait : op.phase = .wait) :
  Inv (s.proceed g op)
  := by
  have hlt := h.sock hop
  rw [State.proceed]
  split
  · exact h.setOp_some hlt (by simp [State.exposed]) (by simp)
  rename_i htls
  have hr := h.exposed hop (by simp [State.exposed, hwait, htls])
  exact h.setOp_some hlt (fun _ => hr) (by simp)

theorem moved (hop : s.ops g = some op) (hio : op.phase = .io) (n : ℕ) :
  Inv (s.moved g op n)
  := by
  have hlt := h.sock hop
  have hr := h.exposed hop (by simp [State.exposed, hio])
  rw [moved.eq_def]
  dsimp only
  split
  · split
    · exact h.finish ..
    · split
      · exact h.setOp_some hlt (fun _ => hr) (by simp)
      · exact h.finish ..
  · split
    · exact h.finish ..
    · exact h.finish ..

/-- A new socket has a number that referred to none. -/
theorem create (hfd : s.kernel fd = none) (protocol : Protocol) :
  Inv (s.create fd protocol)
  := by
  have hnext := h.not_refers_next
  have hne : ∀ {id}, s.Refers id → id ≠ s.next := fun hr heq => hnext (heq ▸ hr)
  have hlt : ∀ {id}, id < s.next → id ≠ s.next := Nat.ne_of_lt
  have hsocket : ∀ {id}, id ≠ s.next → (s.create fd protocol).socket id = s.socket id := fun hid =>
    update_of_ne hid ..
  -- what referred to its socket still does
  have hrefers : ∀ {id}, s.Refers id → (s.create fd protocol).Refers id := by
    intro id hr
    have hfd' : (s.socket id).fd ≠ fd := by
      intro heq
      rw [State.Refers, heq, hfd] at hr
      cases hr
    rw [State.Refers, hsocket (hne hr)]
    exact (update_of_ne hfd' ..).trans hr
  have hnew : (s.create fd protocol).Refers s.next := by
    simp [State.Refers, State.create]
  refine
    { kernel := fun {fd' id} hk => ?_
      created := fun {id} hc => ?_
      table := fun {fd' id} ht => ?_
      closing := fun hc => hrefers (h.closing hc)
      cleared := h.cleared
      session := fun hs => hrefers (h.session hs)
      sock := fun hop => Nat.lt_succ_of_lt (h.sock hop)
      exposed := fun {g op} hop hexp => ?_
      locked := h.locked
      alone := h.alone }
  · by_cases hfd' : fd' = fd
    · subst hfd'
      obtain rfl : s.next = id := by simpa [create] using hk
      exact ⟨by simp [create], Nat.lt_succ_self _⟩
    · have hk' : s.kernel fd' = some id := by simpa [State.create, hfd'] using hk
      obtain ⟨hs, hid⟩ := h.kernel hk'
      exact ⟨by rw [hsocket (hlt hid)]; exact hs, Nat.lt_succ_of_lt hid⟩
  · by_cases hid : id = s.next
    · subst hid
      have hclosing : s.closing s.next = none := by
        cases hc : s.closing s.next with
        | none => rfl
        | some c => exact absurd (h.closing hc) hnext
      refine ⟨hnew, hclosing, fun ht => ?_⟩
      have hk := (h.table ht).1
      exact Nat.lt_irrefl _ (h.kernel hk).2
    · have hc' : s.created id = true := by simpa [State.create, hid] using hc
      obtain ⟨hr, hclosing, ht⟩ := h.created hc'
      exact ⟨hrefers hr, hclosing, by rw [hsocket hid]; exact ht⟩
  · obtain ⟨hk, hclosing⟩ := h.table ht
    refine ⟨?_, hclosing⟩
    have hfd' : fd' ≠ fd := by
      rintro rfl
      rw [hfd] at hk
      cases hk
    exact (update_of_ne hfd' ..).trans hk
  · have hsame : (s.create fd protocol).exposed op = s.exposed op := by
      rw [State.exposed, State.exposed, hsocket (hlt (h.sock hop))]
    exact hrefers (h.exposed hop (hsame ▸ hexp))

theorem list (hid : s.created id = true) :
  Inv (s.listed id)
  := by
  obtain ⟨hr, hclosing, -⟩ := h.created hid
  refine { h with created := fun {id'} hc => ?_, table := fun {fd id'} ht => ?_ }
  · have hne : id' ≠ id := by
      rintro rfl
      simp [listed] at hc
    have hc' : s.created id' = true := by simpa [listed, hne] using hc
    obtain ⟨hr', hclosing', ht'⟩ := h.created hc'
    refine ⟨hr', hclosing', ?_⟩
    have hfd : (s.socket id').fd ≠ (s.socket id).fd := fun heq => hne (hr'.eq_of_fd hr heq)
    dsimp only [listed]
    rwa [update_of_ne hfd]
  · by_cases hfd : fd = (s.socket id).fd
    · subst hfd
      obtain rfl : id = id' := by simpa [listed] using ht
      exact ⟨hr, hclosing⟩
    · exact h.table (by simpa [listed, hfd] using ht)

theorem connect (ht : s.table fd = some id) :
  Inv (s.connected id)
  := by
  obtain ⟨hk, hclosing⟩ := h.table ht
  have hr : s.Refers id := by rw [State.Refers, (h.kernel hk).1, hk]
  refine
    { h with
      cleared := fun {id'} hc => ?_
      session := fun {id'} hs => ?_
      locked := fun {g op} hop hp => ?_ }
  · have hne : id' ≠ id := by
      rintro rfl
      cases hclosing.symm.trans hc
    exact (update_of_ne hne ..).trans (h.cleared hc)
  · by_cases hid : id' = id
    · rw [hid]
      exact hr
    · exact h.session (by simpa [connected, hid] using hs)
  · obtain ⟨hmu, hs⟩ := h.locked hop hp
    refine ⟨hmu, ?_⟩
    by_cases hid : op.sock = id
    · simp [connected, hid]
    · simpa [connected, hid] using hs

/-- The lock is taken by one call at a time. -/
theorem acquire (hop : s.ops g = some op) (hmu : s.mu (op.kind, op.sock) = false)
    (hs : s.session op.sock = true) :
  Inv ((s.setOp g (some { op with phase := .session })).setMu (op.kind, op.sock) true)
  := by
  have hlt := h.sock hop
  have hcases : ∀ {g' op'}, update s.ops g (some { op with phase := .session }) g'
      = some op' →
      (g' = g ∧ op' = { op with phase := .session }) ∨ (g' ≠ g ∧ s.ops g' = some op') := by
    intro g' op' hop'
    by_cases hg : g' = g
    · subst hg
      exact .inl ⟨rfl, by simpa [eq_comm] using hop'⟩
    · exact .inr ⟨hg, by simpa [hg] using hop'⟩
  -- another call in the TLS layer has another lock
  have hother : ∀ {g' op'}, s.ops g' = some op' → op'.phase = .session →
      (op'.kind, op'.sock) ≠ (op.kind, op.sock) := by
    intro g' op' hop' hp heq
    have := (h.locked hop' hp).1
    rw [heq, hmu] at this
    cases this
  refine
    { h with
      sock := fun {g' op'} hop' => ?_
      exposed := fun {g' op'} hop' hexp => ?_
      locked := fun {g' op'} hop' hp => ?_
      alone := fun {g₁ g₂ op₁ op₂} hop₁ hop₂ hp₁ hp₂ hkind hsock => ?_ }
  · rcases hcases hop' with ⟨-, rfl⟩ | ⟨-, hold⟩
    · exact hlt
    · exact h.sock hold
  · rcases hcases hop' with ⟨-, rfl⟩ | ⟨-, hold⟩
    · simp [State.exposed] at hexp
    · exact h.exposed hold hexp
  · rcases hcases hop' with ⟨-, rfl⟩ | ⟨-, hold⟩
    · exact ⟨by simp [setMu], hs⟩
    · obtain ⟨hmu', hs'⟩ := h.locked hold hp
      exact ⟨(update_of_ne (hother hold hp) ..).trans hmu', hs'⟩
  · rcases hcases hop₁ with ⟨rfl, rfl⟩ | ⟨-, hold₁⟩
    · rcases hcases hop₂ with ⟨rfl, -⟩ | ⟨-, hold₂⟩
      · rfl
      · exact absurd (Prod.ext hkind.symm hsock.symm) (hother hold₂ hp₂)
    · rcases hcases hop₂ with ⟨rfl, rfl⟩ | ⟨-, hold₂⟩
      · exact absurd (Prod.ext hkind hsock) (hother hold₁ hp₁)
      · exact h.alone hold₁ hold₂ hp₁ hp₂ hkind hsock

/-- A lock is released that no call has any more. -/
theorem unlock {key : Kind × ℕ}
    (hnone : ∀ g op, s.ops g = some op → op.phase = .session → (op.kind, op.sock) ≠ key) :
  Inv (s.setMu key false)
  := by
  refine { h with locked := fun {g op} hop hp => ?_ }
  obtain ⟨hmu, hs⟩ := h.locked hop hp
  exact ⟨(update_of_ne (hnone g op hop hp) ..).trans hmu, hs⟩

/-- The TLS layer returns. -/
theorem release (hop : s.ops g = some op) (hsession : op.phase = .session)
    (r : TlsResult) :
  Inv ((s.passOn g op r).setMu (op.kind, op.sock) false)
  := by
  refine (h.passOn g op r).unlock fun g' op' hop' hp heq => ?_
  rw [passOn_ops] at hop'
  have hne : g' ≠ g := by
    rintro rfl
    simp at hop'
  have hold : s.ops g' = some op' := by simpa [hne] using hop'
  obtain ⟨hkind, hsock⟩ := Prod.mk.inj heq
  exact hne (h.alone hold hop hp hsession hkind hsock)

theorem close (ht : s.table fd = some id) :
  Inv (s.removed fd id)
  := by
  obtain ⟨hk, hclosing⟩ := h.table ht
  have hfd := (h.kernel hk).1
  have hr : s.Refers id := by rw [State.Refers, hfd, hk]
  refine
    { h with
      created := fun {id'} hc => ?_
      table := fun {fd' id'} ht' => ?_
      closing := fun {id' c} hc => ?_
      cleared := fun {id'} hc => ?_ }
  · obtain ⟨hr', hclosing', hnot⟩ := h.created hc
    have hne : id' ≠ id := by
      rintro rfl
      exact hnot (hfd ▸ ht)
    refine ⟨hr', (update_of_ne hne ..).trans hclosing', fun heq => hnot ?_⟩
    by_cases hfd' : (s.socket id').fd = fd
    · simp [removed, hfd'] at heq
    · simpa [removed, hfd'] using heq
  · have hfd' : fd' ≠ fd := by
      rintro rfl
      simp [removed] at ht'
    obtain ⟨hk', hclosing'⟩ := h.table (by simpa [removed, hfd'] using ht')
    have hne : id' ≠ id := by
      rintro rfl
      exact hfd' ((h.kernel hk').1.symm.trans hfd)
    exact ⟨hk', (update_of_ne hne ..).trans hclosing'⟩
  · by_cases hid : id' = id
    · rw [hid]
      exact hr
    · exact h.closing (by simpa [removed, hid] using hc)
  · by_cases hid : id' = id
    · subst hid
      simp [removed] at hc
    · exact h.cleared (by simpa [removed, hid] using hc)

theorem clear (hid : s.closing id = some .removed) (hsend : s.mu (.send, id) = false)
    (hrecv : s.mu (.recv, id) = false) :
  Inv (s.cleared id)
  := by
  have hne : ∀ {id'}, s.closing id' = none → id' ≠ id := by
    rintro id' hc rfl
    rw [hid] at hc
    cases hc
  refine
    { h with
      created := fun {id'} hc => ?_
      table := fun {fd id'} ht => ?_
      closing := fun {id' c} hc => ?_
      cleared := fun {id'} hc => ?_
      session := fun {id'} hs => ?_
      locked := fun {g op} hop hp => ?_ }
  · obtain ⟨hr, hclosing, hnot⟩ := h.created hc
    exact ⟨hr, (update_of_ne (hne hclosing) ..).trans hclosing, hnot⟩
  · obtain ⟨hk, hclosing⟩ := h.table ht
    exact ⟨hk, (update_of_ne (hne hclosing) ..).trans hclosing⟩
  · by_cases hid' : id' = id
    · rw [hid']
      exact h.closing hid
    · exact h.closing (by simpa [State.cleared, hid'] using hc)
  · by_cases hid' : id' = id
    · simp [State.cleared, hid']
    · have hold := h.cleared (by simpa [State.cleared, hid'] using hc)
      exact (update_of_ne hid' ..).trans hold
  · have hid' : id' ≠ id := by
      rintro rfl
      simp [State.cleared] at hs
    exact h.session (by simpa [State.cleared, hid'] using hs)
  · obtain ⟨hmu, hs⟩ := h.locked hop hp
    have hid' : op.sock ≠ id := by
      intro heq
      rw [heq] at hmu
      cases hkind : op.kind with
      | send => simp [hkind, hsend] at hmu
      | recv => simp [hkind, hrecv] at hmu
    exact ⟨hmu, (update_of_ne hid' ..).trans hs⟩

/-- A descriptor is closed under which no call is exposed. -/
theorem sysClose (hid : s.closing id = some .cleared)
    (hfree : ∀ g op, s.ops g = some op → op.sock = id → s.exposed op = false) :
  Inv (s.closed id)
  := by
  have hr := h.closing hid
  have hne : ∀ {id'}, s.closing id' = none → id' ≠ id := by
    rintro id' hc rfl
    rw [hid] at hc
    cases hc
  -- the other numbers refer to what they did
  have hkeep : ∀ {id'}, s.Refers id' → id' ≠ id →
      update s.kernel (s.socket id).fd none (s.socket id').fd = some id' := by
    intro id' hr' hid'
    have hfd : (s.socket id').fd ≠ (s.socket id).fd := fun heq => hid' (hr'.eq_of_fd hr heq)
    exact (update_of_ne hfd ..).trans hr'
  refine
    { h with
      kernel := fun {fd id'} hk => ?_
      created := fun {id'} hc => ?_
      table := fun {fd id'} ht => ?_
      closing := fun {id' c} hc => ?_
      cleared := fun {id'} hc => ?_
      session := fun {id'} hs => ?_
      exposed := fun {g op} hop hexp => ?_ }
  · have hfd : fd ≠ (s.socket id).fd := by
      rintro rfl
      simp [closed] at hk
    exact h.kernel (by simpa [closed, hfd] using hk)
  · obtain ⟨hr', hclosing, hnot⟩ := h.created hc
    exact ⟨hkeep hr' (hne hclosing), (update_of_ne (hne hclosing) ..).trans hclosing, hnot⟩
  · obtain ⟨hk, hclosing⟩ := h.table ht
    have hfd := (h.kernel hk).1
    have hr' : s.Refers id' := by rw [State.Refers, hfd, hk]
    refine ⟨?_, (update_of_ne (hne hclosing) ..).trans hclosing⟩
    rw [← hfd]
    exact hkeep hr' (hne hclosing)
  · have hid' : id' ≠ id := by
      rintro rfl
      simp [closed] at hc
    exact hkeep (h.closing (by simpa [closed, hid'] using hc)) hid'
  · have hid' : id' ≠ id := by
      rintro rfl
      simp [closed] at hc
    exact h.cleared (by simpa [closed, hid'] using hc)
  · have hid' : id' ≠ id := by
      rintro rfl
      cases (h.cleared hid).symm.trans hs
    exact hkeep (h.session hs) hid'
  · have hid' : op.sock ≠ id := by
      intro heq
      have := hfree g op hop heq
      rw [show s.exposed op = true from hexp] at this
      cases this
    exact hkeep (h.exposed hop hexp) hid'

end

end Inv

/-- No descriptor is closed under an exposed call on its socket. -/
def Unexposed (a : Action) (s : State) : Prop :=
  match a with
  | .sysClose id => ∀ g op, s.ops g = some op → op.sock = id → s.exposed op = false
  | _ => True

/-- Every action keeps the invariant, if it closes no descriptor under an exposed call. -/
theorem Inv.step (hfree : Unexposed a s) (hstep : step a s = some t) (h : Inv s) :
  Inv t
  := by
  cases effect_of_step hstep with
  | sysSocket hfd => exact h.create hfd _
  | list hid => exact h.list hid
  | accept | acceptFail => exact { h with }
  | sysAccept hfd => exact { h.create hfd .tcp with }
  | connect ht _ => exact h.connect ht
  | unknown | empty => exact h.ret _
  | start _ ht => exact h.start ht
  | pass hop hwait => exact h.proceed hop hwait
  | expire => exact h.fail ..
  | ready hop hwait _ => exact (h.call _).proceed hop hwait
  | waitFail | ioFail => exact (h.call _).fail ..
  | waitAgain | ioAgain | tlsCall => exact h.call _
  | moved hop hio _ => exact (h.call _).moved hop hio _
  | acquire hop _ hmu hs => exact h.acquire hop hmu hs
  | gone => exact h.passOn ..
  | tlsEnd hop hsession => exact h.release hop hsession _
  | close ht => exact h.close ht
  | clear hid hsend hrecv => exact h.clear hid hsend hrecv
  | sysClose hid => exact h.sysClose hid hfree

/-! ### The system calls -/

/-- The calls of the system that have been made reached the sockets they were issued for. -/
def State.Faithful (s : State) : Prop := ∀ e ∈ s.events, e.reached = some e.sock

theorem State.Faithful.call (h : s.Faithful) {sock : ℕ} (hr : s.Refers sock) :
  (s.call sock).Faithful
  := by
  intro e he
  rcases List.mem_append.mp he with he | he
  · exact h e he
  · obtain rfl := List.mem_singleton.mp he
    exact hr

theorem moved_events (s : State) (g : ℕ) (op : Op) (n : ℕ) :
  (s.moved g op n).events = s.events
  := by
  dsimp only [moved]
  split
  · split
    · rfl
    · split <;> rfl
  · split <;> rfl

theorem passOn_events (s : State) (g : ℕ) (op : Op) (r : TlsResult) :
  (s.passOn g op r).events = s.events
  := by
  rw [passOn.eq_def]
  split
  · split <;> rfl
  · rfl

theorem Inv.refers_of_io (h : Inv s) (hop : s.ops g = some op) (hio : op.phase = .io) :
  s.Refers op.sock
  := h.exposed hop (by simp [State.exposed, hio])

/-- A call of the system reaches the socket it is issued for. -/
theorem Inv.faithful_step (h : Inv s) (hstep : Netdev.step a s = some t) (hs : s.Faithful) :
  t.Faithful
  := by
  cases effect_of_step hstep with
  | ready hop hwait hd | waitFail hop hwait hd | waitAgain hop hwait hd =>
    exact hs.call (h.exposed hop (by simp [State.exposed, hwait, hd]))
  | moved hop hio _ =>
    rw [State.Faithful, moved_events]
    exact hs.call (h.refers_of_io hop hio)
  | ioFail hop hio | ioAgain hop hio => exact hs.call (h.refers_of_io hop hio)
  | tlsCall hop hsession => exact hs.call (h.session (h.locked hop hsession).2)
  | gone =>
    rw [State.Faithful, passOn_events]
    exact hs
  | tlsEnd =>
    rw [setMu, passOn_events]
    exact hs
  | _ => exact hs

/-- In every interleaving in which no descriptor is closed under an exposed call, the system calls
of `Send` and `Recv` reach the socket they were issued for. -/
theorem reached_of_unexposed {as : List Action} {s : State}
    (hfree : Along step Unexposed as State.init) (hexec : exec step as State.init = some s) :
  ∀ e ∈ s.events, e.reached = some e.sock
  := by
  have hkeep : ∀ a s t, Unexposed a s → step a s = some t → Inv s ∧ s.Faithful →
      Inv t ∧ t.Faithful := by
    intro a s t hfree hstep h
    exact ⟨h.1.step hfree hstep, h.1.faithful_step hstep h.2⟩
  have hinit : init.Faithful := by simp [State.Faithful, init]
  exact (exec_inv_along hkeep hfree hexec ⟨inv_init, hinit⟩).2

theorem along_unexposed {as : List Action} (h : ∀ id, .sysClose id ∉ as) (s : State) :
  Along step Unexposed as s
  := by
  refine along_of_forall (fun a ha s => ?_) s
  cases a with
  | sysClose id => exact absurd ha (h id)
  | _ => trivial

/-- A `Send` on a TLS socket, and a `Close` that begins while it is in the TLS layer. -/
def closeUnderTls : List Action :=
  [.sysSocket 3 .tls, .list 0, .connect 3, .start 0 .send 3 5 false, .pass 0, .acquire 0,
    .close 3, .tlsCall 0, .tlsEnd 0 (.count 5), .clear 0]

/-- A `Recv` with a deadline on a socket that has the number next. -/
def recvOnNext : List Action :=
  [.sysSocket 3 .tcp, .list 1, .start 1 .recv 3 4 true, .select 1 .ready, .io 1 (.count 4)]

theorem reached_of_unexposed_tls :
  ∃ s, exec step (closeUnderTls ++ .sysClose 0 :: recvOnNext) State.init = some s
    ∧ s.events = [⟨0, some 0⟩, ⟨1, some 1⟩, ⟨1, some 1⟩]
    ∧ ∀ e ∈ s.events, e.reached = some e.sock
  := by
  have hfirst : Along step Unexposed closeUnderTls init :=
    along_unexposed (by simp [closeUnderTls]) _
  have hfree : Along step Unexposed (closeUnderTls ++ .sysClose 0 :: recvOnNext) init := by
    refine along_append hfirst rfl ⟨fun g op hop => ?_, fun t _ => ?_⟩
    · cases g with
      | zero | succ g => cases hop
    · exact along_unexposed (by simp [recvOnNext]) t
  exact ⟨_, rfl, rfl, reached_of_unexposed hfree rfl⟩

/-- Between the lookup of a `Send` and its `write`, the socket is closed and its number goes to
another one, which the bytes then reach. -/
theorem send_reaches_next_socket :
  (exec step [.sysSocket 3 .tcp, .list 0, .start 0 .send 3 1 false, .pass 0, .close 3, .clear 0,
        .sysClose 0, .sysSocket 3 .tcp, .list 1, .io 0 (.count 1)]
      State.init).map (·.events)
    = some [⟨0, some 1⟩]
  := rfl

end Netdev
