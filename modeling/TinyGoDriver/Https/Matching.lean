import TinyGoDriver.Https.Ownership

/-!
# Which response a request gets

A connection is in step with the call that holds it: what there is to read on it is what the
server has sent for that call and the call has not read yet.  An idle connection has nothing to
read, and the server owes nothing on it.

This holds as long as servers send no interim responses.  `exchange` takes the first head that
it reads for the response, so an interim response is returned as if it were the final one; and
as it has no body, the connection may go back to the pool with the final response still to come,
for the next request to find.
-/

namespace Https

open Interleaving List Function

/-- Nothing to read, and nothing to come. -/
def Conn.Clean (c : Conn) : Prop := c.stream = [] ∧ c.owed = none

/-- The server has the request `r` to answer, or its answer stands on the connection. -/
def Conn.Answers (c : Conn) (r : ℕ) (method : List Char) : Prop :=
  c.owed = some r ∧ c.stream = []
    ∨ c.owed = none ∧ ∃ reply : Reply, reply.interims = [] ∧ c.stream <+: reply.tokens r method

/-- What there is to read is a part of what is left of the body. -/
structure Body.Pending (b : Body) (c : Conn) : Prop where
  owed : c.owed = none
  fits : b.left.Fits c.stream
  eof : b.sawEOF = true → b.left = .length 0

/-- The connection is in step with the call `r` that holds it. -/
def Synced (r : ℕ) (method : List Char) : Stage → Conn → Prop
  | .begun, c => c.Clean
  | .sending, c => c.Answers r method
  | .awaiting, c => c.Answers r method
  | .opened b, c => b.Pending c
  | .unwatching b, c => b.Pending c
  | .drain b, c => b.Pending c
  | .draining b _ _, c => b.Pending c
  | .finishing b, c => b.Pending c
  | .recycling, c => c.Clean
  | .filing, c => c.Clean
  | .stopping, _ => True
  | .closing, _ => True
  | .dropping, _ => True

/-! ### Reading -/

/-- Behind bytes of a chunked body there is the rest of it. -/
theorem fits_chunked_drop {n payload : ℕ} {rest : List Token}
    (h : List.replicate n .data ++ rest <+: List.replicate payload .data ++ [.last]) :
  Framing.chunked.Fits rest
  := by
  induction n generalizing payload with
  | zero => exact ⟨payload, h⟩
  | succ n ih =>
    cases payload with
    | zero => simp [replicate_succ] at h
    | succ payload =>
      simp only [replicate_succ, cons_append, cons_prefix_cons, true_and] at h
      exact ih h

/-- Behind the end of a chunked body there is nothing. -/
theorem fits_chunked_last {rest : List Token} (h : Framing.chunked.Fits (.last :: rest)) :
  rest = []
  := by
  obtain ⟨payload, h⟩ := h
  cases payload with
  | zero => simpa using h
  | succ payload => simp [replicate_succ] at h

variable {c c' : Conn} {r : ℕ} {method : List Char} {stage : Stage} {q : Call} {s : State}

variable {b : Body} {t : Transport} {pc : ℕ} {h : ℕ → Custody} {stage' : Stage}

/-- A read takes what is missing of the body. -/
theorem Body.Pending.rcRead {b' : Body} {n : ℕ} {eof : Bool} (hb : b.Pending c)
    (h : rcRead b n eof c = some (b', c')) :
  b'.Pending c'
  := by
  obtain ⟨howed, hfits, heof⟩ := hb
  unfold Https.rcRead at h
  split at h
  · rename_i hleft
    obtain ⟨-, ⟨⟩⟩ := guard_eq_some.mp h
    exact ⟨howed, hfits, fun _ => hleft⟩
  · rename_i m hleft
    obtain ⟨⟨-, hn, hbuf, heof'⟩, ⟨⟩⟩ := guard_eq_some.mp h
    refine ⟨howed, ?_, ?_⟩
    · rw [hleft] at hfits
      simp only [Framing.Fits, Conn.stream, length_append, length_drop] at hfits ⊢
      omega
    intro hsaw
    have hnot : b.sawEOF = false := by
      cases hs : b.sawEOF with
      | false => rfl
      | true => cases hleft.symm.trans (heof hs)
    rw [hnot] at hsaw
    simp [heof'.mp hsaw]
  · rename_i hleft
    rw [hleft] at hfits
    split at h
    · obtain ⟨⟨rest, hrest⟩, ⟨⟩⟩ := guard_eq_some.mp h
      refine ⟨howed, ?_, fun _ => rfl⟩
      obtain ⟨payload, hpayload⟩ := hfits
      have hstream : c.stream = replicate n .data ++ (.last :: (rest ++ c.wire)) := by
        simp [Conn.stream, ← hrest]
      rw [hstream] at hpayload
      have hnil := fits_chunked_last (fits_chunked_drop hpayload)
      have hdrop : c.buf.drop (n + 1) = rest := by
        rw [← hrest, drop_left' (by simp)]
      simp [Framing.Fits, Conn.stream, hdrop, hnil]
    obtain ⟨⟨-, rest, hrest⟩, ⟨⟩⟩ := guard_eq_some.mp h
    refine ⟨howed, ?_, heof⟩
    obtain ⟨payload, hpayload⟩ := hfits
    have hstream : c.stream = replicate n .data ++ (rest ++ c.wire) := by
      simp [Conn.stream, ← hrest]
    rw [hstream] at hpayload
    have hdrop : c.buf.drop n = rest := by
      rw [← hrest, drop_left' (by simp)]
    rw [hleft, hdrop]
    exact fits_chunked_drop hpayload
  · rename_i hleft
    split at h
    · obtain ⟨⟨-, hbuf, hwire, -⟩, ⟨⟩⟩ := guard_eq_some.mp h
      exact ⟨howed, by simp [Framing.Fits, Conn.stream, hbuf, hwire], fun _ => rfl⟩
    obtain ⟨-, ⟨⟩⟩ := guard_eq_some.mp h
    refine ⟨howed, ?_, heof⟩
    rw [hleft]
    trivial

/-- Only the flags of the body change. -/
theorem Body.Pending.flags {b' : Body} (hb : b.Pending c) (hleft : b'.left = b.left)
    (heof : b'.sawEOF = b.sawEOF) :
  b'.Pending c
  := ⟨hb.owed, hleft ▸ hb.fits, fun h => hleft.trans (hb.eof (heof ▸ h))⟩

/-- A body that has been read to its end leaves nothing on the connection. -/
theorem Body.Pending.clean (hb : b.Pending c) (heof : b.sawEOF = true) :
  c.Clean
  := by
  have hfits := hb.fits
  rw [hb.eof heof] at hfits
  exact ⟨length_eq_zero_iff.mp (Nat.le_zero.mp hfits), hb.owed⟩

/-! ### What a call does -/

/-- What there is to read may be cut off or be taken over into the buffer. -/
theorem Synced.mono (h : Synced r method stage c) (howed : c'.owed = c.owed)
    (hstream : c'.stream <+: c.stream) :
  Synced r method stage c'
  := by
  have hclean : c.Clean → c'.Clean := fun hc =>
    ⟨prefix_nil.mp (hc.1 ▸ hstream), howed.trans hc.2⟩
  have hanswers : c.Answers r method → c'.Answers r method := by
    rintro (⟨ho, hs⟩ | ⟨ho, reply, hinterims, hs⟩)
    · exact .inl ⟨howed.trans ho, prefix_nil.mp (hs ▸ hstream)⟩
    · exact .inr ⟨howed.trans ho, reply, hinterims, hstream.trans hs⟩
  have hpending : ∀ b : Body, b.Pending c → b.Pending c' := fun b hb =>
    ⟨howed.trans hb.owed, hb.fits.mono hstream, hb.eof⟩
  cases stage with
  | begun | recycling | filing => exact hclean h
  | sending | awaiting => exact hanswers h
  | opened b | unwatching b | drain b | draining b | finishing b => exact hpending b h
  | stopping | closing | dropping => trivial

/-- The head that is read is that of the final response to the request. -/
theorem Conn.Answers.head {owner : ℕ} {resp : Head} {buf : List Token} (h : c.Answers r method)
    (hbuf : c.buf = .head owner resp :: buf) :
  (owner = r ∧ 200 ≤ resp.statusCode) ∧ c.owed = none
    ∧ ∃ payload, buf ++ c.wire <+: (framing method resp).tokens payload
  := by
  rcases h with ⟨-, hstream⟩ | ⟨howed, reply, hinterims, hstream⟩
  · simp [Conn.stream, hbuf] at hstream
  simp only [Conn.stream, hbuf, Reply.tokens, hinterims, map_nil, nil_append,
    cons_append, cons_prefix_cons, Token.head.injEq] at hstream
  obtain ⟨⟨rfl, rfl⟩, hrest⟩ := hstream
  exact ⟨⟨rfl, reply.isFinal⟩, howed, reply.payload, hrest⟩

/-- A step of a call keeps its connection in step, and the response that it returns is the final
one to the request. -/
theorem Works.synced {a : Work} {q' : Call} (h : Works t r pc a (q, stage, c) (q', stage', c'))
    (hs : Synced r q.req.method stage c) :
  Synced r q.req.method stage' c' ∧ q'.req = q.req
    ∧ (q'.response = q.response ∨ ∃ resp, q'.response = some (r, resp) ∧ 200 ≤ resp.statusCode)
  := by
  have hstop : q.stop.req = q.req ∧ q.stop.response = q.response := by
    rw [Call.stop]
    split <;> exact ⟨rfl, rfl⟩
  cases h with
  | start =>
    have hwatch : (q.watch pc).req = q.req ∧ (q.watch pc).response = q.response := by
      rw [Call.watch]
      split <;> exact ⟨rfl, rfl⟩
    exact ⟨.inl ⟨rfl, hs.1⟩, hwatch.1, .inl hwatch.2⟩
  | deadlineFails | writeFails | responseFails | reject => exact ⟨trivial, rfl, .inl rfl⟩
  | flush | close | drainStart | recycle => exact ⟨hs, rfl, .inl rfl⟩
  | fill =>
    refine ⟨hs.mono rfl ?_, rfl, .inl rfl⟩
    simp [Conn.stream]
  | readResponse hbuf =>
    obtain ⟨⟨rfl, hfinal⟩, howed, payload, hrest⟩ := Conn.Answers.head hs hbuf
    exact ⟨⟨howed, .of_tokens hrest, nofun⟩, rfl, .inr ⟨_, rfl, hfinal⟩⟩
  | stop => exact ⟨trivial, hstop.1, .inl hstop.2⟩
  | read hread | drainRead hread | drainEnd hread => exact ⟨hs.rcRead hread, rfl, .inl rfl⟩
  | readFails | drainRefused | drainFails | drainStops => exact ⟨hs.flags rfl rfl, rfl, .inl rfl⟩
  | unwatch =>
    refine ⟨?_, hstop.1, .inl hstop.2⟩
    rw [Body.afterStop]
    split
    · exact hs
    · exact hs
  | finish =>
    refine ⟨?_, rfl, .inl rfl⟩
    rw [Body.afterClose]
    split
    · rename_i h
      rw [Bool.and_eq_true, Bool.and_eq_true] at h
      exact Body.Pending.clean hs h.1.2
    · trivial

/-! ### The transport -/

/-- A response is the final one to the request of the number `r`. -/
def FinalFor (r : ℕ) (response : Option (ℕ × Head)) : Prop :=
  ∀ owner resp, response = some (owner, resp) → owner = r ∧ 200 ≤ resp.statusCode

/-- All connections are in step, and every response returned is the final one to its request. -/
structure Matched (s : State) : Prop where
  calls : ∀ r pc stage, s.phase r = .holding pc stage →
    Synced r (s.call r).req.method stage (s.conns pc)
  idle : ∀ pc ∈ s.pool.idle.items, (s.conns pc).Clean
  responses : ∀ r, FinalFor r (s.call r).response

theorem Matched.init : Matched State.init where
  calls := nofun
  idle := nofun
  responses := nofun

/-- There is the same to read and to come. -/
structure Conn.SameTraffic (c c' : Conn) : Prop where
  stream : c'.stream = c.stream
  owed : c'.owed = c.owed

theorem Conn.SameTraffic.refl (c : Conn) : c.SameTraffic c := ⟨rfl, rfl⟩

theorem Conn.sameTraffic_close (c : Conn) : c.SameTraffic c.close := ⟨rfl, rfl⟩

theorem Conns.sameTraffic_closeAll (conns : Conns) (pcs : List ℕ) (c : ℕ) :
  (conns c).SameTraffic (conns.closeAll pcs c)
  := by
  rw [closeAll_apply]
  split
  · exact Conn.sameTraffic_close _
  · exact .refl _

theorem Synced.congr (h : Synced r method stage c) (hc : c.SameTraffic c') :
  Synced r method stage c'
  := h.mono hc.owed (hc.stream ▸ prefix_rfl)

theorem Conn.Clean.congr (h : c.Clean) (hc : c.SameTraffic c') :
  c'.Clean
  := ⟨hc.stream.trans h.1, hc.owed.trans h.2⟩

section

variable (hs : Matched s) {phase : Phase}
include hs

/-- The pool changes and connections are closed, with clean connections in the pool. -/
theorem Matched.refile {pool : Pool} {conns : Conns}
    (hpool : ∀ pc ∈ pool.idle.items, (s.conns pc).Clean)
    (hconns : ∀ c, (s.conns c).SameTraffic (conns c)) :
  Matched { s with pool := pool, conns := conns }
  where
  calls := fun r pc stage hr => (hs.calls r pc stage hr).congr (hconns pc)
  idle := fun pc hpc => (hpool pc hpc).congr (hconns pc)
  responses := hs.responses

theorem Matched.close (pc : ℕ) :
  Matched (s.setConn pc (s.conns pc).close)
  := hs.refile hs.idle (Conns.sameTraffic_closeAll s.conns [pc])

/-- A call moves on, in step with the connection that it holds then. -/
theorem Matched.move
    (hphase : ∀ pc stage, phase = .holding pc stage → Synced r q.req.method stage (s.conns pc))
    (hresponse : FinalFor r q.response) :
  Matched (s.move r phase q)
  where
  calls := by
    intro r' pc stage hr'
    rcases eq_or_ne r' r with rfl | hne
    · rw [State.move_phase, update_self] at hr'
      rw [State.move_call, update_self]
      exact hphase pc stage hr'
    · rw [State.move_phase, update_of_ne hne] at hr'
      rw [State.move_call, update_of_ne hne]
      exact hs.calls r' pc stage hr'
  idle := hs.idle
  responses := by
    intro r'
    rcases eq_or_ne r' r with rfl | hne
    · rw [State.move_call, update_self]
      exact hresponse
    · rw [State.move_call, update_of_ne hne]
      exact hs.responses r'

/-- A call comes to hold no connection. -/
theorem Matched.rest (hphase : phase.conn = none) (hresponse : q.response = (s.call r).response) :
  Matched (s.move r phase q)
  := by
  refine hs.move (fun pc stage heq => ?_) (hresponse ▸ hs.responses r)
  rw [heq] at hphase
  cases hphase

/-- A call stays where it is. -/
theorem Matched.stay (hreq : q.req = (s.call r).req)
    (hresponse : q.response = (s.call r).response) :
  Matched (s.move r (s.phase r) q)
  := hs.move (fun pc stage hr => hreq ▸ hs.calls r pc stage hr) (hresponse ▸ hs.responses r)

/-- Something happens at a connection that keeps it in step with who has it. -/
theorem Matched.setConn (hcalls : ∀ r stage, s.phase r = .holding pc stage →
      Synced r (s.call r).req.method stage (s.conns pc) → Synced r (s.call r).req.method stage c)
    (hidle : pc ∈ s.pool.idle.items → (s.conns pc).Clean → c.Clean) :
  Matched (s.setConn pc c)
  where
  calls := by
    intro r pc' stage hr
    rw [State.setConn_conns]
    rcases eq_or_ne pc' pc with rfl | hne
    · rw [update_self]
      exact hcalls r stage hr (hs.calls r pc' stage hr)
    · rw [update_of_ne hne]
      exact hs.calls r pc' stage hr
  idle := by
    intro pc' hpc'
    rw [State.setConn_conns]
    rcases eq_or_ne pc' pc with rfl | hne
    · rw [update_self]
      exact hidle hpc' (hs.idle pc' hpc')
    · rw [update_of_ne hne]
      exact hs.idle pc' hpc'
  responses := hs.responses

end

/-- The server answers without interim responses. -/
def Direct (a : Action) (_ : State) : Prop :=
  match a with
  | .reply _ reply => reply.interims = []
  | _ => True

/-- The server owes its answer to the call that waits for it. -/
theorem Synced.answer {r' : ℕ} {method' : List Char} (h : Synced r' method' stage c)
    (howed : c.owed = some r) {reply : Reply} (hinterims : reply.interims = [])
    (hmethod : r' = r → method' = method) :
  Synced r' method' stage (c.answer r method reply)
  := by
  have hclean : ¬ c.Clean := fun hc => by cases hc.2.symm.trans howed
  have hpending : ∀ b : Body, ¬ b.Pending c := fun b hb => by cases hb.owed.symm.trans howed
  have hanswers : c.Answers r' method' → (c.answer r method reply).Answers r' method' := by
    rintro (⟨ho, hs⟩ | ⟨ho, -⟩)
    · cases howed.symm.trans ho
      rw [Conn.stream, append_eq_nil_iff] at hs
      refine .inr ⟨rfl, reply, hinterims, ?_⟩
      rw [hmethod rfl]
      simp [Conn.answer, Conn.stream, hs.1, hs.2]
    · cases howed.symm.trans ho
  cases stage with
  | begun | recycling | filing => exact absurd h hclean
  | sending | awaiting => exact hanswers h
  | opened b | unwatching b | drain b | draining b | finishing b => exact absurd h (hpending b)
  | stopping | closing | dropping => trivial

/-- A call works on its connection, which nobody else has. -/
theorem Matched.work (hs : Matched s) (hview : View t s h) {a : Work}
    (hphase : s.phase r = .holding pc stage)
    (hwork : Works t r pc a (s.call r, stage, s.conns pc) (q, stage', c)) :
  Matched ((s.move r (.holding pc stage') q).setConn pc c)
  := by
  have hr : (s.phase r).conn = some pc := by rw [hphase]; rfl
  obtain ⟨hsynced, hreq, hresponse⟩ := hwork.synced (hs.calls r pc stage hphase)
  constructor
  · intro r' pc' stage'' hr'
    rw [State.setConn_conns]
    change update s.phase r _ r' = _ at hr'
    change Synced r' (update s.call r q r').req.method _ _
    rcases eq_or_ne r' r with rfl | hne
    · rw [update_self] at hr'
      cases hr'
      rw [update_self, update_self, hreq]
      exact hsynced
    rw [update_of_ne hne] at hr' ⊢
    have hpc : pc' ≠ pc := by
      rintro rfl
      exact hne (hview.one_holder (by rw [hr']; rfl) hr)
    rw [update_of_ne hpc]
    exact hs.calls r' pc' stage'' hr'
  · intro pc' hpc'
    have hne : pc' ≠ pc := fun heq => hview.not_idle hr (heq ▸ hpc')
    rw [State.setConn_conns, update_of_ne hne]
    exact hs.idle pc' hpc'
  · intro r'
    change FinalFor r' (update s.call r q r').response
    rcases eq_or_ne r' r with rfl | hne
    · rw [update_self]
      rcases hresponse with heq | ⟨resp, heq, hfinal⟩
      · rw [heq]
        exact hs.responses r'
      · rintro _ _ hsome
        cases heq.symm.trans hsome
        exact ⟨rfl, hfinal⟩
    · rw [update_of_ne hne]
      exact hs.responses r'

theorem Matched.step {a : Action} {s' : State} (hview : View t s h) (hdirect : Direct a s)
    (hstep : step t a s = some s') (hs : Matched s) :
  Matched s'
  := by
  cases acts_of_step hstep with
  | start => exact hs.move nofun nofun
  | getBodyFails | leaseNone | dialFails | retry | giveUp => exact hs.rest rfl rfl
  | leaseMiss _ hget =>
    obtain ⟨dead, hperm, rfl, -, -⟩ := Pool.get_spec hview.valid hget
    refine Matched.refile (hs.rest rfl rfl) (fun pc hpc => hs.idle pc ?_)
      (Conns.sameTraffic_closeAll s.conns dead)
    exact hperm.mem_iff.mpr (by simp [hpc])
  | @leaseHit _ r pc _ _ _ hget =>
    obtain ⟨dead, hperm, rfl, -, -⟩ := Pool.get_spec hview.valid hget
    refine Matched.refile (hs.move ?_ ?_) (fun c hc => hs.idle c ?_)
      (Conns.sameTraffic_closeAll s.conns dead)
    · rintro _ _ ⟨⟩
      exact hs.idle pc (hperm.mem_iff.mpr (by simp))
    · exact hs.responses r
    · exact hperm.mem_iff.mpr (by simp [hc])
  | @dial _ r =>
    have hnew : h s.dialed = .undialed := hview.held.of_place _ .undialed le_rfl
    have hfresh : Matched (s.setConn s.dialed (newPersistConn (s.call r).req.key)) := by
      refine hs.setConn (fun r' stage hr' => ?_) fun hidle => ?_
      · have hconn : (s.phase r').conn = some s.dialed := by rw [hr']; rfl
        cases hnew.symm.trans (hview.held.of_place _ (.inUse r') hconn)
      · cases hnew.symm.trans (hview.held.of_place _ .idle hidle)
    have hmove : Matched ((s.setConn s.dialed (newPersistConn (s.call r).req.key)).move r
        (.holding s.dialed .begun) { s.call r with reused := false }) := by
      refine hfresh.move ?_ (hs.responses r)
      rintro _ _ ⟨⟩
      rw [State.setConn_conns, update_self]
      exact ⟨rfl, rfl⟩
    exact { hmove with }
  | work hphase hwork => exact hs.work hview hphase hwork
  | abandon | drop => exact Matched.close (hs.rest rfl rfl) _
  | @put _ r pc _ _ _ hphase hput =>
    have hr : (s.phase r).conn = some pc := by rw [hphase]; rfl
    obtain ⟨evicted, rest, hperm, hperm', rfl, -⟩ :=
      Pool.put_spec hview.valid (hview.not_idle hr) hput
    refine Matched.refile (hs.rest rfl rfl) (fun c hc => ?_) fun c => ?_
    · rcases mem_cons.mp (hperm'.mem_iff.mp hc) with rfl | hc
      · exact hs.calls r c .filing hphase
      · exact hs.idle c (hperm.mem_iff.mpr (mem_append_right _ hc))
    · rcases eq_or_ne c pc with rfl | hne
      · rw [update_self]
        exact ⟨rfl, rfl⟩
      · rw [update_of_ne hne]
        exact Conns.sameTraffic_closeAll s.conns evicted c
  | putRefused =>
    refine hs.move ?_ (hs.responses _)
    rintro _ _ ⟨⟩
    trivial
  | closeIdle => exact { hs with idle := nofun }
  | closeDetached => exact { hs.close _ with }
  | fire =>
    refine Matched.close ?_ _
    exact hs.stay rfl rfl
  | leave | cancel => exact hs.stay rfl rfl
  | reply howed =>
    refine hs.setConn (fun r' stage hr' hsynced => ?_) fun _ hclean => ?_
    · exact hsynced.answer howed hdirect fun heq => by rw [heq]
    · cases hclean.2.symm.trans howed
  | @hangUp _ pc n =>
    have hprefix : (s.conns pc).buf ++ (s.conns pc).wire.take n <+: (s.conns pc).stream := by
      rw [Conn.stream, prefix_append_right_inj]
      exact take_prefix n _
    refine hs.setConn (fun r' stage hr' hsynced => hsynced.mono rfl hprefix) fun _ hclean => ?_
    rw [hclean.1] at hprefix
    exact ⟨prefix_nil.mp hprefix, hclean.2⟩
  | tick => exact { hs with }

/-- Against servers that send no interim responses, on new connections and on pooled ones, every
response that `RoundTrip` returns is the final response to that request. -/
theorem response_is_final (t : Transport) (as : List Action) (s : State)
    (hdirect : Along (step t) Direct as State.init) (hexec : exec (step t) as State.init = some s) :
  ∀ r owner resp, (s.call r).response = some (owner, resp) → owner = r ∧ 200 ≤ resp.statusCode
  := by
  have hinv : (∃ h, View t s h) ∧ Matched s := by
    refine exec_inv_along (P := fun s => (∃ h, View t s h) ∧ Matched s) ?_ hdirect hexec
      ⟨⟨_, View.init t⟩, Matched.init⟩
    rintro a s s' hdirect hstep ⟨⟨h, hview⟩, hs⟩
    obtain ⟨h', -, hview'⟩ := hview.step hstep
    exact ⟨⟨h', hview'⟩, hs.step hview hdirect hstep⟩
  exact hinv.2.responses

/-- A request, and then another on its connection. -/
theorem response_is_final_reused :
  ∃ s, exec (step defaultTransport) (answered 0 0 plainGet noContent ++ [.start 1 plainGet,
      .lease 1, .work 1 .start, .work 1 .flush, .reply 0 noContent, .work 1 (.fill 1),
      .work 1 .readResponse]) State.init = some s
    ∧ s.phase 1 = .holding 0 (.opened ⟨.length 0, true, false, false⟩)
    ∧ ∀ r owner resp, (s.call r).response = some (owner, resp) →
        owner = r ∧ 200 ≤ resp.statusCode
  := by
  refine ⟨_, rfl, rfl, ?_⟩
  refine response_is_final defaultTransport (answered 0 0 plainGet noContent ++ [.start 1 plainGet,
      .lease 1, .work 1 .start, .work 1 .flush, .reply 0 noContent, .work 1 (.fill 1),
      .work 1 .readResponse]) _ (along_of_forall ?_ _) rfl
  simp [answered, Direct, noContent]

/-- The response `200 OK` without a body, after the interim response `103 Early Hints`. -/
def earlyHints : Reply where
  interims := [⟨103, 1, 1, false, [], 0, []⟩]
  final := ⟨200, 1, 1, false, [], 0, []⟩
  payload := 0
  interim := by simp
  isFinal := by decide

/-- The first request gets the interim response, and the second the final response to the
first. -/
theorem response_is_not_final :
  ∃ s, exec (step defaultTransport) (answered 0 0 plainGet earlyHints ++ [.start 1 plainGet,
      .lease 1, .work 1 .start, .work 1 .flush, .work 1 (.fill 1), .work 1 .readResponse])
      State.init = some s
    ∧ (s.call 0).response = some (0, ⟨103, 1, 1, false, [], 0, []⟩)
    ∧ (s.call 1).response = some (0, ⟨200, 1, 1, false, [], 0, []⟩)
  := ⟨_, rfl, rfl, rfl⟩

end Https
