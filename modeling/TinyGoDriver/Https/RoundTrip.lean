import TinyGoDriver.Https.Ownership

/-!
# A request and dead connections

`roundTrip` by itself: its loop over the attempts, with what the dial and the exchanges come to
given by the surroundings (`World`).  A connection from the pool may have been closed by the peer,
which the exchange on it finds out.  The request is then tried once more, but on what `lease` gives
again, so it succeeds only if that is not another dead connection.
-/

namespace Https

open Interleaving List

/-- What a call of `roundTrip` meets with, attempt by attempt. -/
structure World where
  /-- the time at which an attempt looks into the pool -/
  now : ℕ → ℤ
  /-- the dial succeeds -/
  dial : ℕ → Bool
  /-- the response on a connection, or whether the exchange failed before any byte of one -/
  exchange : ℕ → ℕ → Except Bool Head
  /-- `GetBody` succeeds -/
  getBody : Bool
  /-- the request has been cancelled by the time the attempt has failed -/
  cancelled : ℕ → Bool

/-- The pool and the connections. -/
structure Store where
  pool : Pool
  conns : Conns
  dialed : ℕ

def State.store (s : State) : Store := { pool := s.pool, conns := s.conns, dialed := s.dialed }

/-- `Transport.lease`. -/
def Transport.lease (t : Transport) (key : String) (now : ℤ) (st : Store) : Option ℕ × Store :=
  if t.DisableKeepAlives then (none, st)
  else
    let (found, pool, conns) := st.pool.get key t.idleConnTimeout now st.conns
    (found, { st with pool := pool, conns := conns })

/-- A new connection. -/
def Store.dial (st : Store) (key : String) : Store :=
  { st with
    conns := Function.update st.conns st.dialed (newPersistConn key), dialed := st.dialed + 1 }

/-- The connection of an attempt, with whether it comes from the pool. -/
def Transport.connect (t : Transport) (w : World) (key : String) (attempt : ℕ) (st : Store) :
    Option (ℕ × Bool) × Store :=
  match t.lease key (w.now attempt) st with
  | (some pc, st) => (some (pc, true), st)
  | (none, st) => if w.dial attempt then (some (st.dialed, false), st.dial key) else (none, st)

/-- The attempt is repeated, by the test that `roundTrip` makes after a failed exchange. -/
def World.retries (w : World) (req : Req) (attempt : ℕ) (reused untouched : Bool) : Bool :=
  { Call.of req with
    attempt := attempt, reused := reused, cancelled := w.cancelled attempt }.retries untouched

/-- The loop of `Transport.roundTrip`, with the connection of the response if there is one. -/
def Transport.roundTripLoop (t : Transport) (w : World) (req : Req) :
    ℕ → ℕ → Store → Option (ℕ × Head) × Store
  | 0, _, st => (none, st)
  | fuel + 1, attempt, st =>
    if attempt ≠ 0 ∧ req.body ∧ req.getBody ∧ !w.getBody then (none, st)
    else
      match t.connect w req.key attempt st with
      | (none, st) => (none, st)
      | (some (pc, reused), st) =>
        match w.exchange attempt pc with
        | .ok resp => (some (pc, resp), st)
        | .error untouched =>
          let st := { st with conns := st.conns.close pc }
          if w.retries req attempt reused untouched then
            t.roundTripLoop w req fuel (attempt + 1) st
          else (none, st)

/-- `Transport.roundTrip`: the second attempt is the last. -/
def Transport.roundTrip (t : Transport) (w : World) (req : Req) (st : Store) :
    Option (ℕ × Head) × Store :=
  t.roundTripLoop w req 2 0 st

/-! ### Connections that the peer has closed -/

/-- No connection is left that the second attempt would take: none can be used then of those
that stand in the pool behind the one that the first attempt takes. -/
def Transport.Exhausted (t : Transport) (w : World) (key : String) (st : Store) : Prop :=
  t.DisableKeepAlives = true
    ∨ ∀ pc ∈ ((st.pool.idle.bucket key).reverse.dropWhile
        fun pc => !(st.conns pc).usable t.idleConnTimeout (w.now 0)).tail,
      (st.conns pc).usable t.idleConnTimeout (w.now 1) = false

/-- Every connection of the pool for the request was closed by the peer while it was idle, and a
new connection would do. -/
structure World.Stale (w : World) (req : Req) (st : Store) : Prop where
  getBody : w.getBody = true
  cancelled : ∀ attempt, w.cancelled attempt = false
  dial : ∀ attempt, w.dial attempt = true
  fresh : ∀ attempt, ∃ resp, w.exchange attempt st.dialed = .ok resp
  dead : ∀ attempt, ∀ pc ∈ st.pool.idle.bucket req.key, w.exchange attempt pc = .error true

variable {t : Transport} {w : World} {req : Req} {st st' : Store} {list : List ℕ}

/-- An attempt on a new connection succeeds. -/
theorem Transport.roundTripLoop_fresh {fuel attempt : ℕ} {resp : Head}
    (hlease : t.lease req.key (w.now attempt) st = (none, st')) (hgetBody : w.getBody = true)
    (hdial : w.dial attempt = true) (hfresh : w.exchange attempt st'.dialed = .ok resp) :
  (t.roundTripLoop w req (fuel + 1) attempt st).1 = some (st'.dialed, resp)
  := by
  simp [roundTripLoop, connect, hlease, hdial, hfresh, hgetBody]

/-- An attempt on a dead connection is repeated or fails. -/
theorem Transport.roundTripLoop_dead {fuel attempt pc : ℕ}
    (hlease : t.lease req.key (w.now attempt) st = (some pc, st')) (hgetBody : w.getBody = true)
    (hdead : w.exchange attempt pc = .error true) :
  t.roundTripLoop w req (fuel + 1) attempt st =
    if w.retries req attempt true true then
      t.roundTripLoop w req fuel (attempt + 1) { st' with conns := st'.conns.close pc }
    else (none, { st' with conns := st'.conns.close pc })
  := by
  simp [roundTripLoop, connect, hlease, hdead, hgetBody]

/-- What `lease` comes to, if it looks into the pool. -/
theorem Transport.lease_eq (hkeep : t.DisableKeepAlives = false) (key : String) (now : ℤ)
    (st : Store) {found : Option ℕ} {conns : Conns} {total : ℤ}
    (hloop : getLoop t.idleConnTimeout now (st.pool.idle.bucket key).reverse st.conns st.pool.total
      = (found, list, conns, total)) :
  t.lease key now st = (found, { st with
    pool := { idle := st.pool.idle.store key list.reverse, total := total }, conns := conns })
  := by
  simp [lease, hkeep, Pool.get, hloop]

/-- The second attempt finds a connection in the pool if one can be used. -/
theorem getLoop_eq_none_iff {timeout now : ℤ} {l : List ℕ} {conns conns' : Conns}
    {total total' : ℤ} {found : Option ℕ} (hnodup : l.Nodup)
    (h : getLoop timeout now l conns total = (found, list, conns', total')) :
  found = none ↔ ∀ pc ∈ l, (conns pc).usable timeout now = false
  := by
  have hdrop := getLoop_dropWhile hnodup h
  constructor
  · rintro rfl
    obtain ⟨-, -, -, -, hlist, -⟩ := getLoop_spec h
    rw [hlist rfl, Option.toList_none, append_nil, dropWhile_eq_nil_iff] at hdrop
    exact fun pc hpc => by simpa using hdrop pc hpc
  · intro hall
    have hnil : l.dropWhile (fun pc => !(conns pc).usable timeout now) = [] :=
      dropWhile_eq_nil_iff.mpr fun pc hpc => by simp [hall pc hpc]
    rw [hnil] at hdrop
    cases found with
    | none => rfl
    | some pc => cases hdrop

/-- The second attempt, after the first has found a dead connection: `list` is what the first
has left in the bucket. -/
theorem Transport.secondAttempt_stale (t : Transport) {pc : ℕ} (hstale : w.Stale req st)
    (hkeep : t.DisableKeepAlives = false) (hdialed : st'.dialed = st.dialed)
    (hbucket : st'.pool.idle.bucket req.key = list.reverse) (hnodup : list.Nodup)
    (hmem : ∀ c ∈ pc :: list, c ∈ st.pool.idle.bucket req.key)
    (hsame : ∀ c ∈ list, st'.conns c = st.conns c) :
  (t.roundTripLoop w req 1 (0 + 1) st').1.isSome = true
    ↔ false = true ∨ ∀ c ∈ (Option.toList (some pc) ++ list).tail,
        (st.conns c).usable t.idleConnTimeout (w.now 1) = false
  := by
  obtain ⟨found, rest, conns, total, hloop⟩ : ∃ found rest conns total,
      getLoop t.idleConnTimeout (w.now 1) (st'.pool.idle.bucket req.key).reverse st'.conns
        st'.pool.total = (found, rest, conns, total) := ⟨_, _, _, _, rfl⟩
  have hlease := lease_eq hkeep req.key (w.now 1) st' hloop
  rw [hbucket, reverse_reverse] at hloop
  have hnone := getLoop_eq_none_iff hnodup hloop
  obtain ⟨dead, hlist, -⟩ := getLoop_spec hloop
  have husable : (∀ c ∈ list, (st'.conns c).usable t.idleConnTimeout (w.now 1) = false)
      ↔ ∀ c ∈ list, (st.conns c).usable t.idleConnTimeout (w.now 1) = false :=
    forall₂_congr fun c hc => by rw [hsame c hc]
  simp only [Bool.false_eq_true, false_or, Option.toList_some, singleton_append, tail_cons]
  rw [← husable, ← hnone]
  cases found with
  | none =>
    obtain ⟨resp, hresp⟩ := hstale.fresh 1
    rw [← hdialed] at hresp
    rw [roundTripLoop_fresh hlease hstale.getBody (hstale.dial 1) hresp]
    simp
  | some pc' =>
    have hpc' : pc' ∈ list := by
      rw [hlist]
      simp
    rw [roundTripLoop_dead hlease hstale.getBody
      (hstale.dead 1 pc' (hmem pc' (mem_cons_of_mem pc hpc')))]
    simp [World.retries, Call.retries]

/-- The two attempts of a request whose connections in the pool are all dead. -/
theorem Transport.roundTrip_stale (hreplayable : req.replayable = true) (hstale : w.Stale req st)
    (hnodup : (st.pool.idle.bucket req.key).Nodup) (hkeep : t.DisableKeepAlives = false) :
  (t.roundTrip w req st).1.isSome = true ↔ t.Exhausted w req.key st
  := by
  have hnodup' : (st.pool.idle.bucket req.key).reverse.Nodup := nodup_reverse.mpr hnodup
  obtain ⟨found, list, conns, total, hloop⟩ : ∃ found list conns total,
      getLoop t.idleConnTimeout (w.now 0) (st.pool.idle.bucket req.key).reverse st.conns
        st.pool.total = (found, list, conns, total) := ⟨_, _, _, _, rfl⟩
  obtain ⟨dead, hbucket, rfl, -, hnone, -⟩ := getLoop_spec hloop
  have hlease := lease_eq hkeep req.key (w.now 0) st hloop
  rw [Exhausted, hkeep, getLoop_dropWhile hnodup' hloop, roundTrip]
  cases found with
  | none =>
    obtain ⟨resp, hresp⟩ := hstale.fresh 0
    rw [roundTripLoop_fresh hlease hstale.getBody (hstale.dial 0) hresp]
    simp [hnone rfl]
  | some pc =>
    rw [hbucket] at hnodup'
    have hmem : ∀ c ∈ pc :: list, c ∈ st.pool.idle.bucket req.key := by
      intro c hc
      rw [← mem_reverse, hbucket]
      exact mem_append_right _ hc
    -- what is left in the bucket is as it was: it was neither passed over nor taken
    have hsame : ∀ c ∈ list, (st.conns.closeAll dead).close pc c = st.conns c := by
      intro c hc
      have hdead : c ∉ dead := fun hd =>
        disjoint_of_nodup_append hnodup' hd (mem_cons_of_mem pc hc)
      have hpc : c ≠ pc := by
        rintro rfl
        exact (nodup_cons.mp hnodup'.of_append_right).1 hc
      rw [Conns.close_apply, if_neg hpc, Conns.closeAll_apply, if_neg hdead]
    have hretries : w.retries req 0 true true = true := by
      simp [World.retries, Call.retries, Call.of, hreplayable, hstale.cancelled]
    rw [roundTripLoop_dead hlease hstale.getBody (hstale.dead 0 pc (hmem pc mem_cons_self)),
      if_pos hretries]
    exact t.secondAttempt_stale hstale hkeep rfl (by simp [Filing.bucket_store_self])
      (hnodup'.of_append_right.of_cons) hmem hsame

/-- After any course of events, a request that can be sent again and is not cancelled, for which
a new connection would do while every pooled one is dead, succeeds just in case the first attempt
leaves no connection in the pool that the second would take. -/
theorem roundTrip_succeeds_iff (t : Transport) (as : List Action) (s : State) (w : World)
    (req : Req) (hexec : exec (step t) as State.init = some s)
    (hreplayable : req.replayable = true) (hstale : w.Stale req s.store) :
  (t.roundTrip w req s.store).1.isSome = true ↔ t.Exhausted w req.key s.store
  := by
  obtain ⟨h, hs⟩ := exists_view hexec
  cases hkeep : t.DisableKeepAlives with
  | true =>
    obtain ⟨resp, hresp⟩ := hstale.fresh 0
    have hlease : t.lease req.key (w.now 0) s.store = (none, s.store) := by
      simp [Transport.lease, hkeep]
    rw [Transport.roundTrip,
      Transport.roundTripLoop_fresh hlease hstale.getBody (hstale.dial 0) hresp]
    simp [Transport.Exhausted, hkeep]
  | false =>
    have hnodup := (s.pool.idle.items_perm req.key).nodup_iff.mp hs.valid.nodup
    exact Transport.roundTrip_stale hreplayable hstale hnodup.of_append_left hkeep

/-- The call of the number `r` has its connection `pc`, and goes on to its return to the pool. -/
def finished (r pc : ℕ) (reply : Reply) (order : List String) : List Action :=
  [.work r .start, .work r .flush, .reply pc reply, .work r (.fill 1), .work r .readResponse,
    .work r .close, .work r .unwatch, .work r (.drainStart true), .work r (.drainRead 0 true),
    .work r .finish, .work r (.recycle true), .put r order]

/-- The connections with numbers below `n` are dead, and the next one answers. -/
def deadBelow (n : ℕ) : World :=
  { now := fun _ => 0, dial := fun _ => true, getBody := true, cancelled := fun _ => false,
    exchange := fun _ pc => if pc < n then .error true else .ok noContent.final }

theorem stale_deadBelow {n : ℕ} (hdialed : n ≤ st.dialed)
    (hbucket : ∀ pc ∈ st.pool.idle.bucket req.key, pc < n) :
  (deadBelow n).Stale req st
  where
  getBody := rfl
  cancelled := fun _ => rfl
  dial := fun _ => rfl
  fresh := fun _ => ⟨_, if_neg (Nat.not_lt.mpr hdialed)⟩
  dead := fun _ pc hpc => if_pos (hbucket pc hpc)

/-- One connection is idle and the server has closed it: the request is answered on a new one. -/
theorem roundTrip_succeeds_iff_one :
  ∃ s, exec (step defaultTransport) (answered 0 0 plainGet noContent ++ [.hangUp 0 0])
      State.init = some s
    ∧ (defaultTransport.roundTrip (deadBelow 1) plainGet s.store).1.isSome = true
  := by
  refine ⟨_, rfl, ?_⟩
  refine (roundTrip_succeeds_iff defaultTransport (answered 0 0 plainGet noContent
    ++ [.hangUp 0 0]) _ (deadBelow 1) plainGet rfl rfl ?_).mpr ?_
  · exact stale_deadBelow (by decide) (by decide)
  · exact .inr (by decide)

/-- Two connections are idle and the server has closed both: the request fails, although a new
connection would answer it. -/
theorem roundTrip_fails_two_dead :
  ∃ s, exec (step defaultTransport) ([.start 0 plainGet, .lease 0, .start 1 plainGet, .lease 1,
      .dial 0, .dial 1] ++ finished 0 0 noContent [] ++ finished 1 1 noContent ["k"]
      ++ [.hangUp 0 0, .hangUp 1 0]) State.init = some s
    ∧ s.pool.idle.bucket "k" = [0, 1]
    ∧ (deadBelow 2).Stale plainGet s.store ∧ plainGet.replayable = true
    ∧ (defaultTransport.roundTrip (deadBelow 2) plainGet s.store).1 = none
  := by
  refine ⟨_, rfl, rfl, ?_, rfl, rfl⟩
  exact stale_deadBelow (by decide) (by decide)

end Https
