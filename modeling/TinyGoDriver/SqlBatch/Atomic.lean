import TinyGoDriver.SqlBatch.Fallback

/-!
# All or nothing

With a transaction, a batch should be committed as a whole if `Send` returns nil, and not at all if
it returns an error.  The three paths commit at different moments: the sequential path when every
callback has returned nil, the adapters before the first callback is called.  So on the sequential
path a callback's error rolls the batch back, and on the adapter paths it comes too late.
-/

namespace SqlBatch

open List

variable {ρ : Type}

section Walk

variable (tag : ℕ → Except Err CommandTag) (rows : ℕ → Except Err (RowSet ρ))

/-- The first error of the statements from `i` on, answered with `tag` and `rows`, and the
callbacks called until then. -/
def walk : ℕ → List (QueuedQuery ρ) → List ℕ → Option Err × List ℕ
  | _, [], called => (none, called)
  | i, q :: qs, called =>
    let (err, calls) := q.tells (tag i) (rows i) called
    let called := if calls then called ++ [i] else called
    match err with
    | some e => (some e, called)
    | none => walk (i + 1) qs called

/-- The results `res` answer statement `i` with `tag i` and `rows i` in every world `w` with
`P i w`. -/
structure Answers (res : Results ρ) (P : ℕ → World → Prop) : Prop where
  err : ∀ {i w} (q : QueuedQuery ρ), P i w →
    (q.report res i w).1 = (q.tells (tag i) (rows i) w.called).1
  called : ∀ {i w} (q : QueuedQuery ρ), P i w → (q.report res i w).2.called
    = if (q.tells (tag i) (rows i) w.called).2 then w.called ++ [i] else w.called
  next : ∀ {i w} (q : QueuedQuery ρ), P i w → P (i + 1) (q.report res i w).2

variable {tag rows} {res : Results ρ} {P : ℕ → World → Prop}

/-- `drive` returns the first error, attributed to a statement, or else that of `Close`. -/
theorem Answers.drive (h : Answers tag rows res P) {i : ℕ} (qs : List (QueuedQuery ρ)) {w : World}
    (hw : P i w) :
  ∃ j v, P j v ∧ v.called = (walk tag rows i qs w.called).2
    ∧ ((walk tag rows i qs w.called).1 = none ∧ j = i + qs.length
        ∧ drive res i qs w = res.close v
      ∨ ∃ e k sql, (walk tag rows i qs w.called).1 = some e
        ∧ drive res i qs w = (some (attributeTo e k sql), (res.close v).2))
  := by
  induction qs generalizing i w with
  | nil => exact ⟨i, w, hw, rfl, .inl ⟨rfl, rfl, rfl⟩⟩
  | cons q qs ih =>
    have herr := h.err q hw
    have hcalled := h.called q hw
    have hnext := h.next q hw
    rw [SqlBatch.drive, walk]
    generalize q.report res i w = r at herr hcalled hnext ⊢
    obtain ⟨err, w'⟩ := r
    dsimp only at herr hcalled hnext ⊢
    rw [← hcalled, ← herr]
    cases err with
    | some e => exact ⟨i + 1, w', hnext, rfl, .inr ⟨e, i, q.sql, rfl, rfl⟩⟩
    | none =>
      obtain ⟨j, v, hv, hv', hend⟩ := ih hnext
      refine ⟨j, v, hv, hv', ?_⟩
      rwa [length_cons, Nat.add_comm qs.length 1, ← Nat.add_assoc]

end Walk

variable (db : Db ρ) {b : List (QueuedQuery ρ)}

/-! ### The sequential path -/

/-- The walk over statements that the database answers one at a time, having been sent `sent`. -/
def Db.walk (sent : List ℕ) : ℕ → List (QueuedQuery ρ) → List ℕ → Option Err × List ℕ :=
  SqlBatch.walk (fun i => db.tag (sent ++ range i) i) (fun i => db.rows (sent ++ range i) i)

theorem Ran.mem_pending {i j : ℕ} {w w' : World} (h : Ran i w w') :
  (j ∈ w.pending → j ∈ w'.pending) ∧ (j ∈ w'.pending → j ∈ w.pending ∨ j = i)
  := by
  rcases h.outcome with ⟨-, hpending⟩ | ⟨-, hpending | hpending⟩ <;> rw [hpending]
  · exact ⟨id, .inl⟩
  · exact ⟨id, .inl⟩
  · exact ⟨mem_append_left [i], by simp⟩

/-- The statements from `i` on are still to be run, in a transaction. -/
structure Ahead (sent : List ℕ) (i : ℕ) (w : World) : Prop where
  tx : w.tx = true
  sent_eq : w.sent = sent ++ range i
  pending_lt : ∀ j ∈ w.pending, j < i

theorem Ahead.ran {sent : List ℕ} {i : ℕ} {w : World} (h : Ahead sent i w) (calls : Bool)
    (fate : Fate) :
  Ahead sent (i + 1) (w.ran i calls fate)
    ∧ (i ∈ (w.ran i calls fate).pending ↔ fate = .effect)
  := by
  have hran := ran_ran w i calls fate
  refine ⟨⟨hran.tx_eq.trans h.tx, ?_, fun j hj => ?_⟩, ?_⟩
  · rw [hran.sent_eq, h.sent_eq, range_succ, append_assoc]
  · rcases hran.mem_pending.2 hj with hj | rfl
    · exact Nat.lt_succ_of_lt (h.pending_lt j hj)
    · exact Nat.lt_succ_self j
  have hnot : i ∉ w.pending := fun hi => Nat.lt_irrefl i (h.pending_lt i hi)
  have htx := h.tx
  cases fate <;> cases calls <;>
    simp [World.ran, World.meets, World.reject, World.apply, World.send, World.call, htx, hnot]

section Sequential

variable (db : Db ρ) {s : Settings} (b : List (QueuedQuery ρ)) (w : World)

end Sequential

/-! ### The adapters -/

/-- An exchange with the server, by the answers in it. -/
structure Exchange where
  /-- whether the server commits the batch -/
  commits : Bool
  /-- whether the first error on the way is an `UnsupportedError`, if one comes up -/
  unsupported : Option Bool
  /-- the statements that the server is sent -/
  sent : List ℕ
  /-- the callbacks called -/
  called : List ℕ

namespace MySql

/-- The error that ends the request: of `START TRANSACTION`, a statement, or `COMMIT`. -/
def stops (my : MySql) (n : ℕ) : Option ℕ :=
  my.beginTx <|> (List.range n).findSome? my.fails <|> my.commit

/-- The batch is refused, or the request fails, or its results cannot be told apart, or the
callbacks are called. -/
def exchange (my : MySql) (b : List (QueuedQuery ρ)) : Exchange :=
  if my.execer then
    match my.checks 0 b, my.skip, my.stops b.length, my.perStatement with
    | some e, _, _, _ => ⟨false, some e.asUnsupported, [], []⟩
    | none, true, _, _ => ⟨false, some true, [], []⟩
    | none, false, some _, _ => ⟨false, some false, [], []⟩
    | none, false, none, none => ⟨true, some true, range b.length, []⟩
    | none, false, none, some rs =>
      if rs.length = b.length + 2 then
        -- the first result is that of `START TRANSACTION`
        let (err, called) := walk (tag (rs.drop 1)) rows 0 b []
        ⟨true, err.map Err.asUnsupported, range b.length, called⟩
      else ⟨true, some false, range b.length, []⟩
  else ⟨false, some true, [], []⟩

end MySql

/-! ### pgx -/

namespace Pgx

/-- The error that ends the pipeline: of a statement, or of the commit. -/
def stops (pg : Pgx ρ) (n : ℕ) : Option ℕ :=
  (List.range n).findSome? pg.fails <|> pg.commit

/-- The batch is refused, or the callbacks are called, and `Close` tells the error of the
pipeline. -/
def exchange (pg : Pgx ρ) (b : List (QueuedQuery ρ)) : Exchange :=
  if pg.isPgx then
    let (err, called) := walk pg.tag pg.rows 0 b []
    let stops := pg.stops b.length
    ⟨stops.isNone, (err.or (stops.map .db)).map Err.asUnsupported,
      attempted pg.fails (range b.length), called⟩
  else ⟨false, some true, [], []⟩

end Pgx

/-! ### Every path -/

/-- The paths `Send` takes.  A driver is on the sequential path because it is registered for it, or
because it is not registered at all. -/
inductive Path (ρ : Type) where
  | sequential (registered : Bool)
  | mysql (my : MySql)
  | pgx (pg : Pgx ρ)

def Path.entry : Path ρ → Entry ρ
  | .sequential true => .sequential
  | .sequential false => .absent
  | .mysql my => .adapter my.sendBatch
  | .pgx pg => .adapter pg.sendBatch

end SqlBatch
