import TinyGoDriver.SqlBatch.Batch

/-!
# The sequential path

One statement after the other is sent to the database, inside a transaction.  A statement that
the database rejects should end the batch.  Whether it does is up to the callback of the
statement: an error of `QueryRow` is told to a callback that scans the row, and an error that
comes with the rows to one that reads them to their end.
-/

namespace SqlBatch

open List

variable {ρ : Type}

/-! ### The answers to a statement -/

/-- The answer to statement `i`, run for its effect. -/
def Db.tag (db : Db ρ) (sent : List ℕ) (i : ℕ) : Except Err CommandTag :=
  match db.exec sent i with
  | .error e => .error (.db e)
  | .ok ⟨.error e, _⟩ => .error (.db e)
  | .ok ⟨.ok affected, .ok id⟩ => .ok ⟨affected, id, true⟩
  | .ok ⟨.ok affected, .error _⟩ => .ok ⟨affected, 0, false⟩

/-- The answer to statement `i`, run for its rows. -/
def Db.rows (db : Db ρ) (sent : List ℕ) (i : ℕ) : Except Err (RowSet ρ) :=
  match db.query sent i with
  | .error e => .error (.db e)
  | .ok rs => .ok rs

/-- The error of a callback for the first row. -/
def RowFn.tells : RowFn ρ → Except Err (RowSet ρ) → Option Err
  | .ignore err, _ => err
  | .scan fn, .ok rs => fn rs.first
  | .scan fn, .error e => fn (.error e)

/-- What becomes of a statement that is answered with `tag`, or with `rows`, after the callbacks
`called`: its error, and whether its own callback is called. -/
def QueuedQuery.tells (q : QueuedQuery ρ) (tag : Except Err CommandTag)
    (rows : Except Err (RowSet ρ)) (called : List ℕ) : Option Err × Bool :=
  match q.fn, tag, rows with
  | .none, .ok _, _ => (none, false)
  | .none, .error e, _ => (some e, false)
  | .exec fn, .ok ct, _ => (fn called ct, true)
  | .exec _, .error e, _ => (some e, false)
  | .query fn, _, .ok rs => ((fn called rs).1.or (rs.err (fn called rs).2), true)
  | .query _, _, .error e => (some e, false)
  | .queryRow fn, _, rows => ((fn called).tells rows, true)

/-- What the database makes of a statement. -/
inductive Fate where
  | rejected
  | effect
  /-- compiled by a lazy database, and not run -/
  | unrun
  deriving DecidableEq, Repr

/-- The fate of a query of whose rows `Next` is called `n` times. -/
def Db.readFate (db : Db ρ) (rs : RowSet ρ) (n : ℕ) : Fate :=
  if db.lazy = true ∧ n = 0 then .unrun
  else if (db.lazy = true → rs.rows.length < n) ∧ rs.late.isSome then .rejected
  else .effect

def Db.fate (db : Db ρ) (sent called : List ℕ) (i : ℕ) (q : QueuedQuery ρ) : Fate :=
  match q.fn with
  | .none | .exec _ =>
    match db.exec sent i with
    | .error _ => .rejected
    | .ok _ => .effect
  | .query fn =>
    match db.query sent i with
    | .error _ => .rejected
    | .ok rs => db.readFate rs (fn called rs).2
  | .queryRow fn =>
    match db.query sent i, fn called with
    | .error _, _ => .rejected
    | .ok rs, .ignore _ => db.readFate rs 0
    | .ok rs, .scan _ => db.readFate rs 1

/-! ### One statement -/

namespace World

/-- Statement `i` meets its fate. -/
def meets (w : World) (i : ℕ) : Fate → World
  | .rejected => w.reject i
  | .effect => w.apply i
  | .unrun => w

/-- Statement `i` is sent, its callback is called or not, and it meets its fate. -/
def ran (w : World) (i : ℕ) (calls : Bool) (fate : Fate) : World :=
  (if calls then (w.send i).call i else w.send i).meets i fate

@[simp]
theorem called_meets (w : World) (i : ℕ) (fate : Fate) :
  (w.meets i fate).called = w.called
  := by
  cases fate with
  | effect => cases htx : w.tx <;> simp [meets, apply, htx]
  | _ => rfl

theorem meets_call (w : World) (i : ℕ) (fate : Fate) :
  (w.meets i fate).call i = (w.call i).meets i fate
  := by
  cases fate with
  | effect => cases htx : w.tx <;> simp [meets, apply, call, htx]
  | _ => rfl

theorem called_ran (w : World) (i : ℕ) (calls : Bool) (fate : Fate) :
  (w.ran i calls fate).called = if calls then w.called ++ [i] else w.called
  := by
  unfold ran
  rw [called_meets]
  cases calls <;> rfl

end World

/-- What running statement `i` does to the world: it is sent; the database rejects it, or it takes
effect, or neither; and its callback is called or not. -/
structure Ran (i : ℕ) (w w' : World) : Prop where
  sent_eq : w'.sent = w.sent ++ [i]
  tx_eq : w'.tx = w.tx
  committed_eq : w.tx = true → w'.committed = w.committed
  called_eq : w'.called = w.called ∨ w'.called = w.called ++ [i]
  outcome : w'.rejected = w.rejected ++ [i] ∧ w'.pending = w.pending
    ∨ w'.rejected = w.rejected ∧ (w'.pending = w.pending ∨ w'.pending = w.pending ++ [i])

theorem ran_ran (w : World) (i : ℕ) (calls : Bool) (fate : Fate) :
  Ran i w (w.ran i calls fate)
  := by
  have hcalled : (w.ran i calls fate).called = w.called
      ∨ (w.ran i calls fate).called = w.called ++ [i] := by
    rw [World.called_ran]
    cases calls
    · exact .inl rfl
    · exact .inr rfl
  cases fate with
  | rejected => cases calls <;> exact ⟨rfl, rfl, fun _ => rfl, hcalled, .inl ⟨rfl, rfl⟩⟩
  | unrun => cases calls <;> exact ⟨rfl, rfl, fun _ => rfl, hcalled, .inr ⟨rfl, .inl rfl⟩⟩
  | effect =>
    cases htx : w.tx <;> cases calls <;>
      exact ⟨by simp [World.ran, World.meets, World.apply, World.send, World.call, htx],
        by simp [World.ran, World.meets, World.apply, World.send, World.call, htx],
        by simp [World.ran, World.meets, World.apply, World.send, World.call, htx], hcalled,
        .inr (by simp [World.ran, World.meets, World.apply, World.send, World.call, htx])⟩

variable {i : ℕ} {w w' : World} {db : Db ρ} {s : Settings} {qs : List (QueuedQuery ρ)}

theorem seqExec_eq (db : Db ρ) (i : ℕ) (w : World) :
  seqExec db i w
    = (db.tag w.sent i, (w.send i).meets i
        (match db.exec w.sent i with
          | .error _ => .rejected
          | .ok _ => .effect))
  := by
  unfold seqExec Db.runExec Db.tag
  rcases db.exec w.sent i with e | ⟨e | affected, e | id⟩ <;> rfl

theorem seqQuery_error {e : ℕ} (h : db.query w.sent i = .error e) :
  seqQuery db i w = (.error (.db e), (w.send i).reject i)
  := by
  unfold seqQuery Db.runQuery
  simp only [h]

theorem seqQuery_ok {rs : RowSet ρ} (h : db.query w.sent i = .ok rs) :
  seqQuery db i w = (.ok rs, (w.send i).meets i (db.readFate rs 0))
  := by
  unfold seqQuery Db.runQuery Db.readFate
  cases hlazy : db.lazy <;> cases hlate : rs.late <;> simp [h, hlate, World.meets]

/-- The rows are read after the callback has been called.  A lazy database has not run the
statement before. -/
theorem next_call (db : Db ρ) (i : ℕ) (rs : RowSet ρ) (n : ℕ) (w : World) :
  db.next i rs n ((w.meets i (db.readFate rs 0)).call i)
    = (w.call i).meets i (db.readFate rs n)
  := by
  rw [World.meets_call]
  unfold Db.next Db.readFate
  cases hlazy : db.lazy with
  | false => simp
  | true =>
    rcases Nat.eq_zero_or_pos n with rfl | hn
    · simp
    · by_cases hlate : rs.rows.length < n ∧ rs.late.isSome = true
      · simp [hn, Nat.ne_of_gt hn, hlate, World.meets]
      · simp [hn, Nat.ne_of_gt hn, hlate, World.meets]

/-- What `drive` does with one statement. -/
theorem report_seq (db : Db ρ) (q : QueuedQuery ρ) (i : ℕ) (w : World) :
  q.report (seqResults db) i w
    = ((q.tells (db.tag w.sent i) (db.rows w.sent i) w.called).1,
        w.ran i (q.tells (db.tag w.sent i) (db.rows w.sent i) w.called).2
          (db.fate w.sent w.called i q))
  := by
  unfold QueuedQuery.report QueuedQuery.tells Db.fate
  cases q.fn with
  | none =>
    simp only [seqResults, seqExec_eq]
    cases htag : db.tag w.sent i <;> rfl
  | exec fn =>
    simp only [seqResults, seqExec_eq]
    cases htag : db.tag w.sent i with
    | error e => rfl
    | ok ct =>
      simp only [World.called_meets, World.meets_call]
      rfl
  | query fn =>
    cases hquery : db.query w.sent i with
    | error e => simp [seqResults, seqQuery_error hquery, Db.rows, hquery, World.ran, World.meets]
    | ok rs =>
      simp only [seqResults, seqQuery_ok hquery, Db.rows, hquery, World.called_meets]
      rw [show (w.send i).called = w.called from rfl]
      rcases fn w.called rs with ⟨_ | e, n⟩ <;> simp only [next_call] <;> rfl
  | queryRow fn =>
    cases hquery : db.query w.sent i with
    | error e =>
      simp only [seqResults, seqQuery_error hquery, Db.rows, hquery]
      rw [show ((w.send i).reject i).called = w.called from rfl]
      rcases fn w.called with err | fn <;> rfl
    | ok rs =>
      simp only [seqResults, seqQuery_ok hquery, Db.rows, hquery, World.called_meets]
      rw [show (w.send i).called = w.called from rfl]
      rcases fn w.called with err | fn
      · simp only [World.meets_call]
        rfl
      · simp only [next_call]
        rfl

/-- What `drive` does with one statement. -/
theorem ran_report (db : Db ρ) (q : QueuedQuery ρ) (i : ℕ) (w : World) :
  Ran i w (q.report (seqResults db) i w).2
  := by
  rw [report_seq]
  apply ran_ran

/-! ### All statements -/

/-- What every statement keeps holds in the end. -/
theorem drive_seq_inv {P : ℕ → World → Prop} (hstep : ∀ i w w', Ran i w w' → P i w → P (i + 1) w')
    (i : ℕ) (qs : List (QueuedQuery ρ)) (hw : P i w) :
  ∃ j, P j (drive (seqResults db) i qs w).2
  := by
  obtain ⟨j, w', hw', hdrive⟩ := drive_inv
    (fun i q w _ hw => hstep i w _ (ran_report db q i w) hw) (Nat.le_refl _) hw
  exact ⟨j, hdrive ▸ hw'⟩

/-- The world only grows. -/
structure Grows (w w' : World) : Prop where
  sent : w.sent <+: w'.sent
  called : w.called <+: w'.called
  rejected : w.rejected <+: w'.rejected

theorem Grows.refl (w : World) :
  Grows w w
  := ⟨prefix_refl _, prefix_refl _, prefix_refl _⟩

theorem Grows.trans {u v : World} (h : Grows u v) (h' : Grows v w) :
  Grows u w
  := ⟨h.sent.trans h'.sent, h.called.trans h'.called, h.rejected.trans h'.rejected⟩

theorem Ran.grows (h : Ran i w w') :
  Grows w w'
  := by
  refine ⟨?_, ?_, ?_⟩
  · exact ⟨[i], h.sent_eq.symm⟩
  · rcases h.called_eq with hcalled | hcalled
    · exact ⟨[], by rw [hcalled, append_nil]⟩
    · exact ⟨[i], hcalled.symm⟩
  · rcases h.outcome with ⟨hrej, -⟩ | ⟨hrej, -⟩
    · exact ⟨[i], hrej.symm⟩
    · exact ⟨[], by rw [hrej, append_nil]⟩

theorem drive_seq_grows (db : Db ρ) (i : ℕ) (qs : List (QueuedQuery ρ)) (w : World) :
  Grows w (drive (seqResults db) i qs w).2
  := by
  obtain ⟨-, hdone⟩ := drive_seq_inv (P := fun _ v => Grows w v)
    (fun _ _ _ hran hv => hv.trans hran.grows) i qs (Grows.refl w)
  exact hdone

/-- The ways a transaction on the sequential path ends. -/
theorem sequential_cases (db : Db ρ) (hs : s.transaction = true) (b : List (QueuedQuery ρ))
    (w : World) :
  (∃ e, db.beginTx = some e
      ∧ sequential db s b w = (some (.wrap "sqlbatch: opening the batch transaction" (.db e)), w))
    ∨ db.beginTx = none ∧
      ((∃ e e' w', drive (seqResults db) 0 b w.beginTx = (some e, w')
          ∧ e'.asStatement = e.asStatement ∧ sequential db s b w = (some e', w'.rollback))
        ∨ ∃ w', drive (seqResults db) 0 b w.beginTx = (none, w')
          ∧ ((∃ e, db.commit w'.sent = some e ∧ sequential db s b w
              = (some (.wrap "sqlbatch: committing the batch" (.db e)), w'.rollback))
            ∨ db.commit w'.sent = none ∧ sequential db s b w = (none, w'.commit)))
  := by
  unfold sequential
  simp only [hs, if_true]
  cases hbegin : db.beginTx with
  | some e => exact .inl ⟨e, rfl, rfl⟩
  | none =>
    refine .inr ⟨rfl, ?_⟩
    obtain ⟨r, w'⟩ := drive (seqResults db) 0 b w.beginTx
    cases r with
    | some e =>
      left
      cases hrollback : db.rollback w'.sent with
      | some rb =>
        refine ⟨e, .join e (.wrap "sqlbatch: rollback" (.db rb)), w', rfl, ?_, by
          simp [hrollback]⟩
        simp [Err.asStatement]
      | none => exact ⟨e, e, w', rfl, rfl, by simp [hrollback]⟩
    | none =>
      refine .inr ⟨w', rfl, ?_⟩
      cases hcommit : db.commit w'.sent with
      | some e => exact .inl ⟨e, rfl, by simp [hcommit]⟩
      | none => exact .inr ⟨rfl, by simp [hcommit]⟩

/-! ### Rejected statements -/

/-- An error that `attributeTo` gives to statement `i`. -/
def Err.Names (e : Err) (i : ℕ) : Prop :=
  e.asStatement = some (i : ℤ) ∨ e.asStatement = none ∧ e.asUnsupported = false

theorem asStatement_attributeTo_iff {e : Err} {sql : String} :
  (attributeTo e i sql).asStatement = some (i : ℤ) ↔ e.Names i
  := by
  unfold attributeTo Err.Names
  cases hstatement : e.asStatement with
  | some index => simp [hstatement]
  | none => cases hunsupported : e.asUnsupported <;> simp [hstatement, Err.asStatement]

theorem Err.names_db (e i : ℕ) :
  (Err.db e).Names i
  := .inr ⟨rfl, rfl⟩

/-- The rejection of statement `i`, answered with `rows` if it was run for them, does not end in
its callback: a callback for rows returns an error that is given to the statement, or reads the
rows to their end, and one for the first row returns such an error. -/
def QueuedQuery.PassesOn (q : QueuedQuery ρ) (rows : Except Err (RowSet ρ)) (called : List ℕ)
    (i : ℕ) : Prop :=
  match q.fn, rows with
  | .none, _ | .exec _, _ | .query _, .error _ => True
  | .query fn, .ok rs =>
    match fn called rs with
    | (some e, _) => e.Names i
    | (none, n) => rs.rows.length < n
  | .queryRow fn, rows => ∃ e, (fn called).tells rows = some e ∧ e.Names i

/-- Of the statements from `i` on, after the callbacks `called`, each one that is reached and
rejected has a callback that passes this on. -/
def Surfaces (db : Db ρ) : ℕ → List (QueuedQuery ρ) → List ℕ → Prop
  | _, [], _ => True
  | i, q :: qs, called =>
    let (err, calls) := q.tells (db.tag (range i) i) (db.rows (range i) i) called
    (db.fate (range i) called i q = .rejected → q.PassesOn (db.rows (range i) i) called i)
      ∧ (err = none → Surfaces db (i + 1) qs (if calls then called ++ [i] else called))

theorem tells_rejected {sent called : List ℕ} {q : QueuedQuery ρ}
    (h : db.fate sent called i q = .rejected) :
  (∃ e, (q.tells (db.tag sent i) (db.rows sent i) called).1 = some e ∧ e.Names i)
    ↔ q.PassesOn (db.rows sent i) called i
  := by
  unfold Db.fate at h
  unfold QueuedQuery.tells QueuedQuery.PassesOn
  cases hfn : q.fn with
  | none =>
    simp only [hfn] at h
    cases hexec : db.exec sent i with
    | ok r => simp [hexec] at h
    | error e => simp [Db.tag, hexec, Err.names_db]
  | exec fn =>
    simp only [hfn] at h
    cases hexec : db.exec sent i with
    | ok r => simp [hexec] at h
    | error e => simp [Db.tag, hexec, Err.names_db]
  | query fn =>
    simp only [hfn] at h
    cases hquery : db.query sent i with
    | error e => simp [Db.rows, hquery, Err.names_db]
    | ok rs =>
      simp only [hquery] at h
      obtain ⟨e, hlate⟩ : ∃ e, rs.late = some e := by
        apply Option.isSome_iff_exists.mp
        unfold Db.readFate at h
        grind
      simp only [Db.rows, hquery]
      rcases fn called rs with ⟨_ | e', n⟩
      · simp [RowSet.err, hlate, Err.names_db]
      · simp
  | queryRow fn => rfl

/-- The statements below `i` have been sent, and none rejected. -/
structure Clear (i : ℕ) (w : World) : Prop where
  sent_eq : w.sent = range i
  rejected_eq : w.rejected = []

theorem Ran.mem_rejected {j : ℕ} (h : Ran i w w') (hw : Clear i w) (hj : j ∈ w'.rejected) :
  j = i
  := by
  rcases h.outcome with ⟨hrej, -⟩ | ⟨hrej, -⟩
  · simpa [hrej, hw.rejected_eq] using hj
  · simp [hrej, hw.rejected_eq] at hj

theorem Ran.sent_le {j : ℕ} (h : Ran i w w') (hw : Clear i w) (hj : j ∈ w'.sent) :
  j ≤ i
  := by
  rw [h.sent_eq, hw.sent_eq, ← range_succ] at hj
  exact Nat.le_of_lt_succ (mem_range.mp hj)

theorem Ran.clear (h : Ran i w w') (hw : Clear i w) (hi : i ∉ w'.rejected) :
  Clear (i + 1) w'
  := by
  refine ⟨by rw [h.sent_eq, hw.sent_eq, range_succ], ?_⟩
  apply eq_nil_iff_forall_not_mem.mpr
  intro j hj
  exact hi (h.mem_rejected hw hj ▸ hj)

theorem surfaces_cons_iff {q : QueuedQuery ρ} (hw : Clear i w) :
  Surfaces db i (q :: qs) w.called
    ↔ (i ∈ (q.report (seqResults db) i w).2.rejected →
          ∃ e, (q.report (seqResults db) i w).1 = some e
            ∧ (attributeTo e i q.sql).asStatement = some (i : ℤ))
      ∧ ((q.report (seqResults db) i w).1 = none →
          Surfaces db (i + 1) qs (q.report (seqResults db) i w).2.called)
  := by
  have hrejected : ∀ calls fate, i ∈ (w.ran i calls fate).rejected ↔ fate = .rejected := by
    intro calls fate
    have hnone := hw.rejected_eq
    cases fate <;> cases calls <;> cases htx : w.tx <;>
      simp [World.ran, World.meets, World.reject, World.apply, World.send, World.call, hnone, htx]
  rw [report_seq, hw.sent_eq]
  simp only [Surfaces, hrejected, asStatement_attributeTo_iff, World.called_ran]
  refine and_congr (forall_congr' fun hfate => ?_) Iff.rfl
  exact (tells_rejected hfate).symm

theorem Surfaces.drive {k : ℕ} (h : Surfaces db i qs w.called) (hw : Clear i w)
    (hk : k ∈ (drive (seqResults db) i qs w).2.rejected) :
  (∃ e, (drive (seqResults db) i qs w).1 = some e ∧ e.asStatement = some (k : ℤ))
    ∧ ∀ j ∈ (drive (seqResults db) i qs w).2.sent, j ≤ k
  := by
  induction qs generalizing i w with
  | nil => simp [SqlBatch.drive, seqResults, hw.rejected_eq] at hk
  | cons q qs ih =>
    have hran := ran_report db q i w
    obtain ⟨hreport, hrest⟩ := (surfaces_cons_iff hw).mp h
    rw [SqlBatch.drive] at hk ⊢
    generalize q.report (seqResults db) i w = r at hran hreport hrest hk ⊢
    obtain ⟨err, w'⟩ := r
    cases err with
    | some e =>
      obtain rfl := hran.mem_rejected hw hk
      obtain ⟨e', he, hnames⟩ := hreport hk
      cases he
      exact ⟨⟨_, rfl, hnames⟩, fun j hj => hran.sent_le hw hj⟩
    | none =>
      refine ih (hrest rfl) (hran.clear hw fun hi => ?_) hk
      obtain ⟨e, he, -⟩ := hreport hi
      cases he

variable {b : List (QueuedQuery ρ)} {entry : Entry ρ} {name : String}

/-- A database that rejects one statement. -/
def rejecting (k : ℕ) : Db ℕ where
  lazy := false
  exec _ i := if i = k then .error 19 else .ok ⟨.ok 1, .ok 1⟩
  query _ i := if i = k then .error 19 else .ok ⟨[7], none, none⟩
  beginTx := none
  commit _ := none
  rollback _ := none

/-- Three inserts. -/
def inserts : List (QueuedQuery ℕ) :=
  List.replicate 3 ⟨"INSERT INTO t(a) VALUES (1)", .none⟩

end SqlBatch
