import Mathlib.Data.Int.Notation
import Mathlib.Data.List.Basic

/-!
# Batches of statements

A batch is a list of statements, each with the callback it was queued with.  `Send` runs it on
one of several paths: the adapter of the driver hands it to the server in one exchange, or the
sequential path runs the statements one at a time, in a transaction of its own.  On each path the
outcome is a `Results`, from which `drive` takes one result after the other and gives it to the
callback of its statement.

Statements are numbered as they were queued.  What happens to them is kept in a `World`: which
have been sent to the database, which it has rejected, whose effects are pending in an open
transaction or committed, and which callbacks have been called.

The database is given by its answers, which may depend on all that was sent to it before, and a
callback by what it does with a result, which may depend on the callbacks called before.  Values
in rows are of a type `ρ` that nothing looks into.
-/

namespace SqlBatch

/-! ### Errors -/

inductive Err where
  /-- an error of the database or of its driver -/
  | db (code : ℕ)
  /-- an error of a callback -/
  | callback (code : ℕ)
  /-- `errors.New` -/
  | text (msg : String)
  /-- `*StatementError` -/
  | statement (index : ℤ) (sql : String) (err : Err)
  /-- `*UnsupportedError` -/
  | unsupported (driver capability hint : String)
  /-- `fmt.Errorf` with `%w` -/
  | wrap (msg : String) (err : Err)
  /-- `errors.Join` -/
  | join (err other : Err)
  deriving DecidableEq, Repr

/-- `sql.ErrNoRows` -/
def Err.noRows : Err := .text "sql: no rows in result set"

/-- `errors.As` for a `*StatementError`, of which it gives the index. -/
def Err.asStatement : Err → Option ℤ
  | .statement index _ _ => some index
  | .wrap _ err => err.asStatement
  | .join err other => err.asStatement <|> other.asStatement
  | _ => none

/-- `errors.As` for a `*UnsupportedError`. -/
def Err.asUnsupported : Err → Bool
  | .unsupported _ _ _ => true
  | .statement _ _ err => err.asUnsupported
  | .wrap _ err => err.asUnsupported
  | .join err other => err.asUnsupported || other.asUnsupported
  | _ => false

/-- `attribute` -/
def attributeTo (err : Err) (i : ℕ) (sql : String) : Err :=
  if err.asStatement.isSome then err
  else if err.asUnsupported then err
  else .statement i sql err

@[simp]
theorem asUnsupported_attributeTo (err : Err) (i : ℕ) (sql : String) :
  (attributeTo err i sql).asUnsupported = err.asUnsupported
  := by
  unfold attributeTo
  split
  · rfl
  split
  · rfl
  · rfl

/-! ### Results -/

structure CommandTag where
  rowsAffected : ℤ
  lastInsertID : ℤ
  hasLastInsertID : Bool
  deriving DecidableEq, Repr

variable {ρ : Type}

/-- The rows of a result, and the error that comes in place of their end, if one does. -/
structure RowSet (ρ : Type) where
  rows : List ρ
  late : Option ℕ
  /-- the error that `Close` returns after the first row -/
  close : Option ℕ

namespace RowSet

/-- `Err`, after `n` calls of `Next`. -/
def err (rs : RowSet ρ) (n : ℕ) : Option Err :=
  if rs.rows.length < n then rs.late.map .db else none

/-- `Scan` of the first row, which closes the rows. -/
def first (rs : RowSet ρ) : Except Err ρ :=
  match rs.rows, rs.late, rs.close with
  | r :: _, _, none => .ok r
  | _ :: _, _, some e => .error (.db e)
  | [], some e, _ => .error (.db e)
  | [], none, _ => .error .noRows

end RowSet

/-- What a callback for the first row does.  The row tells its error when it is scanned, to a
callback that does so. -/
inductive RowFn (ρ : Type) where
  | ignore (err : Option Err)
  | scan (fn : Except Err ρ → Option Err)

/-- The callback of a statement.  The list is of the callbacks called before.  A callback for
rows tells how often it calls `Next`. -/
inductive Callback (ρ : Type) where
  | none
  | exec (fn : List ℕ → CommandTag → Option Err)
  | query (fn : List ℕ → RowSet ρ → Option Err × ℕ)
  | queryRow (fn : List ℕ → RowFn ρ)

structure QueuedQuery (ρ : Type) where
  sql : String
  fn : Callback ρ

def QueuedQuery.wantsRows (q : QueuedQuery ρ) : Bool :=
  match q.fn with
  | .none | .exec _ => false
  | .query _ | .queryRow _ => true

/-! ### The world -/

structure World where
  /-- the statements sent to the database, in order -/
  sent : List ℕ := []
  /-- the callbacks called, in order -/
  called : List ℕ := []
  /-- the statements the database has rejected -/
  rejected : List ℕ := []
  /-- the statements with an effect in the open transaction -/
  pending : List ℕ := []
  /-- the statements whose effect is committed -/
  committed : List ℕ := []
  /-- whether a transaction is open -/
  tx : Bool := false
  deriving DecidableEq, Repr

namespace World

def send (w : World) (i : ℕ) : World := { w with sent := w.sent ++ [i] }

def call (w : World) (i : ℕ) : World := { w with called := w.called ++ [i] }

def reject (w : World) (i : ℕ) : World := { w with rejected := w.rejected ++ [i] }

/-- A statement takes effect. -/
def apply (w : World) (i : ℕ) : World :=
  if w.tx then { w with pending := w.pending ++ [i] }
  else { w with committed := w.committed ++ [i] }

def beginTx (w : World) : World := { w with tx := true, pending := [] }

def commit (w : World) : World :=
  { w with tx := false, committed := w.committed ++ w.pending, pending := [] }

def rollback (w : World) : World := { w with tx := false, pending := [] }

end World

/-! ### Driving the callbacks -/

/-- `Results`.  `next i rs n` is what `n` calls of `Next` on the rows `rs` of statement `i` do. -/
structure Results (ρ : Type) where
  exec : ℕ → World → Except Err CommandTag × World
  query : ℕ → World → Except Err (RowSet ρ) × World
  next : ℕ → RowSet ρ → ℕ → World → World
  close : World → Option Err × World

/-- What `drive` does with the result of statement `i`: the function that `Exec`, `Query` or
`QueryRow` has set, or `Results.Exec` if there is none.  Returns the error. -/
def QueuedQuery.report (q : QueuedQuery ρ) (res : Results ρ) (i : ℕ) (w : World) :
    Option Err × World :=
  match q.fn with
  | .none =>
    match res.exec i w with
    | (.ok _, w) => (none, w)
    | (.error e, w) => (some e, w)
  | .exec fn =>
    match res.exec i w with
    | (.ok ct, w) => (fn w.called ct, w.call i)
    | (.error e, w) => (some e, w)
  | .query fn =>
    match res.query i w with
    | (.ok rs, w) =>
      match fn w.called rs with
      | (some e, n) => (some e, res.next i rs n (w.call i))
      | (none, n) => (rs.err n, res.next i rs n (w.call i))
    | (.error e, w) => (some e, w)
  | .queryRow fn =>
    match res.query i w with
    | (row, w) =>
      match fn w.called, row with
      | .ignore err, _ => (err, w.call i)
      | .scan fn, .ok rs => (fn rs.first, res.next i rs 1 (w.call i))
      | .scan fn, .error e => (fn (.error e), w.call i)

/-- `drive`, from statement `i` on. -/
def drive (res : Results ρ) : ℕ → List (QueuedQuery ρ) → World → Option Err × World
  | _, [], w => res.close w
  | i, q :: qs, w =>
    match q.report res i w with
    | (some e, w) => (some (attributeTo e i q.sql), (res.close w).2)
    | (none, w) => drive res (i + 1) qs w

/-- What every statement of the batch keeps holds when the results are closed. -/
theorem drive_inv {res : Results ρ} {n : ℕ} {P : ℕ → World → Prop}
    (hstep : ∀ i q w, i < n → P i w → P (i + 1) (QueuedQuery.report q res i w).2) {i : ℕ}
    {qs : List (QueuedQuery ρ)} {w : World} (hn : i + qs.length ≤ n) (hw : P i w) :
  ∃ j w', P j w' ∧ (drive res i qs w).2 = (res.close w').2
  := by
  induction qs generalizing i w with
  | nil => exact ⟨i, w, hw, rfl⟩
  | cons q qs ih =>
    rw [List.length_cons] at hn
    have hnext := hstep i q w (by omega) hw
    rw [drive]
    generalize q.report res i w = r at hnext ⊢
    obtain ⟨err, w'⟩ := r
    cases err with
    | some e => exact ⟨i + 1, w', hnext, rfl⟩
    | none => exact ih (by omega) hnext

/-! ### The database -/

/-- What `sql.Result` tells. -/
structure SqlResult where
  rowsAffected : Except ℕ ℤ
  lastInsertId : Except ℕ ℤ

/-- A database, by its answers.  The list is of the statements sent before. -/
structure Db (ρ : Type) where
  /-- whether a query runs only when its first row is asked for -/
  lazy : Bool
  exec : List ℕ → ℕ → Except ℕ SqlResult
  query : List ℕ → ℕ → Except ℕ (RowSet ρ)
  beginTx : Option ℕ
  commit : List ℕ → Option ℕ
  /-- an error other than `sql.ErrTxDone` -/
  rollback : List ℕ → Option ℕ

/-- The database runs statement `i` for its effect. -/
def Db.runExec (db : Db ρ) (i : ℕ) (w : World) : Except ℕ SqlResult × World :=
  match db.exec w.sent i with
  | .ok r => (.ok r, (w.send i).apply i)
  | .error e => (.error e, (w.send i).reject i)

/-- The database runs statement `i` for its rows.  A lazy one does no more than compile it. -/
def Db.runQuery (db : Db ρ) (i : ℕ) (w : World) : Except ℕ (RowSet ρ) × World :=
  match db.query w.sent i with
  | .ok rs =>
    (.ok rs,
      if db.lazy then w.send i
      else if rs.late.isSome then (w.send i).reject i
      else (w.send i).apply i)
  | .error e => (.error e, (w.send i).reject i)

/-- A lazy database runs a query as its rows are asked for. -/
def Db.next (db : Db ρ) (i : ℕ) (rs : RowSet ρ) (n : ℕ) (w : World) : World :=
  if db.lazy ∧ 0 < n then
    if rs.rows.length < n ∧ rs.late.isSome then w.reject i else w.apply i
  else w

/-! ### The sequential path -/

structure Settings where
  transaction : Bool := true
  fallback : Bool := false
  deriving DecidableEq, Repr

/-- `seqResults.Exec` -/
def seqExec (db : Db ρ) (i : ℕ) (w : World) : Except Err CommandTag × World :=
  match db.runExec i w with
  | (.error e, w) => (.error (.db e), w)
  | (.ok r, w) =>
    match r.rowsAffected with
    | .error e => (.error (.db e), w)
    | .ok affected =>
      match r.lastInsertId with
      | .ok id => (.ok ⟨affected, id, true⟩, w)
      | .error _ => (.ok ⟨affected, 0, false⟩, w)

/-- `seqResults.Query` -/
def seqQuery (db : Db ρ) (i : ℕ) (w : World) : Except Err (RowSet ρ) × World :=
  match db.runQuery i w with
  | (.ok rs, w) => (.ok rs, w)
  | (.error e, w) => (.error (.db e), w)

def seqResults (db : Db ρ) : Results ρ where
  exec := seqExec db
  query := seqQuery db
  next := db.next
  close w := (none, w)

def sequential (db : Db ρ) (s : Settings) (b : List (QueuedQuery ρ)) (w : World) :
    Option Err × World :=
  if s.transaction then
    match db.beginTx with
    | some e => (some (.wrap "sqlbatch: opening the batch transaction" (.db e)), w)
    | none =>
      match drive (seqResults db) 0 b w.beginTx with
      | (some e, w) =>
        match db.rollback w.sent with
        | some rb => (some (.join e (.wrap "sqlbatch: rollback" (.db rb))), w.rollback)
        | none => (some e, w.rollback)
      | (none, w) =>
        match db.commit w.sent with
        | some e => (some (.wrap "sqlbatch: committing the batch" (.db e)), w.rollback)
        | none => (none, w.commit)
  else drive (seqResults db) 0 b w

/-! ### Sending -/

def Adapter (ρ : Type) : Type :=
  Settings → List (QueuedQuery ρ) → World → Except Err (Results ρ) × World

/-- What the registry holds for a driver. -/
inductive Entry (ρ : Type) where
  | absent
  | sequential
  | adapter (a : Adapter ρ)

def run (a : Adapter ρ) (s : Settings) (b : List (QueuedQuery ρ)) (w : World) :
    Option Err × World :=
  match a s b w with
  | (.ok res, w) => drive res 0 b w
  | (.error e, w) => (some e, w)

/-- `Send`, to a database whose driver is called `name`.  `conn` is the error of `db.Conn`. -/
def send (db : Db ρ) (name : String) (conn : Option Err) (entry : Entry ρ) (s : Settings)
    (b : List (QueuedQuery ρ)) : Option Err × World :=
  if b = [] then (none, {})
  else
    match entry, s.fallback, conn with
    | .absent, false, _ =>
      (some (.unsupported name "batch"
        "import the driver package that registers an adapter, or pass WithFallback"), {})
    | _, _, some e => (some e, {})
    | .absent, true, none => sequential db s b {}
    | .sequential, _, none => sequential db s b {}
    | .adapter a, fallback, none =>
      match run a s b {} with
      | (some e, w) => if fallback && e.asUnsupported then sequential db s b w else (some e, w)
      | (none, w) => (none, w)

end SqlBatch
