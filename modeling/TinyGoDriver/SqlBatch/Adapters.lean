import TinyGoDriver.SqlBatch.Batch

/-!
# The adapters

The MySQL adapter joins the statements to one request, between `START TRANSACTION` and `COMMIT`,
and the pgx adapter sends them as one pipeline, which the server runs as one implicit
transaction.  Either way the server runs the statements in order, stops at the first that fails,
and is done with the transaction before the first callback is called.

A server is given by its answers in this one exchange.
-/

namespace SqlBatch

open List

variable {ρ : Type} {w : World}

/-- The server runs the statements in order and stops at the first error. -/
def execute (fails : ℕ → Option ℕ) : List ℕ → World → Option ℕ × World
  | [], w => (none, w)
  | i :: is, w =>
    match fails i with
    | some e => (some e, (w.send i).reject i)
    | none => execute fails is ((w.send i).apply i)

theorem apply_of_tx {i : ℕ} (htx : w.tx = true) :
  (w.send i).apply i = { w with sent := w.sent ++ [i], pending := w.pending ++ [i] }
  := by
  rw [World.apply, if_pos (show (w.send i).tx = true from htx)]
  rfl

/-- The statements of a request up to the first that fails. -/
def attempted (fails : ℕ → Option ℕ) : List ℕ → List ℕ
  | [] => []
  | i :: is => i :: if (fails i).isSome then [] else attempted fails is

theorem prefix_attempted (fails : ℕ → Option ℕ) (is : List ℕ) :
  attempted fails is <+: is
  := by
  induction is with
  | nil => exact nil_prefix
  | cons i is ih =>
    rw [attempted, prefix_cons_inj]
    split
    · exact nil_prefix
    · exact ih

theorem attempted_append {fails : ℕ → Option ℕ} {l : List ℕ} (h : l.findSome? fails = none)
    (l' : List ℕ) :
  attempted fails (l ++ l') = l ++ attempted fails l'
  := by
  induction l with
  | nil => rfl
  | cons j l ih =>
    rw [findSome?_cons] at h
    cases hfails : fails j with
    | some e => simp [hfails] at h
    | none => simp [attempted, hfails, ih (by simpa [hfails] using h)]

/-- A statement is attempted if those before it succeed. -/
theorem mem_attempted {fails : ℕ → Option ℕ} {i n : ℕ} (hi : i < n)
    (h : (List.range i).findSome? fails = none) :
  i ∈ attempted fails (List.range n)
  := by
  obtain ⟨k, rfl⟩ : ∃ k, n = i + (k + 1) := ⟨n - i - 1, by omega⟩
  rw [range_add, range_succ_eq_map, map_cons, attempted_append h, attempted]
  simp

/-- What the statements of a request do inside a transaction. -/
structure Executed (fails : ℕ → Option ℕ) (is : List ℕ) (w : World) (r : Option ℕ × World) :
    Prop where
  err : r.1 = is.findSome? fails
  tx : r.2.tx = true
  committed : r.2.committed = w.committed
  called : r.2.called = w.called
  pending : r.1 = none → r.2.pending = w.pending ++ is
  sent : r.2.sent = w.sent ++ attempted fails is

theorem executed (fails : ℕ → Option ℕ) (is : List ℕ) (htx : w.tx = true) :
  Executed fails is w (execute fails is w)
  := by
  induction is generalizing w with
  | nil => exact ⟨rfl, htx, rfl, rfl, fun _ => (append_nil _).symm, (append_nil _).symm⟩
  | cons i is ih =>
    rw [execute]
    cases hfails : fails i with
    | some e =>
      refine ⟨by simp [hfails], htx, rfl, rfl, ?_, by simp [attempted, hfails, World.send,
        World.reject]⟩
      rintro ⟨⟩
    | none =>
      rw [apply_of_tx htx]
      obtain ⟨herr, htx', hcommitted, hcalled, hpending, hsent⟩ :=
        ih (w := { w with sent := w.sent ++ [i], pending := w.pending ++ [i] }) htx
      refine ⟨by simpa [hfails] using herr, htx', hcommitted, hcalled, ?_, ?_⟩
      · intro hnone
        simp [hpending hnone]
      · simp [hsent, attempted, hfails]

/-- Results that have all come before the first is asked for. -/
def replay (tag : ℕ → Except Err CommandTag) (rows : ℕ → Except Err (RowSet ρ))
    (err : Option Err) : Results ρ where
  exec i w := (tag i, w)
  query i w := (rows i, w)
  next _ _ _ w := w
  close w := (err, w)

/-! ### MySQL -/

/-- `driver.ErrSkip` -/
def Err.skip : Err := .text "driver: skip fast-path; continue as if unimplemented"

/-- `errors.Is` for `driver.ErrSkip`. -/
def Err.isSkip : Err → Bool
  | .wrap _ err => err.isSkip
  | .statement _ _ err => err.isSkip
  | .join err other => err.isSkip || other.isSkip
  | err => err = .skip

/-- A MySQL connection, and what the server does with the request. -/
structure MySql where
  /-- whether it is a `driver.ExecerContext` -/
  execer : Bool
  /-- the error of `ConvertArgs` for the arguments of a statement -/
  convert : ℕ → Option Err
  hadArgs : Bool
  /-- whether the driver refuses the request with `driver.ErrSkip` -/
  skip : Bool
  beginTx : Option ℕ
  fails : ℕ → Option ℕ
  commit : Option ℕ
  rollback : Option ℕ
  /-- whether the text of an error has `Error 1064` -/
  syntaxError : ℕ → Bool
  /-- `AllRowsAffected` and `AllLastInsertIds`, of a result that has them -/
  perStatement : Option (List (ℤ × ℤ))

namespace MySql

def backend : String := "tinygomysql"

/-- `unicode.IsSpace` -/
def isSpace (c : Char) : Bool :=
  let n := c.toNat
  (9 ≤ n && n ≤ 13) || n = 0x20 || n = 0x85 || n = 0xA0 || n = 0x1680
    || (0x2000 ≤ n && n ≤ 0x200A) || n = 0x2028 || n = 0x2029 || n = 0x202F || n = 0x205F
    || n = 0x3000

/-- What `sendBatch` checks of statement `i` before it is joined to the request. -/
def check (my : MySql) (i : ℕ) (q : QueuedQuery ρ) : Option Err :=
  if q.wantsRows then
    some (.unsupported backend "query in a batch"
      "queue only statements read through Exec, or run the read separately")
  else if q.sql.toList.all isSpace then some (.text s!"sqlbatch: statement {i} is empty")
  else (my.convert i).map (.statement i q.sql)

def checks (my : MySql) : ℕ → List (QueuedQuery ρ) → Option Err
  | _, [] => none
  | i, q :: qs => my.check i q <|> my.checks (i + 1) qs

/-- `ExecContext`, for the joined statements. -/
def exec (my : MySql) (transaction : Bool) (n : ℕ) (w : World) : Option Err × World :=
  if my.skip then (some .skip, w)
  else if transaction then
    match my.beginTx with
    | some e => (some (.db e), w)
    | none =>
      match execute my.fails (List.range n) w.beginTx with
      | (some e, w) => (some (.db e), w)
      | (none, w) =>
        match my.commit with
        | some e => (some (.db e), w)
        | none => (none, w.commit)
  else
    match execute my.fails (List.range n) w with
    | (some e, w) => (some (.db e), w)
    | (none, w) => (none, w)

/-- Whether the text of an error has `Error 1064`. -/
def isSyntaxError (my : MySql) : Err → Bool
  | .db e => my.syntaxError e
  | .wrap _ err => my.isSyntaxError err
  | .join err other => my.isSyntaxError err || my.isSyntaxError other
  | _ => false

def batchError (my : MySql) (err : Err) : Err :=
  if err.isSkip then
    .unsupported backend "batch with these settings"
      (if my.hadArgs then
        "set interpolateParams=true in the DSN (a multi-statement batch cannot be prepared); "
          ++ "or the batch exceeds max_allowed_packet; "
          ++ "or an argument has a type the driver cannot inline"
      else "the batch may exceed max_allowed_packet")
  else if my.isSyntaxError err then
    .statement (-1) ""
      (.wrap "(set multiStatements=true in the DSN if the syntax is valid)" err)
  else .statement (-1) "" err

def split (perStatement : Option (List (ℤ × ℤ))) (wrapped : Bool) (want : ℕ) :
    Except Err (List (ℤ × ℤ)) :=
  match perStatement with
  | none =>
    .error (.unsupported backend "per-statement results"
      "the driver's Result does not report AllRowsAffected")
  | some rs =>
    let n := rs.length
    if wrapped && n < 2 then
      .error (.text s!"sqlbatch: mysql returned {n} results for a wrapped batch")
    else
      let rs := if wrapped then (rs.drop 1).dropLast else rs
      let n := rs.length
      if n ≠ want then
        .error (.text s!"sqlbatch: mysql returned {n} results for {want} statements")
      else .ok rs

/-- `Exec`, for statement `i`. -/
def tag (rs : List (ℤ × ℤ)) (i : ℕ) : Except Err CommandTag :=
  match rs[i]? with
  | some (affected, insertID) => .ok ⟨affected, insertID, true⟩
  | none => .error (.text "sqlbatch: no more results in batch")

/-- `Query` -/
def rows (_ : ℕ) : Except Err (RowSet ρ) := .error (.unsupported backend "query in a batch" "")

def results (rs : List (ℤ × ℤ)) : Results ρ := replay (tag rs) rows none

/-- What `sendBatch` does after an error of the request. -/
def abandon (my : MySql) (transaction : Bool) (err : Err) (w : World) : Err × World :=
  if transaction then
    match my.rollback with
    | some rb => (my.batchError (.join err (.wrap "rollback" (.db rb))), w)
    | none => (my.batchError err, w.rollback)
  else (my.batchError err, w)

def sendBatch (my : MySql) : Adapter ρ := fun s b w =>
  if my.execer then
    match my.checks 0 b with
    | some e => (.error e, w)
    | none =>
      match my.exec s.transaction b.length w with
      | (some err, w) =>
        let r := my.abandon s.transaction err w
        (.error r.1, r.2)
      | (none, w) =>
        match split my.perStatement s.transaction b.length with
        | .error e => (.error e, w)
        | .ok rs => (.ok (results rs), w)
  else (.error (.unsupported backend "batch" ""), w)

end MySql

/-! ### pgx -/

/-- What the server replies to a statement: an error, or rows and then an error or a command
tag. -/
structure PgxReply (ρ : Type) where
  start : Option ℕ
  rows : List ρ
  late : Option ℕ
  affected : ℤ

def PgxReply.fails (r : PgxReply ρ) : Option ℕ := r.start <|> r.late

/-- A connection, and what the server does with the pipeline. -/
structure Pgx (ρ : Type) where
  /-- whether it is a pgx connection -/
  isPgx : Bool
  reply : ℕ → PgxReply ρ
  commit : Option ℕ

namespace Pgx

def fails (pg : Pgx ρ) (i : ℕ) : Option ℕ := (pg.reply i).fails

/-- The server runs the pipeline, as one transaction. -/
def pipeline (pg : Pgx ρ) (n : ℕ) (w : World) : Option ℕ × World :=
  match execute pg.fails (List.range n) w.beginTx with
  | (some e, w) => (some e, w.rollback)
  | (none, w) =>
    match pg.commit with
    | some e => (some e, w.rollback)
    | none => (none, w.commit)

/-- The reply to statement `i`, read for its tag.  Once a statement has failed, all that is read
gives its error. -/
def tag (pg : Pgx ρ) (i : ℕ) : Except Err CommandTag :=
  match (List.range (i + 1)).findSome? pg.fails with
  | some e => .error (.db e)
  | none => .ok ⟨(pg.reply i).affected, 0, false⟩

/-- The reply to statement `i`, read for its rows. -/
def rows (pg : Pgx ρ) (i : ℕ) : Except Err (RowSet ρ) :=
  match (List.range i).findSome? pg.fails <|> (pg.reply i).start with
  | some e => .error (.db e)
  | none => .ok ⟨(pg.reply i).rows, (pg.reply i).late, (pg.reply i).late⟩

/-- `results`, of a pipeline that has ended in `err`. -/
def results (pg : Pgx ρ) (err : Option ℕ) : Results ρ := replay pg.tag pg.rows (err.map .db)

def sendBatch (pg : Pgx ρ) : Adapter ρ := fun _ b w =>
  if pg.isPgx then
    let r := pg.pipeline b.length w
    (.ok (pg.results r.1), r.2)
  else
    (.error (.unsupported "pgx/stdlib" "batch" "the connection is not a pgx connection"), w)

/-- What the server does with the pipeline. -/
structure Piped (pg : Pgx ρ) (n : ℕ) (w : World) (r : Option ℕ × World) : Prop where
  err : r.1 = ((List.range n).findSome? pg.fails <|> pg.commit)
  called : r.2.called = w.called
  committed : r.2.committed = if r.1 = none then w.committed ++ List.range n else w.committed
  sent : r.2.sent = w.sent ++ attempted pg.fails (List.range n)

theorem piped (pg : Pgx ρ) (n : ℕ) (w : World) :
  Piped pg n w (pg.pipeline n w)
  := by
  obtain ⟨herr, -, hcommitted, hcalled, hpending, hsent⟩ :=
    executed pg.fails (range n) (w := w.beginTx) rfl
  unfold pipeline
  generalize execute pg.fails (range n) w.beginTx = r
    at herr hcommitted hcalled hpending hsent
  obtain ⟨e | e, w'⟩ := r
  · cases hcommit : pg.commit with
    | some e => exact ⟨by simp [← herr, hcommit], hcalled, hcommitted, hsent⟩
    | none =>
      refine ⟨by simp [← herr, hcommit], hcalled, ?_, hsent⟩
      simp only [World.commit, if_true]
      rw [hcommitted, hpending rfl]
      rfl
  · exact ⟨by simp [← herr], hcalled, hcommitted, hsent⟩

end Pgx

end SqlBatch
