import Mathlib.Data.Int.Notation
import Mathlib.Data.List.Basic

/-!
# Running statements for their effect

`Exec` runs a text of SQL through three calls of SQLite: it compiles the first statement of the
text, steps it once, and takes a row as well as the end of the statement for success.  The
connection finalizes its statement, and drops what that returns; a prepared statement stays where
the step left it, until it is used again.

A statement does its work step by step.  What it does is a list of effects of a type `ε`, some
before each row it returns and some at its end.  When it is finished, at its end or by a reset or
finalize before it, its effects are committed, unless the connection is inside an explicit
transaction.  From its first row until then it holds a lock.
-/

namespace Sqlite

variable {ε : Type}

inductive Err where
  /-- `driver.ErrBadConn` -/
  | badConn
  /-- `errors.New` -/
  | text (msg : String)
  /-- the error of a context -/
  | ctx (code : ℕ)
  /-- `*Error` -/
  | sqlite (code : ℕ)
  deriving DecidableEq, Repr

/-! ### SQLite -/

/-- What a statement does to the transaction. -/
inductive Control where
  | none
  | begin
  | commit
  | rollback
  deriving DecidableEq, Repr

/-- A compiled statement. -/
structure Statement (ε : Type) where
  /-- the number of its parameters -/
  params : ℕ
  /-- the rows it returns, by what it does before each -/
  rows : List (List ε)
  /-- what it does after the last row -/
  last : List ε
  control : Control
  /-- the error in place of its end -/
  err : Option ℕ
  /-- the error of a reset or finalize that finishes it at its first row -/
  finish : Option ℕ
  /-- `last_insert_rowid` and `changes` after its first step -/
  result : ℤ × ℤ

/-- A text of SQL, and what SQLite makes of its statements. -/
structure Query (ε : Type) where
  sql : List UInt8
  statements : List (Except ℕ (Statement ε))

structure Conn (ε : Type) where
  /-- whether the connection is open -/
  db : Bool
  /-- whether it is outside an explicit transaction -/
  autocommit : Bool
  /-- the effects in the explicit transaction -/
  tx : List ε
  committed : List ε
  /-- the number of statements that have run to completion -/
  completed : ℕ

/-- A statement with these effects is finished. -/
def Conn.add (c : Conn ε) (es : List ε) : Conn ε :=
  if c.autocommit then { c with committed := c.committed ++ es } else { c with tx := c.tx ++ es }

def Conn.control (c : Conn ε) : Control → Conn ε
  | .none => c
  | .begin => { c with autocommit := false }
  | .commit => { c with autocommit := true, committed := c.committed ++ c.tx, tx := [] }
  | .rollback => { c with autocommit := true, tx := [] }

namespace Statement

/-- The statement runs to completion: it does all that it does, and is finished. -/
def complete (s : Statement ε) (c : Conn ε) : Conn ε :=
  let c := (c.add (s.rows.flatten ++ s.last)).control s.control
  { c with completed := c.completed + 1 }

/-- Behind its first row there is nothing left for the statement to do. -/
def rested (s : Statement ε) : Bool :=
  (s.rows.drop 1).all List.isEmpty && s.last.isEmpty && s.control = .none && s.err.isNone

inductive StepResult where
  | row
  | done
  | error (rc : ℕ)
  deriving DecidableEq, Repr

/-- `sqlite3_step`, of a statement that has been reset.  The last value tells whether the statement
stands at a row. -/
def step (s : Statement ε) (c : Conn ε) : StepResult × Conn ε × Bool :=
  match s.rows, s.err with
  | _ :: _, _ => (.row, c, true)
  | [], some rc => (.error rc, c, false)
  | [], none => (.done, s.complete c, false)

/-- `sqlite3_reset` and `sqlite3_finalize`, of a statement that stands at its first row or has not
been stepped. -/
def halt (s : Statement ε) (row : Bool) (c : Conn ε) : Option ℕ × Conn ε :=
  if row then
    match s.finish with
    | some rc => (some rc, c)
    | none =>
      let c := c.add (s.rows.headD [])
      (none, { c with completed := if s.rested then c.completed + 1 else c.completed })
  else (none, c)

end Statement

/-! ### The driver -/

/-- A context during one call: its error at the checks, and whether the step is interrupted. -/
structure Ctx where
  /-- in `prepareLocked` -/
  atPrepare : Option ℕ
  /-- in `stepLocked` -/
  atStep : Option ℕ
  interrupted : Bool
  /-- in `resultError` -/
  atResult : Option ℕ

def maxSQLLen : ℕ := 1 <<< 20

/-- `SQLITE_INTERRUPT` -/
def interrupt : ℕ := 9

def prepareLocked (db : Bool) (ctx : Option ℕ) (q : Query ε) : Except Err (Statement ε) :=
  if !db then .error .badConn
  else if q.sql.length = 0 ∨ maxSQLLen < q.sql.length ∨ 0 ∈ q.sql then
    .error (.text "sqlite: SQL is empty, too long, or contains NUL")
  else
    match ctx, q.statements with
    | some e, _ => .error (.ctx e)
    | none, .error rc :: _ => .error (.sqlite rc)
    | none, [] => .error (.text "sqlite: SQL did not contain a statement")
    -- the tail of the text is not asked for
    | none, .ok s :: _ => .ok s

/-- `bindLocked`.  An argument is given by the error of binding it. -/
def bindLocked (s : Statement ε) (args : List (Option Err)) : Option Err :=
  let got := args.length
  let want := s.params
  if got ≠ want then some (.text s!"sqlite: got {got} arguments, want {want}")
  else args.findSome? id

def stepLocked (ctx : Ctx) (s : Statement ε) (c : Conn ε) :
    Statement.StepResult × Conn ε × Bool :=
  if ctx.atStep.isSome || ctx.interrupted then (.error interrupt, c, false) else s.step c

def resultError (ctx : Ctx) (rc : ℕ) : Err :=
  match ctx.atResult with
  | some e => if rc = interrupt then .ctx e else .sqlite rc
  | none => .sqlite rc

/-- What `Exec` returns and leaves behind: whether its statement stands at a row. -/
structure Outcome (ε : Type) where
  ret : Except Err (ℤ × ℤ)
  conn : Conn ε
  row : Bool

/-- `conn.ExecContext` -/
def Conn.execContext (c : Conn ε) (ctx : Ctx) (q : Query ε) (args : List (Option Err)) :
    Outcome ε :=
  match prepareLocked c.db ctx.atPrepare q with
  | .error e => ⟨.error e, c, false⟩
  | .ok s =>
    match bindLocked s args with
    | some e => ⟨.error e, (s.halt false c).2, false⟩
    | none =>
      match stepLocked ctx s c with
      | (.error rc, c, row) => ⟨.error (resultError ctx rc), (s.halt row c).2, false⟩
      | (_, c, row) => ⟨.ok s.result, (s.halt row c).2, false⟩

/-- `statement.ExecContext`.  `stmt` is nil once the statement is closed, and `row` tells whether
it still stands at a row of an earlier call. -/
def execContext (stmt : Option (Statement ε)) (row : Bool) (c : Conn ε) (ctx : Ctx)
    (args : List (Option Err)) : Outcome ε :=
  match stmt, c.db with
  | some s, true =>
    let c := (s.halt row c).2
    match bindLocked s args with
    | some e => ⟨.error e, c, false⟩
    | none =>
      match stepLocked ctx s c with
      | (.error rc, c, row) => ⟨.error (resultError ctx rc), c, row⟩
      | (_, c, row) => ⟨.ok s.result, c, row⟩
  | _, _ => ⟨.error .badConn, c, row⟩

/-- The two ways to run a text.  A prepared statement has been compiled before. -/
inductive Level where
  | connection
  | prepared (row : Bool)
  deriving DecidableEq, Repr

/-- `Exec` of a text. -/
def Level.exec (l : Level) (c : Conn ε) (ctx : Ctx) (q : Query ε) (args : List (Option Err)) :
    Outcome ε :=
  match l with
  | .connection => c.execContext ctx q args
  | .prepared row =>
    match prepareLocked true none q with
    | .error e => ⟨.error e, c, false⟩
    | .ok s => execContext (some s) row c ctx args

/-! ### Completion -/

/-- The connection as `Exec` finds it, once a prepared statement has been reset. -/
def Level.start (l : Level) (q : Query ε) (c : Conn ε) : Conn ε :=
  match l, q.statements with
  | .prepared row, .ok s :: _ => (s.halt row c).2
  | _, _ => c

/-- Every statement of the text has run to completion, and nothing holds a lock. -/
structure Completes (q : Query ε) (c c' : Conn ε) (row : Bool) : Prop where
  all : ∃ ss : List (Statement ε), q.statements = ss.map .ok ∧ (∀ s ∈ ss, s.err = none)
    ∧ c' = ss.foldl (fun c s => s.complete c) c
  unlocked : row = false

theorem prepareLocked_ok {db : Bool} {ctx : Option ℕ} {q : Query ε} {s : Statement ε}
    (h : prepareLocked db ctx q = .ok s) :
  ∃ rest, q.statements = .ok s :: rest
  := by
  unfold prepareLocked at h
  split at h
  · cases h
  split at h
  · cases h
  split at h <;> cases h
  rename_i rest hq
  exact ⟨rest, hq⟩

/-- A step that is taken for success. -/
theorem stepLocked_cases (ctx : Ctx) (s : Statement ε) (c : Conn ε) :
  (∃ rc, stepLocked ctx s c = (.error rc, c, false))
    ∨ s.rows = [] ∧ s.err = none ∧ stepLocked ctx s c = (.done, s.complete c, false)
    ∨ s.rows ≠ [] ∧ stepLocked ctx s c = (.row, c, true)
  := by
  unfold stepLocked Statement.step
  split
  · exact .inl ⟨interrupt, rfl⟩
  split
  · rename_i hrows
    exact .inr (.inr ⟨by simp [hrows], rfl⟩)
  · exact .inl ⟨_, rfl⟩
  · rename_i hrows herr
    exact .inr (.inl ⟨hrows, herr, rfl⟩)

/-- What `Exec` has done if it returns no error. -/
theorem exec_ok {l : Level} {c : Conn ε} {ctx : Ctx} {q : Query ε} {args : List (Option Err)}
    {r : ℤ × ℤ} (h : (l.exec c ctx q args).ret = .ok r) :
  ∃ s rest, q.statements = .ok s :: rest
    ∧ (s.rows = [] ∧ s.err = none ∧ (l.exec c ctx q args).conn = s.complete (l.start q c)
        ∧ (l.exec c ctx q args).row = false
      ∨ s.rows ≠ [] ∧ l = .connection ∧ (l.exec c ctx q args).conn = (s.halt true c).2
        ∧ (l.exec c ctx q args).row = false
      ∨ s.rows ≠ [] ∧ l ≠ .connection ∧ (l.exec c ctx q args).row = true)
  := by
  unfold Level.exec at h ⊢
  cases l with
  | connection =>
    unfold Conn.execContext at h ⊢
    cases hprepare : prepareLocked c.db ctx.atPrepare q with
    | error e => simp [hprepare] at h
    | ok s =>
      obtain ⟨rest, hq⟩ := prepareLocked_ok hprepare
      refine ⟨s, rest, hq, ?_⟩
      simp only [hprepare] at h ⊢
      cases hbind : bindLocked s args with
      | some e => simp [hbind] at h
      | none =>
        simp only [hbind] at h ⊢
        rcases stepLocked_cases ctx s c with
          ⟨rc, hstep⟩ | ⟨hrows, herr, hstep⟩ | ⟨hrows, hstep⟩
        · simp [hstep] at h
        · rw [hstep]
          exact .inl ⟨hrows, herr, rfl, rfl⟩
        · rw [hstep]
          exact .inr (.inl ⟨hrows, trivial, rfl, rfl⟩)
  | prepared row =>
    cases hprepare : prepareLocked true none q with
    | error e => simp [hprepare] at h
    | ok s =>
      obtain ⟨rest, hq⟩ := prepareLocked_ok hprepare
      refine ⟨s, rest, hq, ?_⟩
      simp only [hprepare] at h ⊢
      unfold execContext at h ⊢
      cases hdb : c.db with
      | false => simp [hdb] at h
      | true =>
        simp only [hdb] at h ⊢
        cases hbind : bindLocked s args with
        | some e => simp [hbind] at h
        | none =>
          simp only [hbind] at h ⊢
          rcases stepLocked_cases ctx s (s.halt row c).2 with
            ⟨rc, hstep⟩ | ⟨hrows, herr, hstep⟩ | ⟨hrows, hstep⟩
          · simp [hstep] at h
          · have hstart : (Level.prepared row).start q c = (s.halt row c).2 := by
              simp [Level.start, hq]
            rw [hstep, hstart]
            exact .inl ⟨hrows, herr, rfl, rfl⟩
          · rw [hstep]
            exact .inr (.inr ⟨hrows, by simp, rfl⟩)

theorem completed_complete (s : Statement ε) (c : Conn ε) :
  (s.complete c).completed = c.completed + 1
  := by
  unfold Statement.complete Conn.control Conn.add
  cases s.control <;> cases c.autocommit <;> rfl

theorem completed_foldl (ss : List (Statement ε)) (c : Conn ε) :
  (ss.foldl (fun c s => s.complete c) c).completed = c.completed + ss.length
  := by
  induction ss generalizing c with
  | nil => rfl
  | cons s ss ih =>
    rw [List.foldl_cons, ih, completed_complete, List.length_cons]
    omega

theorem completed_halt (s : Statement ε) (c : Conn ε) :
  (s.halt true c).2.completed
    = if s.finish = none ∧ s.rested = true then c.completed + 1 else c.completed
  := by
  have hadd : (c.add (s.rows.headD [])).completed = c.completed := by
    unfold Conn.add
    split <;> rfl
  unfold Statement.halt
  cases s.finish with
  | some rc => simp
  | none =>
    simp only [if_true, true_and]
    rw [hadd]

/-- Finishing a statement that has nothing left to do completes it. -/
theorem halt_rested {s : Statement ε} (c : Conn ε) (hrested : s.rested = true)
    (hfinish : s.finish = none) :
  (s.halt true c).2 = s.complete c
  := by
  have hrest := hrested
  simp only [Statement.rested, Bool.and_eq_true, List.all_eq_true, List.isEmpty_iff,
    decide_eq_true_eq] at hrest
  obtain ⟨⟨⟨hrows, hlast⟩, hcontrol⟩, -⟩ := hrest
  have heffects : s.rows.flatten ++ s.last = s.rows.headD [] := by
    rw [hlast]
    cases hs : s.rows with
    | nil => rfl
    | cons r rs =>
      rw [hs] at hrows
      simpa using hrows
  unfold Statement.halt Statement.complete
  rw [heffects, hcontrol]
  simp [hfinish, hrested, Conn.control]

/-- One step completes the whole text: it has one statement, and that returns no row, or it is the
connection's and has nothing to do behind its first row, where it can be finished. -/
def OneStep (l : Level) (q : Query ε) : Prop :=
  ∃ s, q.statements = [.ok s]
    ∧ (s.rows = [] ∨ l = .connection ∧ s.rested = true ∧ s.finish = none)

/-- An `Exec` that returns no error has completed the text, if and only if one step completes it. -/
theorem exec_completes_iff {l : Level} {c : Conn ε} {ctx : Ctx} {q : Query ε}
    {args : List (Option Err)} {r : ℤ × ℤ} (h : (l.exec c ctx q args).ret = .ok r) :
  Completes q (l.start q c) (l.exec c ctx q args).conn (l.exec c ctx q args).row ↔ OneStep l q
  := by
  obtain ⟨s, rest, hq, hcases⟩ := exec_ok h
  have hstart : l = .connection → l.start q c = c := by
    rintro rfl
    rfl
  constructor
  · rintro ⟨⟨ss, hss, -, hconn⟩, hrow⟩
    have hcount := congrArg Conn.completed hconn
    rw [completed_foldl] at hcount
    -- as many statements have been completed as the text has
    have hone : ss.length = 1 → q.statements = [.ok s] := by
      intro hlen
      obtain ⟨s', rfl⟩ := List.length_eq_one_iff.mp hlen
      rw [hss] at hq
      cases hq
      exact hss
    have hpos : 0 < ss.length := by
      cases ss with
      | nil => simp [hq] at hss
      | cons s' ss => simp
    rcases hcases with ⟨hrows, -, hdone, -⟩ | ⟨-, rfl, hhalt, -⟩ | ⟨-, -, hlocked⟩
    · rw [hdone, completed_complete] at hcount
      exact ⟨s, hone (by omega), .inl hrows⟩
    · rw [hhalt, completed_halt, hstart rfl] at hcount
      by_cases hrested : s.finish = none ∧ s.rested = true
      · rw [if_pos hrested] at hcount
        exact ⟨s, hone (by omega), .inr ⟨rfl, hrested.2, hrested.1⟩⟩
      · rw [if_neg hrested] at hcount
        omega
    · rw [hrow] at hlocked
      cases hlocked
  · rintro ⟨s', hq', hstep⟩
    obtain rfl : s' = s := by
      rw [hq] at hq'
      cases hq'
      rfl
    rcases hcases with ⟨-, herr, hdone, hrow⟩ | ⟨hrows, rfl, hhalt, hrow⟩ | ⟨hrows, hl, -⟩
    · exact ⟨⟨[s'], hq', by simpa using herr, hdone⟩, hrow⟩
    · obtain ⟨-, hrested, hfinish⟩ := hstep.resolve_left hrows
      have herr : s'.err = none := by
        simp only [Statement.rested, Bool.and_eq_true, Option.isNone_iff_eq_none] at hrested
        exact hrested.2
      refine ⟨⟨[s'], hq', by simpa using herr, ?_⟩, hrow⟩
      rw [hhalt, halt_rested c hrested hfinish]
      rfl
    · exact absurd (hstep.resolve_left hrows).1 hl

/-- An insert of one row. -/
def insertOf (id : ℕ) : Statement ℕ where
  params := 0
  rows := []
  last := [id]
  control := .none
  err := none
  finish := none
  result := (id, 1)

def text (sql : String) : List UInt8 := sql.toList.map fun ch => ch.toNat.toUInt8

def oneInsert : Query ℕ := ⟨text "INSERT INTO t(a) VALUES (1)", [.ok (insertOf 1)]⟩

def twoInserts : Query ℕ :=
  ⟨text "INSERT INTO t(a) VALUES (1); INSERT INTO t(a) VALUES (2)",
    [.ok (insertOf 1), .ok (insertOf 2)]⟩

/-- A connection outside a transaction. -/
def idle : Conn ℕ := ⟨true, true, [], [], 0⟩

def background : Ctx := ⟨none, none, false, none⟩

/-- One insert, by a prepared statement. -/
theorem exec_completes_iff_oneInsert :
  ((Level.prepared false).exec idle background oneInsert []).conn.committed = [1] ∧
    (Completes oneInsert ((Level.prepared false).start oneInsert idle)
        ((Level.prepared false).exec idle background oneInsert []).conn
        ((Level.prepared false).exec idle background oneInsert []).row
      ↔ OneStep (.prepared false) oneInsert)
  := ⟨by decide, exec_completes_iff (r := (1, 1)) (by decide)⟩

/-- `Exec` of two inserts returns no error, and the second is not run. -/
theorem exec_drops_tail :
  (Level.connection.exec idle background twoInserts []).ret = .ok (1, 1) ∧
    (Level.connection.exec idle background twoInserts []).conn.committed = [1] ∧
    (Level.connection.exec idle background twoInserts []).conn.completed = 1
  := by decide

end Sqlite
