import TinyGoDriver.Go.Triple

/-!
# Reading through Schannel

Schannel transforms buffers, and `sspibridge.c` moves the bytes between them: what comes from the
socket is collected in `enc`, from which `DecryptMessage` takes one record after the other, and what
of a record the caller has no room for is kept in `dec`.

What is documented of `DecryptMessage` and `InitializeSecurityContext` is a `Sspi`: they take whole
records from the beginning of the buffer, say how many bytes behind these are left over, and ask for
more if the buffer does not begin with a whole record.  Everything else about them is left open.
-/

namespace Schannel

open GoRt

/-! ### Records -/

/-- The length of a record, header included, from its header. -/
def recordLength : List UInt8 → Option ℕ
  | _ :: _ :: _ :: h :: l :: _ => some (5 + 256 * h.toNat + l.toNat)
  | _ => none

/-- The bytes begin with a whole record. -/
def Complete (l : List UInt8) : Prop := ∃ n, recordLength l = some n ∧ n ≤ l.length

/-- The bytes are whole records. -/
inductive Whole : List UInt8 → Prop where
  | nil : Whole []
  | record {r l : List UInt8} (hr : recordLength r = some r.length) (hl : Whole l) : Whole (r ++ l)

theorem recordLength_append {r : List UInt8} {n : ℕ} (h : recordLength r = some n)
    (l : List UInt8) :
  recordLength (r ++ l) = some n
  := by
  match r, h with
  | _ :: _ :: _ :: _ :: _ :: _, h => exact h

theorem Whole.complete {l : List UInt8} (h : Whole l) (hne : l ≠ []) :
  Complete l
  := by
  cases h with
  | nil => exact absurd rfl hne
  | @record r l hr _ =>
    refine ⟨r.length, recordLength_append hr l, ?_⟩
    rw [List.length_append]
    omega

theorem Whole.append {a b : List UInt8} (ha : Whole a) (hb : Whole b) :
  Whole (a ++ b)
  := by
  induction ha with
  | nil => exact hb
  | record hr _ ih =>
    rw [List.append_assoc]
    exact .record hr ih

/-- What follows whole records in whole records. -/
theorem Whole.of_append {a b : List UInt8} (ha : Whole a) (h : Whole (a ++ b)) :
  Whole b
  := by
  induction ha with
  | nil => exact h
  | @record r a hr _ ih =>
    apply ih
    rw [List.append_assoc] at h
    generalize hl : r ++ (a ++ b) = l at h
    cases h with
    | nil =>
      have hnil : r = [] := (List.append_eq_nil_iff.mp hl).1
      rw [hnil] at hr
      simp [recordLength] at hr
    | @record r' l' hr' hl' =>
      have hlen := recordLength_append hr (a ++ b)
      rw [hl, recordLength_append hr' l', Option.some.injEq] at hlen
      rw [(List.append_inj hl hlen.symm).2]
      exact hl'

/-! ### The security package -/

/-- What `DecryptMessage` says of a record that it has decrypted. -/
inductive Decrypted where
  /-- `SEC_E_OK` -/
  | ok
  /-- `SEC_I_RENEGOTIATE` -/
  | renegotiate
  /-- `SEC_I_CONTEXT_EXPIRED`: the peer sent close_notify -/
  | contextExpired
  deriving DecidableEq, Repr

/-- What `DecryptMessage` returns. -/
inductive DecryptResult where
  /-- the content of a record, and how many bytes of the buffer are left over -/
  | done (status : Decrypted) (data : List UInt8) (extra : ℕ)
  /-- `SEC_E_INCOMPLETE_MESSAGE` -/
  | incompleteMessage
  | failed (status : ℕ)
  deriving DecidableEq, Repr

inductive InitStatus where
  /-- `SEC_E_OK` -/
  | ok
  /-- `SEC_I_CONTINUE_NEEDED` -/
  | continueNeeded
  /-- `SEC_I_INCOMPLETE_CREDENTIALS` -/
  | incompleteCredentials
  | failed (status : ℕ)
  deriving DecidableEq, Repr

/-- What `InitializeSecurityContext` returns: also whether there is a token for the peer. -/
inductive InitResult where
  | done (status : InitStatus) (token : Bool) (extra : ℕ)
  /-- `SEC_E_INCOMPLETE_MESSAGE` -/
  | incompleteMessage
  deriving DecidableEq, Repr

/-- The calls of the security package.  The flag of `initializeSecurityContext` is
`ISC_REQ_USE_SUPPLIED_CREDS`. -/
structure Sspi (Ctx : Type) where
  decryptMessage : Ctx → List UInt8 → DecryptResult × Ctx
  initializeSecurityContext : Ctx → Bool → List UInt8 → InitResult × Ctx
  /-- The data lies in the buffer before what is left over, and whole records are taken. -/
  decrypt_done : ∀ ctx input status data extra,
    (decryptMessage ctx input).1 = .done status data extra →
      data.length + extra ≤ input.length ∧ Whole (input.take (input.length - extra))
        ∧ (status ≠ .renegotiate → extra < input.length)
  decrypt_incomplete : ∀ ctx input,
    (decryptMessage ctx input).1 = .incompleteMessage → ¬ Complete input
  init_incomplete : ∀ ctx supplied input,
    (initializeSecurityContext ctx supplied input).1 = .incompleteMessage → ¬ Complete input
  /-- Unless the handshake fails, whole records are taken, and at least one. -/
  init_done : ∀ ctx supplied input status token extra,
    (initializeSecurityContext ctx supplied input).1 = .done status token extra →
      extra ≤ input.length ∧ ((∀ code, status ≠ .failed code) →
        extra < input.length ∧ Whole (input.take (input.length - extra)))

/-! ### The connection -/

/-- What the next `recv` finds. -/
inductive Arrival where
  /-- bytes have arrived, at least one -/
  | bytes (b : UInt8) (l : List UInt8)
  /-- the peer has closed the connection -/
  | closed
  /-- the deadline passes -/
  | timeout
  | failed
  deriving DecidableEq, Repr

/-- Errors.  `blocked` is not one that is returned: `recv` still waits. -/
inductive Err where
  /-- `HTTPS_SC_ERR_TIMEOUT` -/
  | timeout
  /-- `HTTPS_SC_ERR_IO` -/
  | io (status : ℕ)
  /-- `HTTPS_SC_ERR_ALLOC` -/
  | alloc
  /-- `HTTPS_SC_ERR_HANDSHAKE` -/
  | handshake (status : ℕ)
  | blocked
  deriving DecidableEq, Repr

/-- The socket and the security package, with the history of what they have been given and what they
have returned. -/
structure World (Ctx : Type) where
  ctx : Ctx
  arrivals : List Arrival
  /-- how the next calls of `sock_send_all` end -/
  sends : List (Option Err)
  /-- what `recv` has returned -/
  received : List UInt8
  /-- what the security package has taken -/
  consumed : List UInt8
  /-- what it has decrypted -/
  decrypted : List UInt8
  /-- whether it has reported close_notify -/
  closeNotify : Bool
  /-- whether `recv` has reported the end of the stream -/
  ended : Bool
  /-- whether a handshake has failed -/
  broken : Bool
  deriving DecidableEq

/-- `https_sc`: `enc` and `dec` are the filled parts of the two buffers. -/
structure Conn (Ctx : Type) extends World Ctx where
  enc : List UInt8
  encCap : ℕ
  dec : List UInt8
  decCap : ℕ
  decOff : ℕ
  eof : Bool
  deriving DecidableEq

/-- `SC_ENC_INITIAL` -/
def encInitial : ℕ := 32768

/-- `SC_ENC_MAX` -/
def encMax : ℕ := 512 * 1024

abbrev ConnM (Ctx : Type) := GoM Err (Conn Ctx)

variable {Ctx : Type}

/-- Bytes that a `recv` has left behind. -/
def putBack (l : List UInt8) (rest : List Arrival) : List Arrival :=
  match l with
  | [] => rest
  | b :: l => .bytes b l :: rest

/-- `sock_recv` into a buffer of `len` bytes; no bytes at the end of the stream. -/
def sockRecv (len : ℕ) : ConnM Ctx (List UInt8) := fun s =>
  match s.arrivals with
  | [] => .error (.fail .blocked) s
  | .closed :: _ => .ok [] { s with eof := true, ended := true }
  | .timeout :: rest => .error (.fail .timeout) { s with arrivals := rest }
  | .failed :: rest => .error (.fail (.io 0)) { s with arrivals := rest }
  | .bytes b l :: rest =>
    .ok ((b :: l).take len)
      { s with
        arrivals := putBack ((b :: l).drop len) rest
        received := s.received ++ (b :: l).take len }

/-- `sock_send_all` -/
def sockSendAll : ConnM Ctx (Option Err) := fun s =>
  match s.sends with
  | [] => .ok none s
  | e :: rest => .ok e { s with sends := rest }

/-- The doubling loop of `grow`, of at most `fuel` rounds. -/
def double (want : ℕ) : ℕ → ℕ → ℕ
  | 0, cap => cap
  | fuel + 1, cap => if cap < want then double want fuel (2 * cap) else cap

/-- `grow`: the new capacity. -/
def grow (cap want limit : ℕ) : Option ℕ :=
  if want ≤ cap then some cap
  else if limit < want then none
  else some (min (double want want (if 0 < cap then cap else 1024)) limit)

/-- Doubling `enc` if it is full. -/
def growEnc : ConnM Ctx Unit := do
  let s ← get
  if s.encCap ≤ s.enc.length then
    match grow s.encCap (s.encCap * 2) encMax with
    | none => GoM.fail .alloc
    | some cap => modify fun s => { s with encCap := cap }
  else
    pure ()

/-- The security package has taken all but the last `extra` bytes of `enc`. -/
def consume (extra : ℕ) : ConnM Ctx Unit :=
  modify fun s =>
    { s with
      consumed := s.consumed ++ s.enc.take (s.enc.length - extra)
      enc := s.enc.drop (s.enc.length - extra) }

/-! ### The handshake -/

/-- Reading more input for the handshake. -/
def handshakeRead : ConnM Ctx Unit := do
  growEnc
  let s ← get
  let l ← sockRecv (s.encCap - s.enc.length)
  if l = [] then
    -- the peer hung up
    GoM.fail (.handshake 0)
  else
    modify fun s => { s with enc := s.enc ++ l }

def handshakeInput (needRead : Bool) : ConnM Ctx Unit :=
  if needRead then handshakeRead else pure ()

/-- Sending the token.  It does not matter whether it arrives if the handshake has failed. -/
def sendToken (status : InitStatus) (token : Bool) : ConnM Ctx Unit :=
  if token then do
    let sent ← sockSendAll
    match sent with
    | none => pure ()
    | some e =>
      if status = .ok ∨ status = .continueNeeded then GoM.fail e else pure ()
  else
    pure ()

/-- The loop of `do_handshake`, of at most `fuel` rounds. -/
def handshakeLoop (sspi : Sspi Ctx) : ℕ → Bool → Bool → ConnM Ctx Unit
  | 0, _, _ => fun s => .error .diverge s
  | fuel + 1, needRead, retriedCreds => do
    handshakeInput needRead
    let s ← get
    modify fun s' =>
      { s' with ctx := (sspi.initializeSecurityContext s.ctx retriedCreds s.enc).2 }
    match (sspi.initializeSecurityContext s.ctx retriedCreds s.enc).1 with
    | .incompleteMessage => do
      growEnc
      handshakeLoop sspi fuel true retriedCreds
    | .done status token extra => do
      sendToken status token
      if status = .incompleteCredentials ∧ retriedCreds = false then
        handshakeLoop sspi fuel false true
      else do
        consume extra
        match status with
        | .ok => pure ()
        | .continueNeeded => do
          let s ← get
          handshakeLoop sspi fuel s.enc.isEmpty retriedCreds
        | .incompleteCredentials => do
          modify fun s => { s with broken := true }
          GoM.fail (.handshake 0)
        | .failed code => do
          modify fun s => { s with broken := true }
          GoM.fail (.handshake code)

/-- How much the next arrivals can still give, each byte counted twice. -/
def pending : List Arrival → ℕ
  | [] => 0
  | .bytes _ l :: rest => 2 * (l.length + 1) + 1 + pending rest
  | _ :: rest => 1 + pending rest

/-- A bound for the number of rounds of a loop that reads or consumes in each of them. -/
def Conn.left (s : Conn Ctx) : ℕ := s.enc.length + pending s.arrivals

/-- `do_handshake` for a renegotiation. -/
def doHandshake (sspi : Sspi Ctx) : ConnM Ctx Unit := do
  let s ← get
  handshakeLoop sspi (s.left + 3) s.enc.isEmpty false

/-- A connection before its handshake. -/
def Conn.fresh (ctx : Ctx) (arrivals : List Arrival) (sends : List (Option Err)) : Conn Ctx :=
  { ctx := ctx, arrivals := arrivals, sends := sends, received := [], consumed := []
    decrypted := [], closeNotify := false, ended := false, broken := false
    enc := [], encCap := encInitial, dec := [], decCap := 0, decOff := 0, eof := false }

/-- `https_sc_handshake` from the first token on, which has been made. -/
def httpsScHandshake (sspi : Sspi Ctx) : ConnM Ctx Unit := do
  let sent ← sockSendAll
  match sent with
  | some e => GoM.fail e
  | none => do
    let s ← get
    handshakeLoop sspi (s.left + 3) true false

/-! ### Reading -/

/-- `stash_plaintext` -/
def stashPlaintext (data : List UInt8) : ConnM Ctx Unit := do
  if data = [] then pure ()
  else do
    -- compact first
    modify fun s => { s with dec := s.dec.drop s.decOff, decOff := 0 }
    let s ← get
    match grow s.decCap (s.dec.length + data.length) encMax with
    | none => GoM.fail .alloc
    | some cap => modify fun s => { s with dec := s.dec ++ data, decCap := cap }

/-- `take_plaintext` -/
def takePlaintext (len : ℕ) : ConnM Ctx (List UInt8) := do
  let s ← get
  if s.dec.length ≤ s.decOff then
    pure []
  else if s.decOff + min (s.dec.length - s.decOff) len = s.dec.length then do
    modify fun s => { s with dec := [], decOff := 0 }
    pure (s.dec.drop s.decOff)
  else do
    modify fun s => { s with decOff := s.decOff + len }
    pure ((s.dec.drop s.decOff).take len)

/-- Copying the content of a record out of `enc`, into the caller's buffer as far as it goes.
`direct` is what has been written to it. -/
def copyOut (len : ℕ) (status : Decrypted) (data direct : List UInt8) : ConnM Ctx (List UInt8) := do
  let s ← get
  if status ≠ .renegotiate ∧ s.dec.length = s.decOff ∧ direct.length < len then do
    stashPlaintext (data.drop (len - direct.length))
    pure (direct ++ data.take (len - direct.length))
  else do
    stashPlaintext data
    pure direct

/-- One attempt to decrypt what is in `enc`: what has been written to the caller's buffer after it,
if a record was decrypted. -/
def decryptOnce (sspi : Sspi Ctx) (len : ℕ) (direct : List UInt8) :
    ConnM Ctx (Option (List UInt8)) := do
  let s ← get
  if s.enc = [] then
    pure none
  else do
    modify fun s' => { s' with ctx := (sspi.decryptMessage s.ctx s.enc).2 }
    match (sspi.decryptMessage s.ctx s.enc).1 with
    | .done status data extra => do
      modify fun s => { s with decrypted := s.decrypted ++ data }
      let direct ← copyOut len status data direct
      consume extra
      match status with
      | .ok => pure (some direct)
      | .contextExpired => do
        modify fun s => { s with eof := true, closeNotify := true }
        pure (some direct)
      | .renegotiate => do
        doHandshake sspi
        pure (some direct)
    | .incompleteMessage => do
      growEnc
      pure none
    | .failed code => GoM.fail (.io code)

/-- Reading from the socket: whether something came. -/
def receive : ConnM Ctx Bool := do
  let s ← get
  if s.eof then pure false
  else do
    let l ← sockRecv (s.encCap - s.enc.length)
    if l = [] then pure false
    else do
      modify fun s => { s with enc := s.enc ++ l }
      pure true

/-- The loop of `https_sc_read`, of at most `fuel` rounds: what has been written to the caller's
buffer. -/
def readLoop (sspi : Sspi Ctx) (len : ℕ) : ℕ → List UInt8 → ConnM Ctx (List UInt8)
  | 0, _ => fun s => .error .diverge s
  | fuel + 1, direct => do
    let decrypted ← decryptOnce sspi len direct
    match decrypted with
    | some direct => do
      let s ← get
      if direct ≠ [] ∨ s.decOff < s.dec.length ∨ s.eof then pure direct
      else readLoop sspi len fuel direct
    | none => do
      let more ← receive
      if more then readLoop sspi len fuel direct else pure direct

/-- `https_sc_read` with a buffer of `len` bytes: what it returns in the buffer. -/
def httpsScRead (sspi : Sspi Ctx) (len : ℕ) : ConnM Ctx (List UInt8) := do
  let s ← get
  if len = 0 then
    pure []
  else if s.decOff < s.dec.length then
    takePlaintext len
  else do
    let direct ← readLoop sspi len (s.left + 1) []
    let taken ← takePlaintext (len - direct.length)
    pure (direct ++ taken)

end Schannel
