import TinyGoDriver.Netdev.WaitFd

/-!
# Reading from a TLS socket

The TLS layer decrypts whole records.  If `Recv` asks for less than a record, the rest stays in the
TLS layer, where the next `Recv` finds it.  But with a deadline `Recv` first waits until the
descriptor is ready, which says nothing about what has been decrypted.

The main result is `recv_rest_iff`: the rest of a record is returned at once if and only if there is
no deadline, or there is more to read from the descriptor already.
-/

namespace Netdev

/-- What comes after the last record. -/
inductive Ending where
  /-- nothing yet -/
  | waiting
  /-- the other side has closed the connection -/
  | closed
  | failed (cause : ℕ)
  deriving DecidableEq

/-- A connection of the TLS layer. -/
structure TlsConn where
  /-- what has been decrypted and not read -/
  input : List UInt8
  /-- the contents of the records that are next -/
  records : List (List UInt8)
  ending : Ending
  deriving DecidableEq

/-- `Read` of the TLS layer: what is returned, if it returns. -/
def TlsConn.read (len : ℕ) (ending : Ending) :
    List UInt8 → List (List UInt8) → Option (Except ℕ (List UInt8) × TlsConn)
  | [], [] =>
    match ending with
    | .waiting => none
    | .closed => some (.ok [], ⟨[], [], ending⟩)
    | .failed cause => some (.error cause, ⟨[], [], ending⟩)
  | [], record :: records => read len ending record records
  | b :: input, records =>
    some (.ok ((b :: input).take len), ⟨(b :: input).drop len, records, ending⟩)

def sysTLSRecv (conn : TlsConn) (len : ℕ) : Option (Except Err (List UInt8) × TlsConn) :=
  match TlsConn.read len conn.ending conn.input conn.records with
  | none => none
  | some (.error cause, conn) => some (.error (.tlsIOError cause), conn)
  | some (.ok bytes, conn) => some (.ok bytes, conn)

/-- `Recv` on a TLS socket. -/
def recv (env : Env) (fd : ℕ) (deadline : Option ℕ) (fuel : ℕ) (conn : TlsConn) (len : ℕ) :
    Option (Except Err (List UInt8) × TlsConn) :=
  if len = 0 then some (.ok [], conn)
  else
    match (waitFD env fd true deadline fuel).result with
    | none => none
    | some (.error err) => some (.error err, conn)
    | some (.ok ()) =>
      match sysTLSRecv conn len with
      | some (.ok [], conn) => some (.error .eof, conn)
      | r => r

variable {conn : TlsConn}

/-- What is left of a record is read first. -/
theorem sysTLSRecv_of_input (hinput : conn.input ≠ []) (len : ℕ) :
  sysTLSRecv conn len
    = some (.ok (conn.input.take len), { conn with input := conn.input.drop len })
  := by
  obtain ⟨input, records, ending⟩ := conn
  cases input with
  | nil => exact absurd rfl hinput
  | cons b input => simp [sysTLSRecv, TlsConn.read]

variable {bytes : List UInt8} {len : ℕ} {deadline : Option ℕ}

/-- What is read is the beginning of a record. -/
theorem TlsConn.read_record {ending : Ending} {input : List UInt8} {records : List (List UInt8)}
    (h : TlsConn.read len ending input records = some (.ok bytes, conn)) (hrest : conn.input ≠ []) :
  bytes ++ conn.input ∈ input :: records
  := by
  induction records generalizing input with
  | nil =>
    cases input with
    | nil =>
      cases ending <;> cases h
      exact absurd rfl hrest
    | cons b input =>
      cases h
      simp
  | cons record records ih =>
    cases input with
    | nil => exact List.mem_cons_of_mem _ (ih h)
    | cons b input =>
      cases h
      simp

theorem take_ne_nil (h : bytes ≠ []) (hlen : len ≠ 0) :
  bytes.take len ≠ []
  := by
  simp [List.take_eq_nil_iff, h, hlen]

/-- After the wait, `Recv` returns what is left of a record. -/
theorem recv_of_input {env : Env} {fd : ℕ} {fuel : ℕ} (hlen : len ≠ 0)
    (hwait : (waitFD env fd true deadline fuel).result = some (.ok ())) (hinput : conn.input ≠ []) :
  recv env fd deadline fuel conn len
    = some (.ok (conn.input.take len), { conn with input := conn.input.drop len })
  := by
  rw [recv, if_neg hlen, hwait]
  dsimp only
  rw [sysTLSRecv_of_input hinput]
  split
  case h_1 heq =>
      obtain ⟨hnil, -⟩ := Prod.mk.inj (Option.some.inj heq)
      exact absurd (Except.ok.inj hnil) (take_ne_nil hinput hlen)
  case h_2 => rfl

/-- What `Recv` returns is the beginning of a record. -/
theorem recv_record {env : Env} {fd : ℕ} {fuel len : ℕ} {conn₀ conn : TlsConn}
    (h : recv env fd deadline fuel conn₀ len = some (.ok bytes, conn)) (hpart : bytes ≠ [])
    (hrest : conn.input ≠ []) :
  bytes ++ conn.input ∈ conn₀.input :: conn₀.records
  := by
  rw [recv] at h
  split at h
  · cases h
    exact absurd rfl hpart
  split at h
  · cases h
  · cases h
  split at h
  · cases h
  rw [sysTLSRecv] at h
  split at h <;> cases h
  rename_i hread
  exact TlsConn.read_record hread hrest

/-- If the descriptor is ready, `select` returns when it is called. -/
theorem outcome_of_ready {ready : Bool → ℕ → ℕ → Prop} {fd now remaining : ℕ} {outcome : Outcome}
    (hfd : fd < fdSetSize) (hready : ready true fd now)
    (h : Answers ready now (selectCall fd true remaining) outcome) :
  outcome = .ready now
  := by
  have hreports := (selectCall_reports hfd true remaining now).mpr hready
  cases outcome with
  | ready t =>
    obtain ⟨hle, -, -, hfirst⟩ := h
    rw [Nat.le_antisymm (Nat.le_of_not_lt fun hlt => hfirst now (Nat.le_refl now) hlt hreports) hle]
  | timedOut => exact absurd hreports (h now (Nat.le_refl now) (Nat.le_add_right ..))
  | failed t errno last => exact absurd hreports (h.2.2.2 now (Nat.le_refl now) h.2.1)

/-- What is left of a record is returned, and no call of `select` has waited. -/
structure Prompt (env : Env) (fd : ℕ) (deadline : Option ℕ) (fuel : ℕ) (conn : TlsConn) (len : ℕ) :
    Prop where
  result : recv env fd deadline fuel conn len
    = some (.ok (conn.input.take len), { conn with input := conn.input.drop len })
  atOnce : deadline ≠ none → env.outcome 0 = .ready (env.now 0)

/-- Part of a record has been returned by a `Recv`.  The next one returns more of it without waiting
if and only if there is no deadline, or the descriptor fits into the set of `select` and is ready
when it is called. -/
theorem recv_rest_iff {env₀ env : Env} {fd fuel₀ fuel len₀ len : ℕ}
    {deadline₀ deadline : Option ℕ} {conn₀ conn : TlsConn}
    {bytes : List UInt8} {ready : Bool → ℕ → ℕ → Prop}
    (hfirst : recv env₀ fd deadline₀ fuel₀ conn₀ len₀ = some (.ok bytes, conn))
    (hpart : bytes ≠ []) (hrest : conn.input ≠ []) (hlen : len ≠ 0)
    (hkernel : ∀ d, deadline = some d → env.now 0 < d
      ∧ Answers ready (env.now 0) (selectCall fd true (timeUntil d (env.now 0))) (env.outcome 0)) :
  bytes ++ conn.input ∈ conn₀.input :: conn₀.records
    ∧ conn.input.take len ≠ []
    ∧ (Prompt env fd deadline (fuel + 1) conn len
      ↔ deadline = none ∨ fd < fdSetSize ∧ ready true fd (env.now 0))
  := by
  refine ⟨recv_record hfirst hpart hrest, take_ne_nil hrest hlen, ?_⟩
  cases deadline with
  | none => exact iff_of_true ⟨recv_of_input hlen rfl hrest, by simp⟩ (.inl rfl)
  | some d =>
    obtain ⟨hahead, hans⟩ := hkernel d rfl
    constructor
    · intro hprompt
      rw [hprompt.atOnce (by simp)] at hans
      obtain ⟨-, -, hreports, -⟩ := hans
      by_cases hfd : fd < fdSetSize
      · exact .inr ⟨hfd, (selectCall_reports hfd ..).mp hreports⟩
      · exact (not_selectCall_reports (Nat.le_of_not_lt hfd) _ _ _ hreports).elim
    · rintro (hnone | ⟨hfd, hready⟩)
      · cases hnone
      have hout := outcome_of_ready hfd hready hans
      have hremaining : timeUntil d (env.now 0) ≠ 0 := by
        simp only [timeUntil]
        omega
      refine ⟨recv_of_input hlen ?_ hrest, fun _ => hout⟩
      rw [waitFD, waitLoop, if_neg hremaining, hout]

/-- A record of two bytes, of which the first is read. -/
def twoBytes : TlsConn := ⟨[], [[1, 2]], .waiting⟩

def secondByte : TlsConn := ⟨[2], [], .waiting⟩

/-- The descriptor is ready all the time. -/
def readable : Env where
  now _ := 1000
  outcome _ := .ready 1000

theorem recv_rest_iff_readable :
  recv readable 3 none 0 twoBytes 1 = some (.ok [1], secondByte)
    ∧ recv readable 3 (some 10000) 1 secondByte 1 = some (.ok [2], ⟨[], [], .waiting⟩)
    ∧ Prompt readable 3 (some 10000) 1 secondByte 1
  := by
  have hfirst : recv readable 3 none 0 twoBytes 1 = some (.ok [1], secondByte) := rfl
  have hkernel : ∀ d, some 10000 = some d → readable.now 0 < d
      ∧ Answers (fun _ _ _ => True) (readable.now 0)
        (selectCall 3 true (timeUntil d (readable.now 0))) (readable.outcome 0) := by
    rintro d ⟨⟩
    refine ⟨by decide, Nat.le_refl 1000, by decide, ?_, fun t h₁ h₂ => ?_⟩
    · exact (selectCall_reports (by decide) ..).mpr trivial
    · exact absurd h₂ (Nat.not_lt.mpr h₁)
  have hprompt : Prompt readable 3 (some 10000) 1 secondByte 1 :=
    (recv_rest_iff hfirst (by decide) (by decide) Nat.one_ne_zero hkernel).2.2.mpr
      (.inr ⟨by decide, trivial⟩)
  exact ⟨hfirst, hprompt.result, hprompt⟩

/-- The second byte of a record has been decrypted, but nothing more comes from the descriptor, and
`Recv` returns at the deadline with nothing. -/
theorem recv_misses_rest :
  recv quiet 3 none 0 twoBytes 1 = some (.ok [1], secondByte)
    ∧ Consistent (fun _ _ _ => False) quiet 3 true 1000000 1000
    ∧ recv quiet 3 (some 1000000) 1000001 secondByte 1 = some (.error .timeout, secondByte)
  := by
  refine ⟨rfl, ⟨fun i _ t _ _ => ?_, ?_, fun _ h => h⟩, rfl⟩
  · rintro ⟨read, fd, -, h⟩
    exact h
  · rintro i t errno last ⟨⟩

end Netdev
