import TinyGoDriver.Go.Time

/-!
# The claims of a token against the clock

`validateClaims` and the numbers it compares.  The times of a token are any `int64`, and a number
of seconds near the upper end becomes a time in the past once `time.Unix` has wrapped it.

The main result is `validateClaims_exact_iff`.  A comparison is not that of the exact integers if
the clock lies between a time and what it is wrapped to, or in the last second there is; the outcome
is then wrong, unless another check refuses the token or two such comparisons make up for each
other. -/

namespace Jwt

open GoRt

/-- The claims that are validated; subject, identifier and the raw members are not. -/
structure Claims where
  issuer : List UInt8 := []
  audience : List (List UInt8) := []
  expiresAt : Option Int64 := none
  notBefore : Option Int64 := none
  issuedAt : Option Int64 := none

/-- A token with the type of its header. -/
structure Token where
  type : List UInt8 := []
  claims : Claims

structure VerifyOptions where
  issuer : List UInt8 := []
  audience : List UInt8 := []
  tokenType : List UInt8 := []
  allowMissingExpiration : Bool := false
  allowFutureIssuedAt : Bool := false
  leeway : Int64 := 0

/-- What `ErrInvalidClaims` is wrapped with. -/
inductive InvalidClaims where
  /-- "expiration required" -/
  | expirationRequired
  /-- "expired" -/
  | expired
  /-- "not active" -/
  | notActive
  /-- "issued in future" -/
  | issuedInFuture
  /-- "issuer" -/
  | issuer
  /-- "audience" -/
  | audience
  /-- "token type" -/
  | tokenType
  deriving DecidableEq

/-! ### Numeric dates -/

/-- The loop of `parseInt64`; nineteen digits fit a `uint64`. -/
def digits (b : List UInt8) : Option ℕ :=
  if b = [] ∨ 19 < b.length ∨ b.any (fun c => c < 0x30 || 0x39 < c) then none
  else some (b.foldl (fun n c => n * 10 + (c.toNat - 0x30)) 0)

def parseInt64 (b : List UInt8) : Option Int64 :=
  if b.head? = some 0x2d then
    (digits b.tail).bind fun n => if 2 ^ 63 < n then none else some (-Int64.ofNat n)
  else
    (digits b).bind fun n => if 2 ^ 63 - 1 < n then none else some (Int64.ofNat n)

/-- The date, if there is one; outside, `none` is `ErrMalformed`. -/
def decodeNumericDate (raw : List UInt8) : Option (Option Int64) :=
  if raw = [] then some none else (parseInt64 raw).map some

/-! ### Validation -/

/-- One of the refusals of `validateClaims`. -/
def refuseIf (c : Bool) (e : InvalidClaims) : Except InvalidClaims Unit :=
  if c then .error e else .ok ()

/-- `validateClaims`, where `now` is what `options.Clock` returns, or else `time.Now`. -/
def validateClaims (token : Token) (options : VerifyOptions) (now : Time) :
    Except InvalidClaims Unit := do
  let claims := token.claims
  refuseIf (claims.expiresAt.isNone && !options.allowMissingExpiration) .expirationRequired
  refuseIf (claims.expiresAt.any fun s => !now.before ((Time.unix s).add options.leeway)) .expired
  refuseIf (claims.notBefore.any fun s => (now.add options.leeway).before (.unix s)) .notActive
  refuseIf (!options.allowFutureIssuedAt
    && claims.issuedAt.any fun s => (now.add options.leeway).before (.unix s)) .issuedInFuture
  refuseIf (options.issuer != [] && claims.issuer != options.issuer) .issuer
  refuseIf (options.audience != [] && !claims.audience.contains options.audience) .audience
  refuseIf (options.tokenType != [] && token.type != options.tokenType) .tokenType

/-- The temporal claims in exact nanoseconds. -/
@[mk_iff]
structure Timely (claims : Claims) (options : VerifyOptions) (now : Time) : Prop where
  expiresAt : ∀ s ∈ claims.expiresAt,
    now.unixNano < s.toInt * 1000000000 + options.leeway.toInt
  notBefore : ∀ s ∈ claims.notBefore,
    s.toInt * 1000000000 ≤ now.unixNano + options.leeway.toInt
  issuedAt : options.allowFutureIssuedAt = false → ∀ s ∈ claims.issuedAt,
    s.toInt * 1000000000 ≤ now.unixNano + options.leeway.toInt

/-- What is asked for apart from times. -/
@[mk_iff]
structure Suits (token : Token) (options : VerifyOptions) : Prop where
  expires : token.claims.expiresAt = none → options.allowMissingExpiration = true
  issuer : options.issuer ≠ [] → token.claims.issuer = options.issuer
  audience : options.audience ≠ [] → options.audience ∈ token.claims.audience
  type : options.tokenType ≠ [] → token.type = options.tokenType

/-- The seconds of a claim that `time.Unix` wraps. -/
def Wrapped (s : Int64) : Prop := 2 ^ 63 ≤ s.toInt + Time.unixToInternal.toInt

/-- An end in the future is taken for one in the past: it has been wrapped to before the clock, or
the clock is in the last second and the leeway leads past it. -/
def EndLost (options : VerifyOptions) (now : Time) (s : Int64) : Prop :=
  (Wrapped s ∧ (s.toInt - 2 ^ 64) * 1000000000 + options.leeway.toInt ≤ now.unixNano)
    ∨ ¬ Wrapped s
      ∧ 2 ^ 63 * 1000000000 ≤ (s.toInt + Time.unixToInternal.toInt) * 1000000000
        + options.leeway.toInt
      ∧ (2 ^ 63 - 1) * 1000000000 + options.leeway.toInt % 1000000000 ≤ now.instant

/-- A start in the future is taken for one in the past. -/
def StartLost (options : VerifyOptions) (now : Time) (s : Int64) : Prop :=
  Wrapped s ∧ (s.toInt - 2 ^ 64) * 1000000000 ≤ now.unixNano + options.leeway.toInt
    ∧ now.unixNano + options.leeway.toInt < s.toInt * 1000000000

theorem refuseIf_eq_ok {c : Bool} {e : InvalidClaims} : refuseIf c e = .ok () ↔ c = false := by
  cases c <;> simp [refuseIf]

theorem refuseIf_bind {c : Bool} {e : InvalidClaims} {k : Unit → Except InvalidClaims Unit} :
  (refuseIf c e >>= k) = .ok () ↔ c = false ∧ k () = .ok ()
  := by
  cases c with
  | false | true => simp [refuseIf, bind, Except.bind]

variable {options : VerifyOptions} {now : Time} {s : Int64}

theorem before_expiry_iff (hleeway : 0 ≤ options.leeway) :
  now.before ((Time.unix s).add options.leeway)
    ↔ now.unixNano < s.toInt * 1000000000 + options.leeway.toInt ∧ ¬ EndLost options now s
  := by
  obtain ⟨hext, hnsec⟩ := (Time.unix s).add_spec hleeway
  have hunix := Time.instant_unix s
  have hepoch : Time.unixToInternal.toInt = 62135596800 := by decide
  have hleeway' := options.leeway.toInt_lt
  have hlo := s.le_toInt
  have hhi := s.toInt_lt
  have hnow := now.ext.toInt_lt
  have := now.nonneg
  have := now.lt_second
  rw [Time.before_iff, Time.instant, Time.instant, hext, hnsec, hunix, EndLost, Wrapped,
    Time.unixNano, Time.instant, hepoch]
  split <;> omega

theorem not_before_start_iff (hleeway : 0 ≤ options.leeway) :
  (now.add options.leeway).before (.unix s) = false
    ↔ s.toInt * 1000000000 ≤ now.unixNano + options.leeway.toInt ∨ StartLost options now s
  := by
  obtain ⟨hext, hnsec⟩ := now.add_spec hleeway
  have hunix := Time.instant_unix s
  have hepoch : Time.unixToInternal.toInt = 62135596800 := by decide
  have hlo := s.le_toInt
  have hhi := s.toInt_lt
  rw [← Bool.not_eq_true, Time.before_iff, Time.instant, hext, hnsec, hunix, StartLost, Wrapped,
    Time.unixNano, hepoch]
  split <;> omega

theorem validateClaims_eq_ok_iff {token : Token} (hleeway : 0 ≤ options.leeway) :
  validateClaims token options now = .ok () ↔ Suits token options
    ∧ (∀ s ∈ token.claims.expiresAt,
      now.unixNano < s.toInt * 1000000000 + options.leeway.toInt)
    ∧ (∀ s ∈ token.claims.expiresAt, ¬ EndLost options now s)
    ∧ (∀ s ∈ token.claims.notBefore,
      s.toInt * 1000000000 ≤ now.unixNano + options.leeway.toInt ∨ StartLost options now s)
    ∧ (options.allowFutureIssuedAt = false → ∀ s ∈ token.claims.issuedAt,
      s.toInt * 1000000000 ≤ now.unixNano + options.leeway.toInt ∨ StartLost options now s)
  := by
  simp only [validateClaims, refuseIf_bind, refuseIf_eq_ok, Option.any_eq_false, ← Option.mem_def,
    Bool.not_eq_false', before_expiry_iff hleeway, not_before_start_iff hleeway, forall_and,
    Bool.and_eq_false_imp, suits_iff, Option.isNone_iff_eq_none, bne_iff_ne,
    Bool.not_eq_true', bne_eq_false_iff_eq, List.contains_iff_mem]
  tauto

/-- A token is accepted as the exact times demand if and only if, where no other check refuses it,
an end is lost together with a start. -/
theorem validateClaims_exact_iff (token : Token) (options : VerifyOptions) (now : Time)
    (hleeway : 0 ≤ options.leeway) :
  (validateClaims token options now = .ok ()
      ↔ Timely token.claims options now ∧ Suits token options)
    ↔ (Suits token options
      → (∀ s ∈ token.claims.expiresAt,
        now.unixNano < s.toInt * 1000000000 + options.leeway.toInt)
      → (∀ s ∈ token.claims.notBefore,
        s.toInt * 1000000000 ≤ now.unixNano + options.leeway.toInt ∨ StartLost options now s)
      → (options.allowFutureIssuedAt = false → ∀ s ∈ token.claims.issuedAt,
        s.toInt * 1000000000 ≤ now.unixNano + options.leeway.toInt ∨ StartLost options now s)
      → ((∃ s ∈ token.claims.expiresAt, EndLost options now s)
        ↔ (∃ s ∈ token.claims.notBefore, StartLost options now s)
          ∨ options.allowFutureIssuedAt = false
            ∧ ∃ s ∈ token.claims.issuedAt, StartLost options now s))
  := by
  have hlost : ∀ c : Option Int64, (∃ s ∈ c, StartLost options now s)
      → ¬ ∀ s ∈ c, s.toInt * 1000000000 ≤ now.unixNano + options.leeway.toInt :=
    fun c ⟨s, hs, hlost⟩ h => absurd (h s hs) (not_le.mpr hlost.2.2)
  have hstart : ∀ c : Option Int64, (∀ s ∈ c,
        s.toInt * 1000000000 ≤ now.unixNano + options.leeway.toInt ∨ StartLost options now s)
      ↔ (∀ s ∈ c, s.toInt * 1000000000 ≤ now.unixNano + options.leeway.toInt)
        ∨ ∃ s ∈ c, StartLost options now s := by
    rintro (_ | s) <;> simp
  have hend : (∀ s ∈ token.claims.expiresAt, ¬ EndLost options now s)
      ↔ ¬ ∃ s ∈ token.claims.expiresAt, EndLost options now s := by simp
  rw [validateClaims_eq_ok_iff hleeway, timely_iff, hend, hstart, hstart]
  have hnbf := hlost token.claims.notBefore
  have hiat := hlost token.claims.issuedAt
  -- what is left is propositional
  generalize (∃ s ∈ token.claims.notBefore, StartLost options now s) = nbfLost at *
  generalize (∃ s ∈ token.claims.issuedAt, StartLost options now s) = iatLost at *
  generalize (∃ s ∈ token.claims.expiresAt, EndLost options now s) = expLost at *
  clear hlost hstart hend
  tauto

/-- Within the leeway a token is still accepted, also one from the future if that is allowed. -/
theorem validateClaims_exact_iff_leeway :
  validateClaims ⟨[], { expiresAt := some 100, issuedAt := some Int64.maxValue }⟩
    { leeway := 60000000000, allowFutureIssuedAt := true } (.unix 120) = .ok ()
  := by
  refine ((validateClaims_exact_iff _ _ _ (by decide)).mpr fun _ _ _ _ => ?_).mpr
    ⟨⟨?_, by simp, by simp⟩, ⟨by simp, by simp, by simp, by simp⟩⟩
  · refine iff_of_false ?_ (by simp)
    rintro ⟨_, ⟨⟩, hlost⟩
    revert hlost
    unfold EndLost Wrapped
    decide
  · rintro _ ⟨⟩
    decide

/-- The largest `int64` is a date.  As the end of a token it is in the past, and as its beginning it
is no reason to refuse it. -/
theorem validateClaims_wrapped :
  decodeNumericDate [0x39, 0x32, 0x32, 0x33, 0x33, 0x37, 0x32, 0x30, 0x33, 0x36, 0x38, 0x35, 0x34,
      0x37, 0x37, 0x35, 0x38, 0x30, 0x37] = some (some Int64.maxValue)
    ∧ validateClaims ⟨[], { expiresAt := some Int64.maxValue }⟩ {} (.unix 0) = .error .expired
    ∧ (Time.unix 0).unixNano < Int64.maxValue.toInt * 1000000000
    ∧ validateClaims ⟨[], { notBefore := some Int64.maxValue }⟩ { allowMissingExpiration := true }
      (.unix 0) = .ok ()
  := by decide

end Jwt
