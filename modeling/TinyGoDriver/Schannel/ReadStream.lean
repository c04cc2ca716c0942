import TinyGoDriver.Schannel.Sspi

/-!
# What is read is what was decrypted

`Conn.Inv out s` relates the history of a connection to its buffers, when `out` is what the caller
has been given: what the security package has taken followed by `enc` is what was received, and
`out` followed by the rest of `dec` is what was decrypted.

The main result is `reads_stream`, for any sequence of reads after a handshake.  The end of the
stream is reported only after close_notify or at the end of a record if the stream that was received
consists of whole records.
-/

namespace Schannel

open GoRt List Ends

variable {Ctx : Type} {sspi : Sspi Ctx}

/-- The history and the buffers of a connection. -/
structure Conn.Inv (out : List UInt8) (s : Conn Ctx) : Prop where
  taken : s.consumed ++ s.enc = s.received
  plain : s.decrypted = out ++ s.dec.drop s.decOff
  whole : s.broken = false → Whole s.consumed
  eof : s.eof = true → s.closeNotify = true ∨ s.ended = true
  closed : s.ended = true → (∃ rest, s.arrivals = .closed :: rest)
    ∧ (s.broken = false → ¬ Complete s.enc)
  room : s.enc.length ≤ s.encCap
  cap : 0 < s.encCap ∧ s.encCap ≤ encMax
  off : s.decOff ≤ s.dec.length

/-- The state after a step that leaves `dec` and what has been decrypted as they are. -/
structure Conn.Advances (s s' : Conn Ctx) : Prop where
  dec : s'.dec = s.dec
  decOff : s'.decOff = s.decOff
  eof : s'.eof = s.eof

variable {s : Conn Ctx}

theorem Conn.Advances.trans {t u : Conn Ctx} (h : s.Advances t) (h' : t.Advances u) :
  s.Advances u
  := ⟨h'.dec.trans h.dec, h'.decOff.trans h.decOff, h'.eof.trans h.eof⟩

/-! ### Buffers -/

variable {fuel n extra : ℕ} {l out input : List UInt8}

theorem le_double {want cap : ℕ} (h : want ≤ 2 ^ fuel * cap) :
  want ≤ double want fuel cap ∧ cap ≤ double want fuel cap
  := by
  induction fuel generalizing cap with
  | zero =>
    rw [double]
    omega
  | succ fuel ih =>
    rw [double]
    split
    · have hle : want ≤ 2 ^ fuel * (2 * cap) := by rwa [← Nat.mul_assoc]
      have hnext := ih hle
      omega
    · omega

/-- A buffer that has been grown has the room that was asked for. -/
theorem le_grow {cap want limit cap' : ℕ} (h : grow cap want limit = some cap') :
  want ≤ cap' ∧ cap' ≤ max cap limit
  := by
  rw [grow] at h
  split at h
  · cases h
    omega
  split at h
  · cases h
  cases h
  have hpos : 0 < if 0 < cap then cap else 1024 := by split <;> omega
  have hle : want ≤ 2 ^ want * if 0 < cap then cap else 1024 :=
    le_trans (Nat.lt_two_pow_self).le (Nat.le_mul_of_pos_right _ hpos)
  have hdouble := (le_double hle).1
  omega

theorem growEnc_ends (h : s.Inv out) :
  Ends (fun _ s' => s'.Inv out ∧ s.Advances s' ∧ s'.left = s.left ∧ s'.enc = s.enc
    ∧ s'.ctx = s.ctx ∧ s'.enc.length < s'.encCap) (fun _ s' => s'.Inv out) growEnc s
  := by
  rw [growEnc]
  apply get_bind
  split
  · split
    · exact h
    · rename_i cap hgrow
      obtain ⟨hwant, hmax⟩ := le_grow hgrow
      obtain ⟨hpos, hcap⟩ := h.cap
      have hroom := h.room
      refine ⟨⟨h.taken, h.plain, h.whole, h.eof, h.closed, ?_, ⟨?_, ?_⟩, h.off⟩, ⟨rfl, rfl, rfl⟩,
        rfl, rfl, rfl, ?_⟩
      · change s.enc.length ≤ cap
        omega
      · change 0 < cap
        omega
      · change cap ≤ encMax
        omega
      · change s.enc.length < cap
        omega
  · exact ⟨h, ⟨rfl, rfl, rfl⟩, rfl, rfl, rfl, by omega⟩

/-! ### The socket -/

theorem pending_putBack (l : List UInt8) (rest : List Arrival) :
  pending (putBack l rest) ≤ 2 * l.length + 1 + pending rest
  := by
  cases l with
  | nil =>
    rw [putBack]
    omega
  | cons b l =>
    rw [putBack, pending, length_cons]

/-- What `sock_recv` does with room for at least one byte, when `enc` does not begin with a whole
record. -/
theorem sockRecv_ends (h : s.Inv out) (hroom : s.enc.length < s.encCap) (hpart : ¬ Complete s.enc) :
  Ends (fun l s' => (l = [] ∧ s'.Inv out ∧ s'.eof = true ∧ s'.dec = s.dec ∧ s'.decOff = s.decOff)
      ∨ (l ≠ [] ∧ Conn.Inv out { s' with enc := s'.enc ++ l } ∧ s.Advances s'
        ∧ Conn.left { s' with enc := s'.enc ++ l } < s.left))
    (fun _ s' => s'.Inv out) (sockRecv (s.encCap - s.enc.length)) s
  := by
  have hopen : ∀ a rest, s.arrivals = a :: rest → a ≠ .closed → s.ended = false := by
    intro a rest harrivals ha
    cases hended : s.ended with
    | false => rfl
    | true =>
      obtain ⟨⟨rest', hclosed⟩, -⟩ := h.closed hended
      rw [harrivals, cons.injEq] at hclosed
      exact absurd hclosed.1 ha
  rw [Ends, sockRecv]
  rcases harrivals : s.arrivals with _ | ⟨a, rest⟩
  · exact h
  cases a with
  | timeout | failed =>
    have hended := hopen _ _ harrivals (by simp)
    exact ⟨h.taken, h.plain, h.whole, h.eof, fun h' => absurd (hended.symm.trans h') (by simp),
      h.room, h.cap, h.off⟩
  | closed =>
    exact .inl ⟨rfl, ⟨h.taken, h.plain, h.whole, fun _ => .inr rfl,
      fun _ => ⟨⟨rest, rfl⟩, fun _ => hpart⟩, h.room, h.cap, h.off⟩, rfl, rfl, rfl⟩
  | bytes b l =>
    have hended := hopen _ _ harrivals (by simp)
    have hleft := pending_putBack ((b :: l).drop (s.encCap - s.enc.length)) rest
    have hlen : ((b :: l).take (s.encCap - s.enc.length)).length ≤ s.encCap - s.enc.length :=
      length_take_le _ _
    have hsum := congrArg length (take_append_drop (s.encCap - s.enc.length) (b :: l))
    have hpos : (b :: l).take (s.encCap - s.enc.length) ≠ [] := by
      simp
      omega
    have hone := length_pos_iff.mpr hpos
    dsimp only
    generalize (b :: l).take (s.encCap - s.enc.length) = front at hlen hsum hpos hone ⊢
    rw [length_append, length_cons] at hsum
    refine .inr ⟨hpos, ⟨?_, h.plain, h.whole, h.eof, ?_, ?_, h.cap, h.off⟩, ⟨rfl, rfl, rfl⟩, ?_⟩
    · rw [← append_assoc, h.taken]
    · exact fun h' => absurd (hended.symm.trans h') (by simp)
    · change (s.enc ++ front).length ≤ s.encCap
      rw [length_append]
      omega
    · simp only [Conn.left, harrivals, pending, length_append]
      omega

/-! ### The handshake -/

theorem sockSendAll_ends (h : s.Inv out) :
  Ends (fun _ s' => s'.Inv out ∧ s.Advances s' ∧ s'.left = s.left ∧ s'.enc = s.enc
      ∧ s'.broken = s.broken)
    (fun _ _ => False) sockSendAll s
  := by
  rw [Ends, sockSendAll]
  cases s.sends with
  | nil => exact ⟨h, ⟨rfl, rfl, rfl⟩, rfl, rfl, rfl⟩
  | cons e rest =>
    exact ⟨⟨h.taken, h.plain, h.whole, h.eof, h.closed, h.room, h.cap, h.off⟩, ⟨rfl, rfl, rfl⟩, rfl,
      rfl, rfl⟩

theorem handshakeRead_ends (h : s.Inv out) (hpart : ¬ Complete s.enc) :
  Ends (fun _ s' => s'.Inv out ∧ s.Advances s' ∧ s'.left < s.left) (fun _ s' => s'.Inv out)
    handshakeRead s
  := by
  apply (growEnc_ends h).bind
  rintro - s₁ ⟨h₁, hadv, hleft, henc, -, hroom⟩
  apply get_bind
  apply (sockRecv_ends h₁ hroom (by rwa [henc])).bind
  rintro l s₂ (⟨rfl, h₂, -⟩ | ⟨hl, h₂, hadv₂, hleft₂⟩)
  · exact fail h₂
  · rw [if_neg hl]
    exact ⟨h₂, hadv.trans ⟨hadv₂.dec, hadv₂.decOff, hadv₂.eof⟩, by
      change Conn.left { s₂ with enc := s₂.enc ++ l } < s.left
      omega⟩

/-- Reading if that is needed. -/
theorem handshakeInput_ends (h : s.Inv out) {needRead : Bool}
    (hpart : needRead = true → ¬ Complete s.enc) :
  Ends (fun _ s' => s'.Inv out ∧ s.Advances s' ∧ s'.left + (if needRead then 1 else 0) ≤ s.left)
    (fun _ s' => s'.Inv out) (handshakeInput needRead) s
  := by
  cases needRead with
  | false => exact ⟨h, ⟨rfl, rfl, rfl⟩, le_rfl⟩
  | true =>
    apply (handshakeRead_ends h (hpart rfl)).mono
    · rintro - s' ⟨h', hadv, hleft⟩
      exact ⟨h', hadv, hleft⟩
    · exact fun _ _ h' => h'

/-- A part of the buffer that consists of whole records is empty if the buffer does not begin with a
whole record. -/
theorem take_eq_nil_of_whole (hwhole : Whole (l.take n)) (hpart : ¬ Complete l) :
  l.take n = []
  := by
  by_contra hne
  obtain ⟨k, hk, hle⟩ := hwhole.complete hne
  apply hpart
  refine ⟨k, ?_, hle.trans ?_⟩
  · rw [← take_append_drop n l]
    exact recordLength_append hk _
  · exact length_take_le' n l

theorem consume_ends (h : s.Inv out) (hextra : extra ≤ s.enc.length)
    (hwhole : Whole (s.enc.take (s.enc.length - extra))) :
  Ends (fun _ s' => s'.Inv out ∧ s.Advances s' ∧ s'.left + (s.enc.length - extra) = s.left)
    (fun _ _ => False) (consume extra) s
  := by
  have hroom := h.room
  refine ⟨⟨?_, h.plain, ?_, h.eof, ?_, ?_, h.cap, h.off⟩, ⟨rfl, rfl, rfl⟩, ?_⟩
  · rw [append_assoc, take_append_drop, h.taken]
  · intro hbroken
    exact (h.whole hbroken).append hwhole
  · intro hended
    obtain ⟨harrivals, hpart⟩ := h.closed hended
    refine ⟨harrivals, fun hbroken => ?_⟩
    have hnil := take_eq_nil_of_whole hwhole (hpart hbroken)
    have hsplit := take_append_drop (s.enc.length - extra) s.enc
    rw [hnil, nil_append] at hsplit
    change ¬ Complete (s.enc.drop (s.enc.length - extra))
    rw [hsplit]
    exact hpart hbroken
  · change (s.enc.drop _).length ≤ s.encCap
    rw [length_drop]
    omega
  · simp only [Conn.left, length_drop]
    omega

theorem sendToken_ends (h : s.Inv out) (status : InitStatus) (token : Bool) :
  Ends (fun _ s' => s'.Inv out ∧ s.Advances s' ∧ s'.left = s.left ∧ s'.enc = s.enc
      ∧ s'.broken = s.broken)
    (fun _ s' => s'.Inv out) (sendToken status token) s
  := by
  rw [sendToken]
  split
  · apply ((sockSendAll_ends h).mono (fun _ _ => id) (fun _ _ => False.elim)).bind
    intro sent s' h'
    split
    · exact h'
    split
    · exact fail h'.1
    · exact h'
  · exact ⟨h, ⟨rfl, rfl, rfl⟩, rfl, rfl, rfl⟩

theorem not_complete_nil : ¬ Complete [] := by
  rintro ⟨n, hn, -⟩
  simp [recordLength] at hn

theorem not_complete_of_isEmpty (h : l.isEmpty = true) :
  ¬ Complete l
  := by
  rw [isEmpty_iff.mp h]
  exact not_complete_nil

/-- The handshake takes something from the stream if it succeeds. -/
theorem handshakeLoop_ends {needRead retried : Bool} (h : s.Inv out)
    (hpart : needRead = true → ¬ Complete s.enc)
    (hfuel : s.left + (if needRead then 0 else 1) + (if retried then 0 else 1) < fuel) :
  Ends (fun _ s' => s'.Inv out ∧ s.Advances s' ∧ s'.left < s.left) (fun _ s' => s'.Inv out)
    (handshakeLoop sspi fuel needRead retried) s
  := by
  induction fuel generalizing needRead retried s with
  | zero => omega
  | succ fuel ih =>
    apply (handshakeInput_ends h hpart).bind
    rintro - s₁ ⟨h₁, hadv₁, hleft₁⟩
    apply get_bind
    apply modify_bind
    have hdone := sspi.init_done s₁.ctx retried s₁.enc
    have hincomplete := sspi.init_incomplete s₁.ctx retried s₁.enc
    generalize sspi.initializeSecurityContext s₁.ctx retried s₁.enc = r at hdone hincomplete ⊢
    have h₂ : Conn.Inv out { s₁ with ctx := r.2 } :=
      ⟨h₁.taken, h₁.plain, h₁.whole, h₁.eof, h₁.closed, h₁.room, h₁.cap, h₁.off⟩
    have hadv₂ : s.Advances { s₁ with ctx := r.2 } := ⟨hadv₁.dec, hadv₁.decOff, hadv₁.eof⟩
    have hleft₂ : Conn.left { s₁ with ctx := r.2 } = s₁.left := rfl
    have henc₂ : Conn.enc { s₁ with ctx := r.2 } = s₁.enc := rfl
    generalize { s₁ with ctx := r.2 } = s₂ at h₂ hadv₂ hleft₂ henc₂ ⊢
    have hfuel₂ : s₂.left + 1 + (if retried then 0 else 1) ≤ fuel := by
      cases needRead
      · simp only [Bool.false_eq_true, if_false] at hfuel hleft₁
        omega
      · simp only [if_true] at hfuel hleft₁
        omega
    rw [← henc₂] at hdone hincomplete
    split
    · -- more input is needed
      rename_i hr
      apply (growEnc_ends h₂).bind
      rintro - s₃ ⟨h₃, hadv₃, hleft₃, henc₃, -⟩
      rw [← henc₃] at hincomplete
      apply (ih h₃ (fun _ => hincomplete hr) (by rw [if_pos rfl]; omega)).mono
      · rintro - s₄ ⟨h₄, hadv₄, hleft₄⟩
        exact ⟨h₄, (hadv₂.trans hadv₃).trans hadv₄, by omega⟩
      · exact fun _ _ h' => h'
    rename_i status token extra hr
    obtain ⟨hextra, htaken⟩ := hdone status token extra hr
    apply (sendToken_ends h₂ status token).bind
    rintro - s₃ ⟨h₃, hadv₃, hleft₃, henc₃, -⟩
    rw [← henc₃] at hextra htaken
    have hadv := hadv₂.trans hadv₃
    split
    · -- the same input once more, with the supplied credentials
      rename_i hcreds
      rw [if_neg (by simp [hcreds.2])] at hfuel₂
      apply (ih h₃ (fun h => absurd h (by simp))
        (by rw [if_neg (by simp), if_pos rfl]; omega)).mono
      · rintro - s₄ ⟨h₄, hadv₄, hleft₄⟩
        exact ⟨h₄, hadv.trans hadv₄, by omega⟩
      · exact fun _ _ h' => h'
    by_cases hstatus : ∀ code, status ≠ .failed code
    · obtain ⟨hlt, hwhole⟩ := htaken hstatus
      apply ((consume_ends h₃ hextra hwhole).mono (fun _ _ => id)
        (fun _ _ => False.elim)).bind
      rintro - s₄ ⟨h₄, hadv₄, hleft₄⟩
      cases status with
      | ok => exact ⟨h₄, hadv.trans hadv₄, by omega⟩
      | continueNeeded =>
        apply get_bind
        apply (ih h₄ not_complete_of_isEmpty (by split <;> omega)).mono
        · rintro - s₅ ⟨h₅, hadv₅, hleft₅⟩
          exact ⟨h₅, (hadv.trans hadv₄).trans hadv₅, by omega⟩
        · exact fun _ _ h' => h'
      | incompleteCredentials =>
        exact ⟨h₄.taken, h₄.plain, nofun, h₄.eof,
          fun h => ⟨(h₄.closed h).1, nofun⟩, h₄.room, h₄.cap, h₄.off⟩
      | failed code => exact absurd rfl (hstatus code)
    · obtain ⟨code, rfl⟩ := not_forall_not.mp hstatus
      have hroom := h₃.room
      refine ⟨?_, h₃.plain, nofun, h₃.eof,
        fun h => ⟨(h₃.closed h).1, nofun⟩, ?_, h₃.cap, h₃.off⟩
      · rw [append_assoc, take_append_drop, h₃.taken]
      · change (s₃.enc.drop _).length ≤ s₃.encCap
        rw [length_drop]
        omega

theorem doHandshake_ends (h : s.Inv out) :
  Ends (fun _ s' => s'.Inv out ∧ s.Advances s' ∧ s'.left < s.left) (fun _ s' => s'.Inv out)
    (doHandshake sspi) s
  := by
  apply get_bind
  apply handshakeLoop_ends h not_complete_of_isEmpty
  split <;> simp

theorem httpsScHandshake_ends (sspi : Sspi Ctx) (ctx : Ctx) (arrivals : List Arrival)
    (sends : List (Option Err)) :
  Ends (fun _ s' => s'.Inv [] ∧ s'.decOff = s'.dec.length) (fun _ _ => True)
    (httpsScHandshake sspi) (Conn.fresh ctx arrivals sends)
  := by
  have h : (Conn.fresh ctx arrivals sends).Inv [] :=
    ⟨rfl, rfl, fun _ => .nil, fun h => absurd h (by simp [Conn.fresh]),
      fun h => absurd h (by simp [Conn.fresh]), Nat.zero_le _,
      ⟨by simp [Conn.fresh, encInitial], by simp [Conn.fresh, encInitial, encMax]⟩, le_rfl⟩
  apply ((sockSendAll_ends h).mono (fun _ _ => id) (fun _ _ _ => trivial)).bind
  rintro sent s₁ ⟨h₁, hadv₁, -, henc, -⟩
  split
  · exact fail trivial
  apply get_bind
  apply (handshakeLoop_ends h₁ (fun _ => by rw [henc]; exact not_complete_nil) (by simp)).mono
  · rintro - s₂ ⟨h₂, hadv₂, -⟩
    have hadv := hadv₁.trans hadv₂
    refine ⟨h₂, ?_⟩
    rw [hadv.decOff, hadv.dec]
    rfl
  · exact fun _ _ _ => trivial

/-! ### Reading -/

theorem drop_decOff_eq_nil (h : s.dec.length ≤ s.decOff) :
  s.dec.drop s.decOff = []
  := drop_of_length_le h

variable {data : List UInt8}

/-- What does not fit is stashed. -/
theorem stashPlaintext_ends (hnone : s.decOff = s.dec.length) (hdata : data.length ≤ encMax) :
  Ends (fun _ s' => ∃ dec decCap decOff, s' = { s with dec, decCap, decOff }
      ∧ dec.drop decOff = data ∧ decOff ≤ dec.length)
    (fun _ _ => False) (stashPlaintext data) s
  := by
  have hdrop := drop_decOff_eq_nil hnone.ge
  rw [stashPlaintext]
  split
  · rename_i hnil
    exact ⟨s.dec, s.decCap, s.decOff, rfl, by rw [hdrop, hnil], hnone.le⟩
  apply modify_bind
  apply get_bind
  split
  · rename_i hgrow
    simp only [hdrop, length_nil, Nat.zero_add, grow] at hgrow
    split at hgrow
    · cases hgrow
    · rw [if_neg (by omega)] at hgrow
      cases hgrow
  · rename_i cap _
    exact ⟨_, cap, 0, rfl, by rw [hdrop]; rfl, Nat.zero_le _⟩

/-- The content of a record goes to the caller's buffer and the stash. -/
theorem copyOut_ends (hnone : s.decOff = s.dec.length) (hdata : data.length ≤ encMax) (len : ℕ)
    (status : Decrypted) :
  Ends (fun direct s' => ∃ dec decCap decOff, s' = { s with dec, decCap, decOff }
      ∧ direct ++ dec.drop decOff = data ∧ decOff ≤ dec.length ∧ direct.length ≤ len
      ∧ (status = .renegotiate → direct = []))
    (fun _ _ => False) (copyOut len status data []) s
  := by
  rw [copyOut]
  apply get_bind
  split
  · rename_i hdirect
    apply (stashPlaintext_ends hnone (by rw [length_drop]; omega)).bind
    rintro - s' ⟨dec, decCap, decOff, rfl, hdec, hoff⟩
    refine ⟨dec, decCap, decOff, rfl, ?_, hoff, ?_, fun h => absurd h hdirect.1⟩
    · rw [hdec, nil_append, take_append_drop]
    · exact length_take_le _ _
  · apply (stashPlaintext_ends hnone hdata).bind
    rintro - s' ⟨dec, decCap, decOff, rfl, hdec, hoff⟩
    exact ⟨dec, decCap, decOff, rfl, hdec, hoff, Nat.zero_le _, fun _ => rfl⟩

/-- One attempt to decrypt: either a record is taken, and its content has been copied out, or the
buffer does not begin with a whole record. -/
theorem decryptOnce_ends (h : s.Inv out) (hnone : s.decOff = s.dec.length) (len : ℕ) :
  Ends (fun r s' => (∃ direct, r = some direct ∧ s'.Inv (out ++ direct) ∧ direct.length ≤ len
        ∧ s'.left < s.left)
      ∨ (r = none ∧ s'.Inv out ∧ s.Advances s' ∧ s'.left = s.left ∧ ¬ Complete s'.enc
        ∧ s'.enc.length < s'.encCap))
    (fun _ s' => s'.Inv out) (decryptOnce sspi len []) s
  := by
  rw [decryptOnce]
  apply get_bind
  split
  · rename_i hempty
    obtain ⟨hpos, -⟩ := h.cap
    exact .inr ⟨rfl, h, ⟨rfl, rfl, rfl⟩, rfl, by rw [hempty]; exact not_complete_nil,
      by rw [hempty]; exact hpos⟩
  apply modify_bind
  have hdone := sspi.decrypt_done s.ctx s.enc
  have hincomplete := sspi.decrypt_incomplete s.ctx s.enc
  generalize sspi.decryptMessage s.ctx s.enc = r at hdone hincomplete ⊢
  have h₁ : Conn.Inv out { s with ctx := r.2 } :=
    ⟨h.taken, h.plain, h.whole, h.eof, h.closed, h.room, h.cap, h.off⟩
  have hadv₁ : s.Advances { s with ctx := r.2 } := ⟨rfl, rfl, rfl⟩
  have hleft₁ : Conn.left { s with ctx := r.2 } = s.left := rfl
  have henc₁ : Conn.enc { s with ctx := r.2 } = s.enc := rfl
  generalize { s with ctx := r.2 } = s₁ at h₁ hadv₁ hleft₁ henc₁ ⊢
  rw [← henc₁] at hdone hincomplete
  have hnone₁ : s₁.decOff = s₁.dec.length := by rw [hadv₁.decOff, hadv₁.dec, hnone]
  have hplain₁ := h₁.plain
  rw [drop_decOff_eq_nil hnone₁.ge, append_nil] at hplain₁
  split
  · rename_i status data extra hr
    obtain ⟨hlen, hwhole, hprogress⟩ := hdone status data extra hr
    have hroom := h₁.room
    have hcap := h₁.cap.2
    apply modify_bind
    apply ((copyOut_ends (s := { s₁ with decrypted := s₁.decrypted ++ data }) hnone₁ (by omega) len
      status).mono (fun _ _ => id) (fun _ _ => False.elim)).bind
    rintro direct s₂ ⟨dec, decCap, decOff, rfl, hdec, hoff, hdirect, hreneg⟩
    -- the record has been copied out, and its bytes are still in the buffer
    have h₂ : Conn.Inv (out ++ direct)
        { s₁ with decrypted := s₁.decrypted ++ data, dec, decCap, decOff } := by
      refine ⟨h₁.taken, ?_, h₁.whole, h₁.eof, h₁.closed, h₁.room, h₁.cap, hoff⟩
      rw [hplain₁, append_assoc, hdec]
    apply ((consume_ends h₂ (show extra ≤ s₁.enc.length by omega) hwhole).mono (fun _ _ => id)
      (fun _ _ => False.elim)).bind
    rintro - s₃ ⟨h₃, -, hleft₃⟩
    have hleft₃' : s₃.left + (s₁.enc.length - extra) = s.left := hleft₃.trans hleft₁
    cases status with
    | ok =>
      have hlt := hprogress (by simp)
      exact .inl ⟨direct, rfl, h₃, hdirect, by omega⟩
    | contextExpired =>
      have hlt := hprogress (by simp)
      refine .inl ⟨direct, rfl, ⟨h₃.taken, h₃.plain, h₃.whole, fun _ => .inl rfl, h₃.closed,
        h₃.room, h₃.cap, h₃.off⟩, hdirect, ?_⟩
      change s₃.left < s.left
      omega
    | renegotiate =>
      obtain rfl := hreneg rfl
      rw [append_nil] at h₃
      apply (doHandshake_ends h₃).bind
      rintro - s₄ ⟨h₄, -, hleft₄⟩
      exact .inl ⟨[], rfl, by rwa [append_nil], Nat.zero_le _, by omega⟩
  · rename_i hr
    apply (growEnc_ends h₁).bind
    rintro - s₂ ⟨h₂, hadv₂, hleft₂, henc₂, -, hroom₂⟩
    exact .inr ⟨rfl, h₂, hadv₁.trans hadv₂, by omega, by rw [henc₂]; exact hincomplete hr, hroom₂⟩
  · exact fail h₁

theorem receive_ends (h : s.Inv out) (hroom : s.enc.length < s.encCap) (hpart : ¬ Complete s.enc) :
  Ends (fun more s' => s'.Inv out ∧ s'.dec = s.dec ∧ s'.decOff = s.decOff
      ∧ (more = false → s'.eof = true) ∧ (more = true → s'.left < s.left))
    (fun _ s' => s'.Inv out) receive s
  := by
  rw [receive]
  apply get_bind
  split
  · rename_i heof
    exact ⟨h, rfl, rfl, fun _ => heof, nofun⟩
  apply (sockRecv_ends h hroom hpart).bind
  rintro l s' (⟨rfl, h', heof, hdec, hoff⟩ | ⟨hl, h', hadv, hleft⟩)
  · exact ⟨h', hdec, hoff, fun _ => heof, nofun⟩
  · rw [if_neg hl]
    exact ⟨h', hadv.dec, hadv.decOff, nofun, fun _ => hleft⟩

/-- The loop ends when there is something to return, or at the end of the stream. -/
theorem readLoop_ends (h : s.Inv out) (hnone : s.decOff = s.dec.length) (hfuel : s.left < fuel)
    (len : ℕ) :
  Ends (fun direct s' => s'.Inv (out ++ direct) ∧ direct.length ≤ len
      ∧ (direct ≠ [] ∨ s'.decOff < s'.dec.length ∨ s'.eof = true))
    (fun _ s' => s'.Inv out) (readLoop sspi len fuel []) s
  := by
  induction fuel generalizing s with
  | zero => omega
  | succ fuel ih =>
    apply (decryptOnce_ends h hnone len).bind
    rintro r s₁ (⟨direct, rfl, h₁, hdirect, hleft₁⟩ | ⟨rfl, h₁, hadv₁, hleft₁, hpart, hroom⟩)
    · apply get_bind
      split
      · rename_i hend
        exact ⟨h₁, hdirect, hend⟩
      rename_i hend
      obtain ⟨hnil, hdec, heof⟩ : direct = [] ∧ s₁.dec.length ≤ s₁.decOff ∧ s₁.eof = false := by
        simpa using hend
      subst hnil
      rw [append_nil] at h₁
      exact ih h₁ (le_antisymm h₁.off hdec) (by omega)
    · apply (receive_ends h₁ hroom hpart).bind
      rintro more s₂ ⟨h₂, hdec, hoff, hstop, hmore⟩
      cases more with
      | true =>
        apply ih h₂
        · rw [hoff, hdec, hadv₁.decOff, hadv₁.dec, hnone]
        · have hleft₂ := hmore rfl
          omega
      | false => exact ⟨by rwa [append_nil], Nat.zero_le _, .inr (.inr (hstop rfl))⟩

theorem takePlaintext_ends (h : s.Inv out) (len : ℕ) :
  Ends (fun l s' => s'.Inv (out ++ l) ∧ l.length ≤ len
      ∧ (l = [] → s'.eof = s.eof ∧ (len = 0 ∨ s.dec.length ≤ s.decOff)))
    (fun _ _ => False) (takePlaintext len) s
  := by
  apply get_bind
  split
  · rename_i hnone
    exact ⟨by rwa [append_nil], Nat.zero_le _, fun _ => ⟨rfl, .inr hnone⟩⟩
  have hlength : (s.dec.drop s.decOff).length = s.dec.length - s.decOff := length_drop
  split
  · refine ⟨⟨h.taken, ?_, h.whole, h.eof, h.closed, h.room, h.cap, le_rfl⟩, by omega, ?_⟩
    · change s.decrypted = (out ++ s.dec.drop s.decOff) ++ []
      rw [append_nil, h.plain]
    · intro hnil
      rw [hnil, length_nil] at hlength
      omega
  refine ⟨⟨h.taken, ?_, h.whole, h.eof, h.closed, h.room, h.cap, ?_⟩, length_take_le _ _, ?_⟩
  · rw [h.plain, append_assoc, ← drop_drop, take_append_drop]
  · change s.decOff + len ≤ s.dec.length
    omega
  · intro hnil
    rcases take_eq_nil_iff.mp hnil with hzero | hnone
    · exact ⟨rfl, .inl hzero⟩
    · rw [hnone, length_nil] at hlength
      omega

/-- A read returns the next bytes that were decrypted, and none only at the end of the stream. -/
theorem httpsScRead_ends (h : s.Inv out) (len : ℕ) :
  Ends (fun l s' => s'.Inv (out ++ l) ∧ l.length ≤ len ∧ (l = [] → 0 < len → s'.eof = true))
    (fun _ s' => s'.Inv out) (httpsScRead sspi len) s
  := by
  rw [httpsScRead]
  apply get_bind
  split
  · exact ⟨by rwa [append_nil], Nat.zero_le _, fun _ h => by omega⟩
  split
  · apply (takePlaintext_ends h len).mono
    · rintro l s' ⟨h', hle, hnil⟩
      refine ⟨h', hle, fun hl hpos => ?_⟩
      obtain ⟨-, hzero | hnone⟩ := hnil hl
      · omega
      · omega
    · exact fun _ _ => False.elim
  have hoff := h.off
  apply (readLoop_ends h (by omega) (by omega) len).bind
  rintro direct s₁ ⟨h₁, hdirect, hend⟩
  apply ((takePlaintext_ends h₁ (len - direct.length)).mono (fun _ _ => id)
    (fun _ _ => False.elim)).bind
  rintro taken s₂ ⟨h₂, htaken, hnil⟩
  refine ⟨by rwa [← append_assoc], by rw [length_append]; omega, fun hl hpos => ?_⟩
  obtain ⟨rfl, rfl⟩ := append_eq_nil_iff.mp hl
  obtain ⟨heof, hempty⟩ := hnil rfl
  rcases hend with hne | hmore | hend
  · exact absurd rfl hne
  · omega
  · rw [heof, hend]

/-! ### Reads one after the other -/

/-- Calls of `https_sc_read` one after the other, whether or not they fail: what they return, put
together, and the connection after them. -/
def reads (sspi : Sspi Ctx) : List ℕ → Conn Ctx → List UInt8 × Conn Ctx
  | [], s => ([], s)
  | len :: lens, s =>
    match httpsScRead sspi len s with
    | .ok l s' => (l ++ (reads sspi lens s').1, (reads sspi lens s').2)
    | .error _ s' => reads sspi lens s'

theorem reads_inv (h : s.Inv out) (lens : List ℕ) :
  (reads sspi lens s).2.Inv (out ++ (reads sspi lens s).1)
  := by
  induction lens generalizing out s with
  | nil => rwa [reads, append_nil]
  | cons len lens ih =>
    rw [reads]
    have hread : Ends _ _ (httpsScRead sspi len) s := httpsScRead_ends h len
    rcases hread.cases with ⟨l, s', heq, h', -⟩ | ⟨e, s', heq, h'⟩
    · rw [heq]
      rw [← append_assoc]
      exact ih h'
    · rw [heq]
      exact ih h'

/-- At the end of a stream of whole records nothing is left over. -/
theorem enc_eq_nil_of_whole (h : s.Inv out) (hended : s.ended = true) (hbroken : s.broken = false)
    (hwhole : Whole s.received) :
  s.enc = []
  := by
  rw [← h.taken] at hwhole
  have henc := (h.whole hbroken).of_append hwhole
  by_contra hne
  exact (h.closed hended).2 hbroken (henc.complete hne)

/-- After a handshake, whatever arrives and whatever is asked for: what was decrypted is what the
reads have returned, followed by what is kept for the next one, and the security package has been
given what was received.  Each further read returns or waits.  If it reports the end of the stream,
there was close_notify or the stream has ended with a record, given that the stream consists of
whole records and no handshake has failed. -/
theorem reads_stream {ctx : Ctx} {arrivals : List Arrival} {sends : List (Option Err)}
    {s₀ : Conn Ctx} (hs₀ : httpsScHandshake sspi (Conn.fresh ctx arrivals sends) = .ok () s₀)
    (lens : List ℕ) :
  (reads sspi lens s₀).2.decrypted
      = (reads sspi lens s₀).1 ++ (reads sspi lens s₀).2.dec.drop (reads sspi lens s₀).2.decOff
    ∧ (reads sspi lens s₀).2.consumed ++ (reads sspi lens s₀).2.enc
      = (reads sspi lens s₀).2.received
    ∧ ∀ len, Ends (fun l s => l.length ≤ len ∧ (l = [] → 0 < len → s.broken = false →
          Whole s.received → s.closeNotify = true ∨ (s.ended = true ∧ s.enc = [])))
        (fun _ _ => True) (httpsScRead sspi len) (reads sspi lens s₀).2
  := by
  have h : (reads sspi lens s₀).2.Inv ([] ++ (reads sspi lens s₀).1) :=
    reads_inv ((httpsScHandshake_ends sspi ctx arrivals sends).of_ok hs₀).1 lens
  refine ⟨h.plain, h.taken, fun len => ?_⟩
  apply (httpsScRead_ends h len).mono
  · rintro l s ⟨h', hle, heof⟩
    refine ⟨hle, fun hnil hpos hbroken hwhole => ?_⟩
    rcases h'.eof (heof hnil hpos) with hnotify | hended
    · exact .inl hnotify
    · exact .inr ⟨hended, enc_eq_nil_of_whole h' hended hbroken hwhole⟩
  · exact fun _ _ _ => trivial

/-! ### A security package without encryption -/

theorem recordLength_take (h : recordLength l = some n) (hn : n ≤ l.length) :
  recordLength (l.take n) = some (l.take n).length ∧ 0 < n
  := by
  have hlen : (l.take n).length = n := by
    rw [length_take, Nat.min_eq_left hn]
  rw [hlen]
  match l, h with
  | a :: b :: c :: d :: e :: l, h =>
    cases h
    rw [Nat.add_assoc, Nat.add_comm]
    simp only [take_succ_cons, recordLength, Option.some.injEq]
    omega

/-- What the first record takes of the buffer. -/
def firstRecord (input : List UInt8) : Option ℕ :=
  (recordLength input).filter (· ≤ input.length)

theorem firstRecord_eq_some (h : firstRecord input = some n) :
  n ≤ input.length ∧ 0 < n ∧ Whole (input.take n)
  := by
  obtain ⟨hlen, hle⟩ := Option.filter_eq_some_iff.mp h
  obtain ⟨htake, hpos⟩ := recordLength_take hlen (by simpa using hle)
  have hwhole := Whole.record htake .nil
  rw [append_nil] at hwhole
  exact ⟨by simpa using hle, hpos, hwhole⟩

theorem firstRecord_eq_none (h : firstRecord input = none) :
  ¬ Complete input
  := by
  rintro ⟨n, hn, hle⟩
  rw [firstRecord, Option.filter_eq_none_iff] at h
  exact h n hn (by simpa using hle)

def plainDecrypt (input : List UInt8) : DecryptResult :=
  match firstRecord input with
  | none => .incompleteMessage
  | some n => .done .ok ((input.take n).drop 5) (input.length - n)

def plainInit (input : List UInt8) : InitResult :=
  match firstRecord input with
  | none => .incompleteMessage
  | some n => .done .ok false (input.length - n)

theorem plainDecrypt_done {status : Decrypted} (h : plainDecrypt input = .done status data extra) :
  data.length + extra ≤ input.length ∧ Whole (input.take (input.length - extra))
    ∧ (status ≠ .renegotiate → extra < input.length)
  := by
  rw [plainDecrypt] at h
  split at h <;> cases h
  · rename_i hn
    obtain ⟨hle, hpos, hwhole⟩ := firstRecord_eq_some hn
    rw [Nat.sub_sub_self hle, length_drop, length_take]
    exact ⟨by omega, hwhole, fun _ => by omega⟩

theorem plainDecrypt_incomplete (h : plainDecrypt input = .incompleteMessage) :
  ¬ Complete input
  := by
  rw [plainDecrypt] at h
  split at h <;> cases h
  exact firstRecord_eq_none ‹_›

theorem plainInit_incomplete (h : plainInit input = .incompleteMessage) :
  ¬ Complete input
  := by
  rw [plainInit] at h
  split at h <;> cases h
  exact firstRecord_eq_none ‹_›

theorem plainInit_done {status : InitStatus} {token : Bool}
    (h : plainInit input = .done status token extra) :
  extra ≤ input.length ∧ ((∀ code, status ≠ .failed code) →
    extra < input.length ∧ Whole (input.take (input.length - extra)))
  := by
  rw [plainInit] at h
  split at h <;> cases h
  · rename_i hn
    obtain ⟨hle, hpos, hwhole⟩ := firstRecord_eq_some hn
    rw [Nat.sub_sub_self hle]
    exact ⟨by omega, fun _ => ⟨by omega, hwhole⟩⟩

/-- Records are sent as they are, and a handshake is one record. -/
def plainSspi : Sspi Unit where
  decryptMessage _ input := (plainDecrypt input, ())
  initializeSecurityContext _ _ input := (plainInit input, ())
  decrypt_done _ _ _ _ _ h := plainDecrypt_done h
  decrypt_incomplete _ _ h := plainDecrypt_incomplete h
  init_incomplete _ _ _ h := plainInit_incomplete h
  init_done _ _ _ _ _ _ h := plainInit_done h

/-- The last record of a handshake, and the beginning of a record of two bytes. -/
def firstArrival : Arrival := .bytes 22 [3, 3, 0, 0, 23, 3, 3]

/-- The connection after its handshake. -/
def connected (rest : List Arrival) : Conn Unit :=
  { Conn.fresh () rest [] with
    received := [22, 3, 3, 0, 0, 23, 3, 3], consumed := [22, 3, 3, 0, 0], enc := [23, 3, 3] }

theorem reads_stream_whole :
  (reads plainSspi [1, 5] (connected [.bytes 0 [2, 104, 105], .closed])).1 = [104, 105]
    ∧ Ends (fun l s => l.length ≤ 5 ∧ (l = [] → 0 < 5 → s.broken = false →
          Whole s.received → s.closeNotify = true ∨ (s.ended = true ∧ s.enc = [])))
        (fun _ _ => True) (httpsScRead plainSspi 5)
        (reads plainSspi [1, 5] (connected [.bytes 0 [2, 104, 105], .closed])).2
  := by
  have hconnected : httpsScHandshake plainSspi
      (Conn.fresh () [firstArrival, .bytes 0 [2, 104, 105], .closed] [])
    = .ok () (connected [.bytes 0 [2, 104, 105], .closed]) := rfl
  exact ⟨rfl, (reads_stream hconnected [1, 5]).2.2 5⟩

/-- A stream that is cut inside a record ends like one that is not. -/
theorem httpsScRead_cut :
  httpsScHandshake plainSspi (Conn.fresh () [firstArrival, .bytes 0 [2, 104], .closed] [])
      = .ok () (connected [.bytes 0 [2, 104], .closed])
    ∧ ∃ s, httpsScRead plainSspi 5 (connected [.bytes 0 [2, 104], .closed]) = .ok [] s
      ∧ s.closeNotify = false ∧ s.enc = [23, 3, 3, 0, 2, 104]
  := ⟨rfl, _, rfl, rfl, rfl⟩

end Schannel
