import TinyGoDriver.SqlBatch.Adapters
import TinyGoDriver.SqlBatch.Sequential

/-!
# Falling back

With `WithFallback`, `Send` takes an `UnsupportedError` of the adapter path for a refusal and runs
the batch once more, on the sequential path.  It looks at the error the whole run ended with,
which may as well be one that a callback returned, after statements have run.

`Contract` is what an adapter owes: it sends no statement twice, it has sent a statement before it
gives its result, and it returns an `UnsupportedError` only if it has sent nothing, and then sends
nothing any more.
-/

namespace SqlBatch

open List

variable {ρ : Type}

/-! ### Adapters that keep the contract -/

/-- A call of `Results` leaves the callbacks alone and takes nothing back. -/
structure Keeps (w w' : World) : Prop where
  called : w'.called = w.called
  sent : w.sent ⊆ w'.sent

/-- What the `Results` for a batch of `n` statements keep to.  `Inv i` holds of the world when the
results of `i` statements have been taken, and `Off` once the batch has been refused. -/
structure Contract (res : Results ρ) (n : ℕ) (Inv : ℕ → World → Prop) (Off : World → Prop) :
    Prop where
  nodup : ∀ {i w}, Inv i w → w.sent.Nodup
  call : ∀ {i w} k, Inv i w → Inv i (w.call k)
  exec : ∀ {i w}, i < n → Inv i w →
    Keeps w (res.exec i w).2 ∧ Inv (i + 1) (res.exec i w).2
      ∧ (∀ ct, (res.exec i w).1 = .ok ct → i ∈ (res.exec i w).2.sent)
      ∧ ∀ e, (res.exec i w).1 = .error e → e.asUnsupported = true → Off (res.exec i w).2
  query : ∀ {i w}, i < n → Inv i w →
    Keeps w (res.query i w).2 ∧ Inv (i + 1) (res.query i w).2
      ∧ (∀ rs, (res.query i w).1 = .ok rs → i ∈ (res.query i w).2.sent)
      ∧ ∀ e, (res.query i w).1 = .error e → e.asUnsupported = true → Off (res.query i w).2
  next : ∀ {i w} rs k, Inv (i + 1) w →
    Keeps w (res.next i rs k w) ∧ Inv (i + 1) (res.next i rs k w)
  close : ∀ {i w}, Inv i w →
    Keeps w (res.close w).2 ∧ (res.close w).2.sent.Nodup
      ∧ ∀ e, (res.close w).1 = some e → e.asUnsupported = true → (res.close w).2.sent = []
  off_close : ∀ {w}, Off w → (res.close w).2.sent = []

/-- An adapter that keeps the contract, whatever the batch. -/
def Lawful (a : Adapter ρ) : Prop :=
  ∀ s b, match a s b {} with
    | (.ok res, w) => w.called = [] ∧ ∃ Inv Off, Contract res b.length Inv Off ∧ Inv 0 w
    | (.error e, w) =>
      w.called = [] ∧ w.sent.Nodup ∧ (e.asUnsupported = true → w.sent = [])

/-- What `drive` does with statement `i` of an adapter that keeps the contract. -/
structure Reported (i : ℕ) (Inv : ℕ → World → Prop) (Off : World → Prop) (q : QueuedQuery ρ)
    (w : World) (r : Option Err × World) : Prop where
  inv : Inv (i + 1) r.2
  sent : w.sent ⊆ r.2.sent
  called : r.2.called = w.called ∨ r.2.called = w.called ++ [i]
  /-- An `UnsupportedError` that no callback has to do with is a refusal. -/
  refused : ∀ e, r.1 = some e → e.asUnsupported = true → r.2.called = w.called → Off r.2
  /-- The statement had a result, or its callback was called without one. -/
  seen : r.1 = none ∨ r.2.called ≠ w.called →
    i ∈ r.2.sent ∨ i ∈ r.2.called ∧ ∃ fn, q.fn = .queryRow fn

variable {l : List ℕ} {q : QueuedQuery ρ} {s : Settings} {b : List (QueuedQuery ρ)} {w : World}

section Contract

variable {res : Results ρ} {n i : ℕ} {Inv : ℕ → World → Prop} {Off : World → Prop}
variable {q : QueuedQuery ρ} {w v : World}

/-- The adapter returns an error, before any callback. -/
theorem reported_error {e : Err} (hkeeps : Keeps w v) (hinv : Inv (i + 1) v)
    (hoff : e.asUnsupported = true → Off v) :
  Reported i Inv Off q w (some e, v)
  where
  inv := hinv
  sent := hkeeps.sent
  called := .inl hkeeps.called
  refused := by
    rintro e' ⟨⟩ he' -
    exact hoff he'
  seen := by
    rintro (h | h)
    · cases h
    · exact absurd hkeeps.called h

/-- The callback has been called. -/
theorem reported_call {err : Option Err} (hsent : w.sent ⊆ v.sent)
    (hcalled : v.called = w.called ++ [i]) (hinv : Inv (i + 1) v)
    (hseen : i ∈ v.sent ∨ ∃ fn, q.fn = .queryRow fn) :
  Reported i Inv Off q w (err, v)
  where
  inv := hinv
  sent := hsent
  called := .inr hcalled
  refused := by
    intro e _ _ hsame
    simp [hcalled] at hsame
  seen := by
    rintro -
    rcases hseen with hmem | hfn
    · exact .inl hmem
    · exact .inr ⟨by simp [hcalled], hfn⟩

theorem Contract.report (hres : Contract res n Inv Off) (q : QueuedQuery ρ) (hi : i < n)
    (hw : Inv i w) :
  Reported i Inv Off q w (q.report res i w)
  := by
  obtain ⟨hexec, hexecInv, hexecOk, hexecOff⟩ := hres.exec hi hw
  obtain ⟨hquery, hqueryInv, hqueryOk, hqueryOff⟩ := hres.query hi hw
  unfold QueuedQuery.report
  generalize res.exec i w = r at hexec hexecInv hexecOk hexecOff
  generalize res.query i w = r' at hquery hqueryInv hqueryOk hqueryOff
  obtain ⟨tag, v⟩ := r
  obtain ⟨rows, v'⟩ := r'
  -- the rows are read after the callback has been called
  have hnext := fun rs k => hres.next rs k (hres.call i hqueryInv)
  have hcalled : (v'.call i).called = w.called ++ [i] := by rw [World.call, hquery.called]
  cases hfn : q.fn with
  | none =>
    cases tag with
    | ok ct =>
      refine ⟨hexecInv, hexec.sent, .inl hexec.called, ?_, fun _ => .inl (hexecOk ct rfl)⟩
      rintro e ⟨⟩
    | error e => exact reported_error hexec hexecInv (hexecOff e rfl)
  | exec fn =>
    cases tag with
    | ok ct =>
      refine reported_call hexec.sent ?_ (hres.call i hexecInv) (.inl (hexecOk ct rfl))
      rw [World.call, hexec.called]
    | error e => exact reported_error hexec hexecInv (hexecOff e rfl)
  | query fn =>
    cases rows with
    | ok rs =>
      have hreport : ∀ err k, Reported i Inv Off q w (err, res.next i rs k (v'.call i)) := by
        intro err k
        obtain ⟨hkeeps, hinv⟩ := hnext rs k
        exact reported_call (List.Subset.trans hquery.sent hkeeps.sent)
          (hkeeps.called.trans hcalled) hinv (.inl (hkeeps.sent (hqueryOk rs rfl)))
      dsimp only
      split <;> apply hreport
    | error e => exact reported_error hquery hqueryInv (hqueryOff e rfl)
  | queryRow fn =>
    dsimp only
    split
    · exact reported_call hquery.sent hcalled (hres.call i hqueryInv) (.inr ⟨fn, hfn⟩)
    · rename_i rs _
      obtain ⟨hkeeps, hinv⟩ := hnext rs 1
      exact reported_call (List.Subset.trans hquery.sent hkeeps.sent)
        (hkeeps.called.trans hcalled) hinv (.inr ⟨fn, hfn⟩)
    · exact reported_call hquery.sent hcalled (hres.call i hqueryInv) (.inr ⟨fn, hfn⟩)

/-! ### A run on the adapter path -/

/-- The numbers of `l` are below `i`, and none is there twice. -/
structure Once (i : ℕ) (l : List ℕ) : Prop where
  lt : ∀ j ∈ l, j < i
  nodup : l.Nodup

theorem Once.nil (i : ℕ) :
  Once i []
  := ⟨fun _ h => absurd h not_mem_nil, nodup_nil⟩

theorem Once.append (h : Once i l) :
  Once (i + 1) (l ++ [i])
  := by
  constructor
  · intro j hj
    rcases mem_append.mp hj with hj | hj
    · exact Nat.lt_succ_of_lt (h.lt j hj)
    · rw [mem_singleton.mp hj]
      apply Nat.lt_succ_self
  · refine nodup_append.mpr ⟨h.nodup, by simp, fun j hj k hk => ?_⟩
    rw [mem_singleton.mp hk]
    exact Nat.ne_of_lt (h.lt j hj)

theorem Once.step {l' : List ℕ} (h : Once i l) (hl : l' = l ∨ l' = l ++ [i]) :
  Once (i + 1) l'
  := by
  rcases hl with rfl | rfl
  · exact ⟨fun j hj => Nat.lt_succ_of_lt (h.lt j hj), h.nodup⟩
  · exact h.append

/-- Each statement is executed at most once, and each callback runs at most once. -/
def AtMostOnce (r : Option Err × World) : Prop :=
  r.2.sent.Nodup ∧ r.2.called.Nodup

variable {qs : List (QueuedQuery ρ)}

section

variable (hres : Contract res n Inv Off)
include hres

theorem Contract.drive_atMostOnce (hn : i + qs.length ≤ n)
    (hw : Inv i w) (hcalled : Once i w.called) :
  AtMostOnce (drive res i qs w)
  := by
  have hstep : ∀ j (q : QueuedQuery ρ) v, j < n → Inv j v ∧ Once j v.called →
      Inv (j + 1) (q.report res j v).2 ∧ Once (j + 1) (q.report res j v).2.called := by
    rintro j q v hj ⟨hv, honce⟩
    have hreport := hres.report q hj hv
    exact ⟨hreport.inv, honce.step hreport.called⟩
  obtain ⟨j, v, ⟨hv, honce⟩, hdrive⟩ := drive_inv hstep hn ⟨hw, hcalled⟩
  obtain ⟨hkeeps, hnodup, -⟩ := hres.close hv
  rw [AtMostOnce, hdrive, hkeeps.called]
  exact ⟨hnodup, honce.nodup⟩

/-- Nothing is taken back. -/
theorem Contract.drive_mono (qs : List (QueuedQuery ρ))
    (hn : i + qs.length ≤ n) (hw : Inv i w) :
  w.sent ⊆ (drive res i qs w).2.sent ∧ w.called ⊆ (drive res i qs w).2.called
  := by
  have hstep : ∀ j (q : QueuedQuery ρ) v, j < n →
      Inv j v ∧ w.sent ⊆ v.sent ∧ w.called ⊆ v.called →
      Inv (j + 1) (q.report res j v).2 ∧ w.sent ⊆ (q.report res j v).2.sent
        ∧ w.called ⊆ (q.report res j v).2.called := by
    rintro j q v hj ⟨hv, hsent, hcalled⟩
    have hreport := hres.report q hj hv
    refine ⟨hreport.inv, List.Subset.trans hsent hreport.sent, List.Subset.trans hcalled ?_⟩
    rcases hreport.called with heq | heq <;> rw [heq]
    · apply List.Subset.refl
    · apply subset_append_left
  obtain ⟨j, v, ⟨hv, hsent, hcalled⟩, hdrive⟩ :=
    drive_inv hstep hn ⟨hw, List.Subset.refl _, List.Subset.refl _⟩
  obtain ⟨hkeeps, -, -⟩ := hres.close hv
  rw [hdrive, hkeeps.called]
  exact ⟨List.Subset.trans hsent hkeeps.sent, hcalled⟩

/-- An `UnsupportedError` ends the walk, after a callback has been called. -/
def Spoils (res : Results ρ) : ℕ → List (QueuedQuery ρ) → World → Prop
  | _, [], w => (∃ e, (res.close w).1 = some e ∧ e.asUnsupported = true) ∧ w.called ≠ []
  | i, q :: qs, w =>
    match q.report res i w with
    | (some e, w) => e.asUnsupported = true ∧ w.called ≠ []
    | (none, w) => Spoils res (i + 1) qs w

theorem Contract.drive_of_spoils (hn : i + qs.length ≤ n)
    (hw : Inv i w) (h : Spoils res i qs w) :
  (∃ e, (drive res i qs w).1 = some e ∧ e.asUnsupported = true)
    ∧ (drive res i qs w).2.called ≠ []
  := by
  induction qs generalizing i w with
  | nil =>
    obtain ⟨herr, hcalled⟩ := h
    obtain ⟨hkeeps, -, -⟩ := hres.close hw
    exact ⟨herr, hkeeps.called ▸ hcalled⟩
  | cons q qs ih =>
    rw [length_cons] at hn
    have hreport := hres.report q (by omega) hw
    rw [Spoils] at h
    rw [drive]
    generalize q.report res i w = r at hreport h ⊢
    obtain ⟨err, w'⟩ := r
    cases err with
    | some e =>
      obtain ⟨hkeeps, -, -⟩ := hres.close hreport.inv
      refine ⟨⟨_, rfl, ?_⟩, hkeeps.called ▸ h.2⟩
      rw [asUnsupported_attributeTo, h.1]
    | none => exact ih (by omega) hreport.inv h

/-- Without a callback, an `UnsupportedError` comes from the adapter, which has sent nothing. -/
theorem Contract.drive_refused {e : Err} (hn : i + qs.length ≤ n)
    (hw : Inv i w) (h : ¬ Spoils res i qs w) (he : (drive res i qs w).1 = some e)
    (hunsupported : e.asUnsupported = true) :
  (drive res i qs w).2.sent = [] ∧ (drive res i qs w).2.called = []
  := by
  induction qs generalizing i w with
  | nil =>
    obtain ⟨hkeeps, -, hrefused⟩ := hres.close hw
    have hcalled : w.called = [] := by
      by_contra hne
      exact h ⟨⟨e, he, hunsupported⟩, hne⟩
    exact ⟨hrefused e he hunsupported, hkeeps.called.trans hcalled⟩
  | cons q qs ih =>
    rw [length_cons] at hn
    have hreport := hres.report q (by omega) hw
    rw [Spoils] at h
    rw [drive] at he ⊢
    generalize q.report res i w = r at hreport h he ⊢
    obtain ⟨err, w'⟩ := r
    cases err with
    | some e' =>
      cases he
      rw [asUnsupported_attributeTo] at hunsupported
      obtain ⟨hkeeps, -, -⟩ := hres.close hreport.inv
      have hcalled : w'.called = [] := by
        by_contra hne
        exact h ⟨hunsupported, hne⟩
      have hsame : w'.called = w.called := by
        rcases hreport.called with hsame | happend
        · exact hsame
        · simp [hcalled] at happend
      have hoff := hreport.refused e' rfl hunsupported hsame
      exact ⟨hres.off_close hoff, hkeeps.called.trans hcalled⟩
    | none => exact ih (by omega) hreport.inv h he

/-- Once a callback has been called, the first statement has been dealt with. -/
theorem Contract.drive_first (hn : (q :: qs).length ≤ n)
    (hw : Inv 0 w) (hcalled : w.called = []) (hne : (drive res 0 (q :: qs) w).2.called ≠ []) :
  0 ∈ (drive res 0 (q :: qs) w).2.sent
    ∨ 0 ∈ (drive res 0 (q :: qs) w).2.called ∧ ∃ fn, q.fn = .queryRow fn
  := by
  rw [length_cons] at hn
  have hreport := hres.report q (by omega) hw
  rw [drive] at hne ⊢
  generalize q.report res 0 w = r at hreport hne ⊢
  obtain ⟨err, w'⟩ := r
  cases err with
  | some e =>
    obtain ⟨hkeeps, -, -⟩ := hres.close hreport.inv
    rw [hkeeps.called] at hne ⊢
    rcases hreport.seen (.inr (hcalled ▸ hne)) with hmem | hmem
    · exact .inl (hkeeps.sent hmem)
    · exact .inr hmem
  | none =>
    obtain ⟨hsent, hcalled⟩ := hres.drive_mono qs (by omega) hreport.inv
    rcases hreport.seen (.inl rfl) with hmem | ⟨hmem, hfn⟩
    · exact .inl (hsent hmem)
    · exact .inr ⟨hcalled hmem, hfn⟩

end

end Contract

/-! ### The batch on the sequential path -/

variable (db : Db ρ)

theorem called_queryRow (i : ℕ) (w : World) (fn : List ℕ → RowFn ρ)
    (hfn : q.fn = .queryRow fn) :
  (q.report (seqResults db) i w).2.called = w.called ++ [i]
  := by
  rw [report_seq, World.called_ran]
  simp [QueuedQuery.tells, hfn]

/-- What the sequential path sends and calls, it does under `drive`. -/
theorem sequential_history (b : List (QueuedQuery ρ)) (w : World)
    (hbegin : s.transaction = true → db.beginTx = none) :
  ∃ v : World, v.sent = w.sent ∧ v.called = w.called
    ∧ (sequential db s b w).2.sent = (drive (seqResults db) 0 b v).2.sent
    ∧ (sequential db s b w).2.called = (drive (seqResults db) 0 b v).2.called
  := by
  cases hs : s.transaction with
  | false => exact ⟨w, rfl, rfl, by simp [sequential, hs], by simp [sequential, hs]⟩
  | true =>
    refine ⟨w.beginTx, rfl, rfl, ?_⟩
    rcases sequential_cases db hs b w with
      ⟨e, he, -⟩ | ⟨-, ⟨e, e', w', hdrive, -, hseq⟩ | ⟨w', hdrive, hend⟩⟩
    · simp [hbegin hs] at he
    · rw [hseq, hdrive]
      exact ⟨rfl, rfl⟩
    · rcases hend with ⟨e, -, hseq⟩ | ⟨-, hseq⟩ <;> rw [hseq, hdrive] <;> exact ⟨rfl, rfl⟩

theorem drive_seq_once (hsent : w.sent = []) (hcalled : w.called = []) :
  AtMostOnce (drive (seqResults db) 0 b w)
  := by
  obtain ⟨j, hsent', hcalled'⟩ :=
    drive_seq_inv (P := fun i v => Once i v.sent ∧ Once i v.called)
      (fun i v v' hran hv => ⟨hv.1.step (.inr hran.sent_eq), hv.2.step hran.called_eq⟩)
      0 b ⟨hsent ▸ Once.nil 0, hcalled ▸ Once.nil 0⟩
  exact ⟨hsent'.nodup, hcalled'.nodup⟩

theorem not_nodup_of_append {l' : List ℕ} {i : ℕ} (hmem : i ∈ l) (h : l ++ [i] <+: l') :
  ¬ l'.Nodup
  := by
  intro hnodup
  have := (h.sublist.nodup hnodup)
  exact (nodup_append.mp this).2.2 i hmem i (by simp) rfl

/-- A first statement that has been dealt with before is dealt with once more. -/
theorem drive_seq_twice (qs : List (QueuedQuery ρ))
    (h : 0 ∈ w.sent ∨ 0 ∈ w.called ∧ ∃ fn, q.fn = .queryRow fn) :
  ¬ AtMostOnce (drive (seqResults db) 0 (q :: qs) w)
  := by
  have hran := ran_report db q 0 w
  have hrow := called_queryRow db (q := q) 0 w
  have hgrows : Grows (q.report (seqResults db) 0 w).2
      (drive (seqResults db) 0 (q :: qs) w).2 := by
    rw [drive]
    generalize q.report (seqResults db) 0 w = r
    obtain ⟨err, w'⟩ := r
    cases err with
    | some e => apply Grows.refl
    | none => apply drive_seq_grows
  rintro ⟨hsent, hcalled⟩
  rcases h with hmem | ⟨hmem, fn, hfn⟩
  · exact not_nodup_of_append hmem (hran.sent_eq ▸ hgrows.sent) hsent
  · exact not_nodup_of_append hmem (hrow fn hfn ▸ hgrows.called) hcalled

/-! ### Sending with `WithFallback` -/

/-- On the adapter path the batch ends with an `UnsupportedError` after a callback has been
called. -/
def SpoiltBy (a : Adapter ρ) (s : Settings) (b : List (QueuedQuery ρ)) : Prop :=
  match a s b {} with
  | (.ok res, w) => Spoils res 0 b w
  | (.error _, _) => False

theorem sequential_beginTx {db : Db ρ} (b : List (QueuedQuery ρ)) (w : World)
    (hs : s.transaction = true) (hbegin : db.beginTx.isSome = true) :
  (sequential db s b w).2 = w
  := by
  obtain ⟨e, he⟩ := Option.isSome_iff_exists.mp hbegin
  simp [sequential, hs, he]

theorem sequential_atMostOnce (s : Settings) (b : List (QueuedQuery ρ))
    (hsent : w.sent = []) (hcalled : w.called = []) :
  AtMostOnce (sequential db s b w)
  := by
  by_cases hbegin : s.transaction = true ∧ db.beginTx.isSome = true
  · rw [AtMostOnce, sequential_beginTx b w hbegin.1 hbegin.2, hsent, hcalled]
    exact ⟨nodup_nil, nodup_nil⟩
  obtain ⟨v, hvsent, hvcalled, hseqSent, hseqCalled⟩ :=
    sequential_history db b w (by simpa using hbegin)
  rw [AtMostOnce, hseqSent, hseqCalled]
  exact drive_seq_once db (hvsent.trans hsent) (hvcalled.trans hcalled)

theorem sequential_twice {db : Db ρ} (qs : List (QueuedQuery ρ))
    (hbegin : ¬ (s.transaction = true ∧ db.beginTx.isSome = true))
    (h : 0 ∈ w.sent ∨ 0 ∈ w.called ∧ ∃ fn, q.fn = .queryRow fn) :
  ¬ AtMostOnce (sequential db s (q :: qs) w)
  := by
  obtain ⟨v, hvsent, hvcalled, hseqSent, hseqCalled⟩ :=
    sequential_history db (q :: qs) w (by simpa using hbegin)
  rw [AtMostOnce, hseqSent, hseqCalled]
  rw [← hvsent, ← hvcalled] at h
  exact drive_seq_twice db qs h

/-- `Send` with an adapter, once it has a connection. -/
theorem send_adapter (name : String) (a : Adapter ρ) (s : Settings) (hb : b ≠ []) :
  send db name none (.adapter a) s b =
    match run a s b {} with
    | (some e, w) => if s.fallback && e.asUnsupported then sequential db s b w else (some e, w)
    | (none, w) => (none, w)
  := (if_neg hb).trans rfl

/-- With an adapter that keeps the contract, each statement and each callback is run at most once,
if and only if the sequential path is not reached, or the adapter path does not end with an
`UnsupportedError` after a callback has been called. -/
theorem send_atMostOnce_iff (db : Db ρ) (name : String) (conn : Option Err) {a : Adapter ρ}
    {s : Settings} (b : List (QueuedQuery ρ)) (ha : Lawful a) (hs : s.fallback = true) :
  AtMostOnce (send db name conn (.adapter a) s b)
    ↔ conn.isSome = true ∨ (s.transaction = true ∧ db.beginTx.isSome = true)
      ∨ ¬ SpoiltBy a s b
  := by
  have hempty : ∀ err, AtMostOnce (err, ({} : World)) := fun _ => ⟨nodup_nil, nodup_nil⟩
  have hlawful := ha s b
  cases b with
  | nil =>
    have hspoilt : ¬ SpoiltBy a s [] := by
      unfold SpoiltBy
      generalize a s [] {} = r at hlawful ⊢
      obtain ⟨⟨⟩ | ⟨⟩, w⟩ := r
      · exact id
      · exact fun h => h.2 hlawful.1
    simp [send, hempty, hspoilt]
  | cons q qs =>
    have hb : q :: qs ≠ [] := cons_ne_nil q qs
    cases conn with
    | some e => simp [send, hempty]
    | none =>
      rw [send_adapter db name a s hb, hs]
      unfold SpoiltBy run
      generalize a s (q :: qs) {} = r at hlawful ⊢
      obtain ⟨e | res, w⟩ := r
      · -- the adapter has refused or failed, before any callback
        obtain ⟨hcalled, hnodup, hrefused⟩ := hlawful
        simp only [Bool.true_and, not_false_eq_true, or_true, iff_true]
        split
        · rename_i hunsupported
          exact sequential_atMostOnce db s _ (hrefused hunsupported) hcalled
        · exact ⟨hnodup, hcalled ▸ nodup_nil⟩
      obtain ⟨hcalled, Inv, Off, hres, hw⟩ := hlawful
      have hn : 0 + (q :: qs).length ≤ (q :: qs).length := by omega
      have honce := hres.drive_atMostOnce hn hw (hcalled ▸ Once.nil 0)
      have hspoils := hres.drive_of_spoils hn hw
      have hrefused := fun e => hres.drive_refused (e := e) hn hw
      have hfirst := hres.drive_first (Nat.le_refl _) hw hcalled
      dsimp only at hspoils hrefused ⊢
      generalize drive res 0 (q :: qs) w = r at honce hspoils hrefused hfirst ⊢
      obtain ⟨err, w'⟩ := r
      by_cases hspoilt : Spoils res 0 (q :: qs) w
      · obtain ⟨⟨e, rfl, hunsupported⟩, hne⟩ := hspoils hspoilt
        simp only [Bool.true_and, hunsupported, if_true, hspoilt, not_true, or_false,
          Option.isSome_none, Bool.false_eq_true, false_or]
        constructor
        · intro hatMost
          by_contra hbegin
          exact sequential_twice qs hbegin (hfirst hne) hatMost
        · rintro ⟨htx, hbegin⟩
          rw [AtMostOnce, sequential_beginTx _ _ htx hbegin]
          exact honce
      simp only [hspoilt, not_false_eq_true, or_true, iff_true]
      cases err with
      | none => exact honce
      | some e =>
        simp only [Bool.true_and]
        split
        · rename_i hunsupported
          obtain ⟨hsent, hcalled'⟩ := hrefused e hspoilt rfl hunsupported
          exact sequential_atMostOnce db s _ hsent hcalled'
        · exact honce

/-! ### The pgx adapter -/

/-- The pgx adapter keeps the contract: the server has run the pipeline before the first result is
read, and no reply is an `UnsupportedError`. -/
theorem lawful_pgx (pg : Pgx ρ) :
  Lawful pg.sendBatch
  := by
  intro s b
  unfold Pgx.sendBatch
  cases pg.isPgx with
  | false => exact ⟨rfl, nodup_nil, fun _ => rfl⟩
  | true =>
    have hpiped := pg.piped b.length {}
    generalize pg.pipeline b.length {} = r at hpiped
    have hsent : r.2.sent = attempted pg.fails (range b.length) := by
      simpa using hpiped.sent
    have hmem : ∀ i < b.length, (range i).findSome? pg.fails = none → i ∈ r.2.sent :=
      fun i hi hnone => hsent ▸ mem_attempted hi hnone
    have hnodup : r.2.sent.Nodup := by
      rw [hsent]
      exact (prefix_attempted _ _).sublist.nodup nodup_range
    refine ⟨hpiped.called, fun _ w => w.sent = r.2.sent, fun _ => False, ?_, rfl⟩
    refine
      { nodup := fun hw => hw ▸ hnodup
        call := fun _ hw => hw
        exec := fun {i w} hi hw => ?_
        query := fun {i w} hi hw => ?_
        next := fun _ _ hw => ⟨⟨rfl, List.Subset.refl _⟩, hw⟩
        close := fun {i w} hw => ⟨⟨rfl, List.Subset.refl _⟩, hw ▸ hnodup, fun e he hu => ?_⟩
        off_close := False.elim }
    · simp only [Pgx.results, replay, Pgx.tag, Pgx.rows]
      split
      · exact ⟨⟨rfl, List.Subset.refl _⟩, hw, by rintro _ ⟨⟩, by rintro e ⟨⟩ ⟨⟩⟩
      rename_i hnone
      rw [range_succ, findSome?_append, Option.or_eq_none_iff] at hnone
      exact ⟨⟨rfl, List.Subset.refl _⟩, hw, fun _ _ => hw ▸ hmem i hi hnone.1, by rintro _ ⟨⟩⟩
    · simp only [Pgx.results, replay, Pgx.tag, Pgx.rows]
      split
      · exact ⟨⟨rfl, List.Subset.refl _⟩, hw, by rintro _ ⟨⟩, by rintro e ⟨⟩ ⟨⟩⟩
      rename_i hnone
      have hbefore : (range i).findSome? pg.fails = none := by
        cases hfind : (range i).findSome? pg.fails with
        | some e => simp [hfind] at hnone
        | none => rfl
      exact ⟨⟨rfl, List.Subset.refl _⟩, hw, fun _ _ => hw ▸ hmem i hi hbefore, by rintro _ ⟨⟩⟩
    · obtain ⟨code, -, rfl⟩ := Option.map_eq_some_iff.mp he
      cases hu

/-- A pgx connection to a server that runs every statement. -/
def obliging : Pgx ℕ where
  isPgx := true
  reply _ := ⟨none, [], none, 1⟩
  commit := none

/-- The callback of an insert returns `err`. -/
def insertReturning (err : Option Err) : List (QueuedQuery ℕ) :=
  [⟨"INSERT INTO t(a) VALUES (1)", .exec fun _ _ => err⟩]

/-- The callback returns nil, which spoils nothing, and the insert is run once. -/
theorem send_atMostOnce_iff_obliging :
  (send (rejecting 0) "pgx" none (.adapter obliging.sendBatch) { fallback := true }
      (insertReturning none)).2.called = [0] ∧
    ¬ SpoiltBy obliging.sendBatch { fallback := true } (insertReturning none) ∧
    AtMostOnce (send (rejecting 0) "pgx" none (.adapter obliging.sendBatch)
      { fallback := true } (insertReturning none))
  := by
  have hspoilt : ¬ SpoiltBy obliging.sendBatch { fallback := true } (insertReturning none) := by
    rintro ⟨⟨e, hclose, -⟩, -⟩
    cases hclose
  refine ⟨rfl, hspoilt, ?_⟩
  rw [send_atMostOnce_iff (rejecting 0) "pgx" none (insertReturning none) (lawful_pgx obliging)
    rfl]
  exact .inr (.inr hspoilt)

/-- The insert has been run and committed when its callback returns an `UnsupportedError`.  `Send`
runs it a second time, and its callback too. -/
theorem unsupported_callback_repeats :
  Lawful obliging.sendBatch ∧
    (send (rejecting 1) "pgx" none (.adapter obliging.sendBatch) { fallback := true }
      (insertReturning (some (.unsupported "app" "this row" "")))).2.sent = [0, 0] ∧
    (send (rejecting 1) "pgx" none (.adapter obliging.sendBatch) { fallback := true }
      (insertReturning (some (.unsupported "app" "this row" "")))).2.called = [0, 0]
  := ⟨lawful_pgx obliging, rfl, rfl⟩

end SqlBatch
