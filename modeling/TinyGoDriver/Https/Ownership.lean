import TinyGoDriver.Https.Transport

/-!
# Who has a connection

The abstract view of the transport is the life of each connection: not dialed yet, in use by
one call, idle, detached by `closeAll`, or closed for good.  `Held` says that the places where
connections stand in the transport are in accordance with such a view, and every step takes each
connection along its life (`Pass`).  That a connection stands in one place at a time is then no
more than that the view is a function.
-/

namespace Https

open Interleaving List Function State

/-! ### The life of a connection -/

/-- Who has a connection. -/
inductive Custody where
  | undialed
  | inUse (r : ℕ)
  | idle
  | detached
  | closed
  deriving DecidableEq, Repr

/-- How a connection changes hands. -/
inductive Pass : Custody → Custody → Prop
  | dial {r : ℕ} : Pass .undialed (.inUse r)
  | lease {r : ℕ} : Pass .idle (.inUse r)
  | file {r : ℕ} : Pass (.inUse r) .idle
  | drop {r : ℕ} : Pass (.inUse r) .closed
  | evict : Pass .idle .closed
  | detach : Pass .idle .detached
  | close : Pass .detached .closed

/-- The connections change hands in the course of their lives. -/
def Passes (h h' : ℕ → Custody) : Prop := ∀ c, Relation.ReflTransGen Pass (h c) (h' c)

theorem Passes.refl (h : ℕ → Custody) : Passes h h := fun _ => .refl

theorem Passes.trans {h₁ h₂ h₃ : ℕ → Custody} (h₁₂ : Passes h₁ h₂) (h₂₃ : Passes h₂ h₃) :
  Passes h₁ h₃
  := fun c => (h₁₂ c).trans (h₂₃ c)

variable {y : Custody} {r' r : ℕ} {phase : Phase} {h : ℕ → Custody} {conns conns' : Conns}

/-- One of them does. -/
theorem Passes.update {c : ℕ} {x : Custody} (hc : h c = x) (hpass : Pass x y) :
  Passes h (Function.update h c y)
  := by
  intro c'
  rw [update_apply]
  split
  · rename_i heq
    rw [heq, hc]
    exact .single hpass
  · exact .refl

/-- The places where a connection stands: among the idle ones, with the call that holds it, and
so on. -/
def Places (items : List ℕ) (holds : ℕ → Option ℕ) (detached : List ℕ) (dialed c : ℕ) :
    Custody → Prop
  | .undialed => dialed ≤ c
  | .inUse r => holds r = some c
  | .idle => c ∈ items
  | .detached => c ∈ detached
  | .closed => False

/-- The view of who has each connection is in accordance with the places. -/
structure Held (h : ℕ → Custody) (place : ℕ → Custody → Prop) (conns : Conns) : Prop where
  of_place : ∀ c x, place c x → h c = x
  placed : ∀ c, place c (h c) ∨ h c = .closed ∧ (conns c).broken = true

/-- One connection changes hands, from `x` to `y`. -/
theorem Held.update {place place' : ℕ → Custody → Prop} (hh : Held h place conns) {c : ℕ}
    {x : Custody} (hx : place c x) (hpass : Pass x y)
    (hothers : ∀ c' ≠ c, ∀ z, place' c' z ↔ place c' z)
    (hbroken : ∀ c' ≠ c, (conns c').broken = true → (conns' c').broken = true)
    (honly : ∀ z, place' c z → z = y ∨ z ≠ x ∧ place c z)
    (hplaced : place' c y ∨ y = .closed ∧ (conns' c).broken = true) :
  ∃ h', Passes h h' ∧ Held h' place' conns'
  := by
  have hc := hh.of_place c x hx
  refine ⟨_, .update hc hpass, ?_, ?_⟩
  · intro c' z hz
    rcases eq_or_ne c' c with rfl | hne
    · rw [update_self]
      rcases honly z hz with rfl | ⟨hzx, hz⟩
      · rfl
      · exact absurd ((hh.of_place _ z hz).symm.trans hc) hzx
    · rw [update_of_ne hne]
      exact hh.of_place c' z ((hothers c' hne z).mp hz)
  · intro c'
    rcases eq_or_ne c' c with rfl | hne
    · rw [update_self]
      exact hplaced
    rw [update_of_ne hne]
    rcases hh.placed c' with hp | ⟨hclosed, hb⟩
    · exact .inl ((hothers c' hne _).mpr hp)
    · exact .inr ⟨hclosed, hbroken c' hne hb⟩

/-- The places stay as they are, and no connection is opened again. -/
theorem Held.congr {place place' : ℕ → Custody → Prop} (hh : Held h place conns)
    (hplace : ∀ c y, place' c y ↔ place c y)
    (hbroken : ∀ c, (conns c).broken = true → (conns' c).broken = true) :
  Held h place' conns'
  := by
  constructor
  · intro c y hy
    exact hh.of_place c y ((hplace c y).mp hy)
  intro c
  rcases hh.placed c with hp | ⟨hc, hb⟩
  · exact .inl ((hplace c _).mpr hp)
  · exact .inr ⟨hc, hbroken c hb⟩

section Moves

variable {h : ℕ → Custody} {items rest detached : List ℕ} {holds : ℕ → Option ℕ} {dialed : ℕ}
  {conns : Conns} {c r : ℕ}

/-- A call that takes or gives up a connection does nothing to the others. -/
theorem update_eq_some_iff {c' : ℕ} {v : Option ℕ} (hr : holds r ≠ some c') (hv : v ≠ some c') :
  Function.update holds r v r' = some c' ↔ holds r' = some c'
  := by
  rcases eq_or_ne r' r with rfl | hr'
  · simp [hr, hv]
  · rw [update_of_ne hr']

/-- An idle connection is closed. -/
theorem Held.evict (hh : Held h (Places (c :: rest) holds detached dialed) conns)
    (hc : c ∉ rest) :
  ∃ h', Passes h h' ∧ Held h' (Places rest holds detached dialed) (conns.close c)
  := by
  refine hh.update mem_cons_self .evict ?_ ?_ ?_ ?_
  · intro c' hne z
    cases z <;> simp [Places, hne]
  · exact fun c' _ hb => Conns.broken_close hb c
  · intro z hz
    cases z with
    | idle => exact absurd hz hc
    | closed => exact .inl rfl
    | _ => exact .inr ⟨nofun, hz⟩
  · exact .inr ⟨rfl, by simp [Conns.close_apply, Conn.close]⟩

/-- Some idle connections are closed. -/
theorem Held.evictAll {gone : List ℕ}
    (hh : Held h (Places (gone ++ rest) holds detached dialed) conns)
    (hnodup : (gone ++ rest).Nodup) :
  ∃ h', Passes h h' ∧ Held h' (Places rest holds detached dialed) (conns.closeAll gone)
  := by
  induction gone generalizing h conns with
  | nil => exact ⟨h, .refl h, hh⟩
  | cons c gone ih =>
    obtain ⟨hc, hnodup⟩ := nodup_cons.mp hnodup
    obtain ⟨h₁, hpass₁, hh₁⟩ := hh.evict hc
    obtain ⟨h₂, hpass₂, hh₂⟩ := ih hh₁ hnodup
    exact ⟨h₂, hpass₁.trans hpass₂, hh₂⟩

/-- A call takes an idle connection. -/
theorem Held.lease (hh : Held h (Places (c :: rest) holds detached dialed) conns)
    (hc : c ∉ rest) (hr : holds r = none) :
  ∃ h', Passes h h'
    ∧ Held h' (Places rest (Function.update holds r (some c)) detached dialed) conns
  := by
  refine hh.update mem_cons_self (.lease (r := r)) ?_ ?_ ?_ ?_
  · intro c' hne z
    cases z with
    | inUse r' => exact update_eq_some_iff (by simp [hr]) (by simpa using hne.symm)
    | _ => simp [Places, hne]
  · exact fun _ _ hb => hb
  · intro z hz
    cases z with
    | idle => exact absurd hz hc
    | inUse r' =>
      rcases eq_or_ne r' r with rfl | hr'
      · exact .inl rfl
      · exact .inr ⟨nofun, by simpa [Places, hr'] using hz⟩
    | _ => exact .inr ⟨nofun, hz⟩
  · exact .inl (by simp [Places])

section

variable (hh : Held h (Places items holds detached dialed) conns)
include hh

/-- A call dials a connection. -/
theorem Held.dial (conns' : Conns)
    (hr : holds r = none) (hconns : ∀ c ≠ dialed, conns' c = conns c) :
  ∃ h', Passes h h'
    ∧ Held h' (Places items (Function.update holds r (some dialed)) detached (dialed + 1)) conns'
  := by
  refine hh.update (x := .undialed) (le_refl dialed) (.dial (r := r)) ?_ ?_ ?_ ?_
  · intro c' hne z
    cases z with
    | inUse r' => exact update_eq_some_iff (by simp [hr]) (by simpa using hne.symm)
    | undialed =>
      simp only [Places]
      omega
    | _ => simp [Places]
  · intro c' hne hb
    rw [hconns c' hne]
    exact hb
  · intro z hz
    cases z with
    | undialed =>
      simp only [Places] at hz
      omega
    | inUse r' =>
      rcases eq_or_ne r' r with rfl | hr'
      · exact .inl rfl
      · exact .inr ⟨nofun, by simpa [Places, hr'] using hz⟩
    | _ => exact .inr ⟨nofun, hz⟩
  · exact .inl (by simp [Places])

/-- A call gives up its connection, which then is idle or closed. -/
theorem Held.release (items' : List ℕ)
    (conns' : Conns) (hr : holds r = some c) (hpass : Pass (.inUse r) y)
    (hitems : ∀ c' ≠ c, c' ∈ items' ↔ c' ∈ items)
    (hidle : y = .idle ∧ c ∈ items' ∨ y = .closed ∧ c ∉ items' ∧ (conns' c).broken = true)
    (hbroken : ∀ c' ≠ c, (conns c').broken = true → (conns' c').broken = true) :
  ∃ h', Passes h h' ∧ Held h' (Places items' (Function.update holds r none) detached dialed) conns'
  := by
  refine hh.update (x := .inUse r) hr hpass ?_ hbroken ?_ ?_
  · intro c' hne z
    cases z with
    | inUse r' => exact update_eq_some_iff (by simpa [hr] using hne.symm) nofun
    | idle => exact hitems c' hne
    | _ => exact Iff.rfl
  · intro z hz
    cases z with
    | inUse r' =>
      rcases eq_or_ne r' r with rfl | hr'
      · simp [Places] at hz
      · refine .inr ⟨by simpa using hr', by simpa [Places, hr'] using hz⟩
    | idle =>
      rcases hidle with ⟨rfl, -⟩ | ⟨-, hc, -⟩
      · exact .inl rfl
      · exact absurd hz hc
    | _ => exact .inr ⟨nofun, hz⟩
  · rcases hidle with ⟨rfl, hc⟩ | ⟨rfl, -, hc⟩
    · exact .inl hc
    · exact .inr ⟨rfl, hc⟩

/-- A detached connection is closed. -/
theorem Held.closeDetached (hc : c ∈ detached) (hnodup : detached.Nodup) :
  ∃ h', Passes h h' ∧ Held h' (Places items holds (detached.erase c) dialed) (conns.close c)
  := by
  refine hh.update (x := .detached) hc .close ?_ ?_ ?_ ?_
  · intro c' hne z
    cases z with
    | detached => exact mem_erase_of_ne hne
    | _ => exact Iff.rfl
  · exact fun c' _ hb => Conns.broken_close hb c
  · intro z hz
    cases z with
    | detached => exact absurd hz hnodup.not_mem_erase
    | closed => exact .inl rfl
    | _ => exact .inr ⟨nofun, hz⟩
  · exact .inr ⟨rfl, by simp [Conns.close_apply, Conn.close]⟩

/-- All idle connections are detached. -/
theorem Held.detach (hnodup : items.Nodup) :
  ∃ h', Passes h h' ∧ Held h' (Places [] holds (detached ++ items) dialed) conns
  := by
  induction items generalizing h detached with
  | nil =>
    rw [append_nil]
    exact ⟨h, .refl h, hh⟩
  | cons c rest ih =>
    obtain ⟨hc, hnodup⟩ := nodup_cons.mp hnodup
    obtain ⟨h₁, hpass₁, hh₁⟩ : ∃ h₁, Passes h h₁
        ∧ Held h₁ (Places rest holds (detached ++ [c]) dialed) conns := by
      refine hh.update mem_cons_self .detach ?_ ?_ ?_ ?_
      · intro c' hne z
        cases z <;> simp [Places, hne]
      · exact fun _ _ hb => hb
      · intro z hz
        cases z with
        | idle => exact absurd hz hc
        | detached => exact .inl rfl
        | _ => exact .inr ⟨nofun, hz⟩
      · exact .inl (mem_append_right _ mem_cons_self)
    obtain ⟨h₂, hpass₂, hh₂⟩ := ih hh₁ hnodup
    rw [append_assoc] at hh₂
    exact ⟨h₂, hpass₁.trans hpass₂, hh₂⟩

end

end Moves

/-! ### The transport keeps to it -/

/-- The places where connections stand. -/
def State.place (s : State) : ℕ → Custody → Prop :=
  Places s.pool.idle.items (Phase.conn ∘ s.phase) s.detached s.dialed

/-- The transport is in accordance with the view `h`, and its pool is as it should be. -/
structure View (t : Transport) (s : State) (h : ℕ → Custody) : Prop where
  held : Held h s.place s.conns
  valid : s.pool.Valid t.maxIdleConnsPerHost s.conns
  nodup : s.detached.Nodup

theorem Transport.maxIdleConnsPerHost_nonneg (t : Transport) :
  0 ≤ t.maxIdleConnsPerHost
  := by
  rw [Transport.maxIdleConnsPerHost]
  split <;> omega

theorem View.init (t : Transport) : View t State.init fun _ => .undialed where
  held := by
    constructor
    · intro c x hx
      cases x <;> simp_all [State.place, Places, State.init, Pool.empty, Phase.conn]
    · exact fun c => .inl (Nat.zero_le c)
  valid := .empty t.maxIdleConnsPerHost_nonneg
  nodup := nodup_nil

/-- What a connection is for the pool stays as it is, but it may be closed. -/
def Conn.Stays (c c' : Conn) : Prop := c'.key = c.key ∧ (c.broken = true → c'.broken = true)

theorem Conn.Stays.refl (c : Conn) : c.Stays c := ⟨rfl, id⟩

theorem Conn.stays_close (c : Conn) : c.Stays c.close := ⟨rfl, fun _ => rfl⟩

theorem Conn.Kept.stays {c c' : Conn} (h : c.Kept c') : c.Stays c' := ⟨h.key, h.broken.trans⟩

variable {s : State} {pc : ℕ} {t : Transport}

theorem State.stays_setConn {c : Conn} (h : (s.conns pc).Stays c) (c' : ℕ) :
  (s.conns c').Stays ((s.setConn pc c).conns c')
  := by
  rw [setConn_conns, update_apply]
  split
  · rename_i heq
    rw [heq]
    exact h
  · exact .refl _

/-- A call that holds the same connection as before, or none as before. -/
theorem conn_comp_update {f : ℕ → Phase} (h : phase.conn = (f r).conn) :
  Phase.conn ∘ Function.update f r phase = Phase.conn ∘ f
  := by
  have hsame := update_eq_self r (Phase.conn ∘ f)
  rw [comp_update, h]
  exact hsame

/-- It changes nothing. -/
theorem View.move (hs : View t s h) (hconn : phase.conn = (s.phase r).conn) (q : Call) :
  View t (s.move r phase q) h
  where
  held := by
    rw [place, move_phase, conn_comp_update hconn]
    exact hs.held
  valid := hs.valid
  nodup := hs.nodup

/-- Nor does what goes on at a connection. -/
theorem View.setConn (hs : View t s h) {c : Conn} (hc : (s.conns pc).Stays c) :
  View t (s.setConn pc c) h
  where
  held := hs.held.congr (fun _ _ => Iff.rfl) fun c' => (State.stays_setConn hc c').2
  valid := hs.valid.congr fun c' _ => (State.stays_setConn hc c').1
  nodup := hs.nodup

/-- What is in use is not idle. -/
theorem View.not_idle (hs : View t s h) (hr : (s.phase r).conn = some pc) :
  pc ∉ s.pool.idle.items
  := by
  intro hpc
  cases (hs.held.of_place pc .idle hpc).symm.trans (hs.held.of_place pc (.inUse r) hr)

/-- What one call uses no other does. -/
theorem View.one_holder (hs : View t s h) (hr : (s.phase r).conn = some pc)
    (hr' : (s.phase r').conn = some pc) :
  r = r'
  := by
  cases (hs.held.of_place pc (.inUse r) hr).symm.trans (hs.held.of_place pc (.inUse r') hr')
  rfl

/-- A call gives up its connection and closes it. -/
theorem View.close (hs : View t s h) (hr : (s.phase r).conn = some pc)
    (hphase : phase.conn = none) (q : Call) :
  ∃ h', Passes h h' ∧ View t ((s.move r phase q).setConn pc (s.conns pc).close) h'
  := by
  obtain ⟨h', hpass, hh⟩ := hs.held.release s.pool.idle.items (s.conns.close pc)
    hr .drop (fun _ _ => Iff.rfl)
    (.inr ⟨rfl, hs.not_idle hr, by simp [Conns.close_apply, Conn.close]⟩)
    (fun _ _ hb => Conns.broken_close hb pc)
  refine ⟨h', hpass, ?_, ?_, hs.nodup⟩
  · rw [← hphase, ← comp_update] at hh
    exact hh
  · exact hs.valid.congr fun c _ => (stays_setConn (Conn.stays_close (s.conns pc)) c).1

/-- The idle connections become fewer, with those that are gone closed. -/
theorem Held.shrink {items gone rest detached : List ℕ} {holds : ℕ → Option ℕ} {dialed : ℕ}
    {conns : Conns} (hh : Held h (Places items holds detached dialed) conns)
    (hnodup : items.Nodup) (hperm : items.Perm (gone ++ rest)) :
  ∃ h', Passes h h' ∧ Held h' (Places rest holds detached dialed) (conns.closeAll gone)
  := by
  have hh' : Held h (Places (gone ++ rest) holds detached dialed) conns := by
    refine hh.congr (fun c z => ?_) fun _ hb => hb
    cases z with
    | idle => exact hperm.mem_iff.symm
    | _ => exact Iff.rfl
  exact hh'.evictAll (hperm.nodup_iff.mp hnodup)

/-- Every step takes each connection along its life. -/
theorem View.step {a : Action} {s' : State} (hstep : step t a s = some s') (hs : View t s h) :
  ∃ h', Passes h h' ∧ View t s' h'
  := by
  cases acts_of_step hstep with
  | start hphase | getBodyFails hphase | leaseNone hphase | dialFails hphase | retry hphase
  | giveUp hphase | putRefused hphase => exact ⟨h, .refl h, hs.move (by rw [hphase]; rfl) _⟩
  | leaseMiss hphase hget =>
    obtain ⟨dead, hperm, rfl, hvalid, -⟩ := Pool.get_spec hs.valid hget
    obtain ⟨h', hpass, hh⟩ := hs.held.shrink hs.valid.nodup hperm
    refine ⟨h', hpass, ?_, hvalid, hs.nodup⟩
    rw [place, move_phase, conn_comp_update (by rw [hphase]; rfl)]
    exact hh
  | leaseHit hphase hget =>
    obtain ⟨dead, hperm, rfl, hvalid, -⟩ := Pool.get_spec hs.valid hget
    have hnodup := (hperm.nodup_iff.mp hs.valid.nodup).of_append_right
    obtain ⟨h₁, hpass₁, hh₁⟩ := hs.held.shrink hs.valid.nodup hperm
    obtain ⟨h₂, hpass₂, hh₂⟩ := hh₁.lease (nodup_cons.mp hnodup).1
      (by rw [comp_apply, hphase]; rfl)
    refine ⟨h₂, hpass₁.trans hpass₂, ?_, hvalid, hs.nodup⟩
    rw [place, move_phase, comp_update]
    exact hh₂
  | dial hphase =>
    rename_i r
    obtain ⟨h', hpass, hh⟩ := hs.held.dial
      (update s.conns s.dialed (newPersistConn (s.call r).req.key))
      (by rw [comp_apply, hphase]; rfl) fun c hne => update_of_ne hne _ _
    refine ⟨h', hpass, ?_, hs.valid.congr ?_, hs.nodup⟩
    · change Held h' (Places _ (Phase.conn ∘ update s.phase r _) _ _) _
      rw [comp_update]
      exact hh
    intro c hc
    have hne : c ≠ s.dialed := by
      rintro rfl
      cases (hs.held.of_place _ .idle hc).symm.trans (hs.held.of_place _ .undialed le_rfl)
    rw [setConn_conns, update_of_ne hne]
    rfl
  | work hphase hwork =>
    exact ⟨h, .refl h, (hs.move (by rw [hphase]; rfl) _).setConn hwork.kept.stays⟩
  | abandon hphase | drop hphase => exact hs.close (by rw [hphase]; rfl) rfl _
  | put hphase hput =>
    rename_i r pc order pool conns
    have hr : (s.phase r).conn = some pc := by rw [hphase]; rfl
    obtain ⟨evicted, rest, hperm, hperm', rfl, hvalid⟩ :=
      Pool.put_spec hs.valid (hs.not_idle hr) hput
    obtain ⟨h₁, hpass₁, hh₁⟩ := hs.held.shrink hs.valid.nodup hperm
    obtain ⟨h₂, hpass₂, hh₂⟩ := hh₁.release
      pool.idle.items (update (s.conns.closeAll evicted) pc
        { s.conns pc with idleSince := s.now })
      hr .file
      (fun c hne => by rw [hperm'.mem_iff, mem_cons, or_iff_right hne])
      (.inl ⟨rfl, hperm'.mem_iff.mpr mem_cons_self⟩)
      (fun c hne hb => by rw [update_of_ne hne]; exact hb)
    refine ⟨h₂, hpass₁.trans hpass₂, ?_, hvalid, hs.nodup⟩
    rw [place, move_phase, comp_update]
    exact hh₂
  | closeIdle =>
    obtain ⟨h', hpass, hh⟩ := hs.held.detach hs.valid.nodup
    refine ⟨h', hpass, hh, .empty t.maxIdleConnsPerHost_nonneg, ?_⟩
    refine List.Nodup.append hs.nodup hs.valid.nodup fun c hdetached hidle => ?_
    cases (hs.held.of_place c .detached hdetached).symm.trans (hs.held.of_place c .idle hidle)
  | closeDetached hmem =>
    obtain ⟨h', hpass, hh⟩ := hs.held.closeDetached hmem hs.nodup
    refine ⟨h', hpass, hh, hs.valid.congr ?_, hs.nodup.erase _⟩
    exact fun c _ => (stays_setConn (Conn.stays_close _) c).1
  | fire hw => exact ⟨h, .refl h, (hs.move rfl _).setConn (Conn.stays_close _)⟩
  | leave | cancel => exact ⟨h, .refl h, hs.move rfl _⟩
  | reply | hangUp => exact ⟨h, .refl h, hs.setConn ⟨rfl, id⟩⟩
  | tick => exact ⟨h, .refl h, { hs with }⟩

/-- Whatever the parties do, there is a view that the transport is in accordance with. -/
theorem exists_view {as : List Action} (hexec : exec (step t) as State.init = some s) :
  ∃ h, View t s h
  := by
  refine exec_inv (P := fun s => ∃ h, View t s h) ?_ hexec ⟨_, View.init t⟩
  rintro a s s' hstep ⟨h, hs⟩
  obtain ⟨h', -, hs'⟩ := hs.step hstep
  exact ⟨h', hs'⟩

/-- No call of `RoundTrip` is under way, every body has been closed, and no call of
`CloseIdleConnections` is at work. -/
def State.Settled (s : State) : Prop :=
  (∀ r, s.phase r = .idle ∨ s.phase r = .failed ∨ s.phase r = .closed) ∧ s.detached = []

/-- Then every connection that was dialed is idle or closed. -/
theorem View.settled (hs : View t s h) (hsettled : s.Settled) (hpc : pc < s.dialed) :
  pc ∈ s.pool.idle.items ∨ (s.conns pc).broken = true
  := by
  rcases hs.held.placed pc with hplace | ⟨-, hbroken⟩
  · cases hx : h pc with
    | undialed =>
      rw [hx] at hplace
      exact absurd hpc (Nat.not_lt.mpr hplace)
    | inUse r =>
      rw [hx] at hplace
      have hconn : (s.phase r).conn = some pc := hplace
      rcases hsettled.1 r with hr | hr | hr
      all_goals
        rw [hr] at hconn
        cases hconn
    | idle =>
      rw [hx] at hplace
      exact .inl hplace
    | detached =>
      rw [hx] at hplace
      have hmem : pc ∈ s.detached := hplace
      rw [hsettled.2] at hmem
      cases hmem
    | closed =>
      rw [hx] at hplace
      cases hplace
  · exact .inr hbroken

/-- The pool through any course of events: its total counts the idle connections, which are at
most `maxIdleConnsTotal`; no bucket is empty or too large; no connection is idle and in use, or
in use twice; `get` takes a connection of its bucket that has not been idle for too long; and
when all is done no connection has been lost. -/
theorem pool_ownership (t : Transport) (as : List Action) (s : State)
    (hexec : exec (step t) as State.init = some s) :
  (s.pool.total = s.pool.idle.items.length ∧ s.pool.idle.items.Nodup ∧ s.pool.total ≤ 32)
    ∧ (∀ key l, s.pool.idle.lookup key = some l → l ≠ [] ∧ (l.length : ℤ) ≤ t.maxIdleConnsPerHost)
    ∧ (∀ r pc, (s.phase r).conn = some pc → pc ∉ s.pool.idle.items)
    ∧ (∀ r r' pc, (s.phase r).conn = some pc → (s.phase r').conn = some pc → r = r')
    ∧ (∀ key now pc pool conns,
        s.pool.get key t.idleConnTimeout now s.conns = (some pc, pool, conns) →
        pc ∈ s.pool.idle.bucket key ∧ (s.conns pc).key = key
          ∧ now - (s.conns pc).idleSince < t.idleConnTimeout)
    ∧ (s.Settled → ∀ pc < s.dialed, pc ∈ s.pool.idle.items ∨ (s.conns pc).broken = true)
  := by
  obtain ⟨h, hs⟩ := exists_view hexec
  refine ⟨⟨hs.valid.total, hs.valid.nodup, hs.valid.le_max⟩, ?_, ?_, ?_, ?_, ?_⟩
  · intro key l hl
    have hlimit := hs.valid.le_limit key
    rw [Filing.bucket, hl] at hlimit
    exact ⟨hs.valid.tidy key l hl, hlimit⟩
  · exact fun r pc hr => hs.not_idle hr
  · exact fun r r' pc hr hr' => hs.one_holder hr hr'
  · intro key now pc pool conns hget
    obtain ⟨dead, -, rfl, -, hfound⟩ := Pool.get_spec hs.valid hget
    obtain ⟨hmem, husable⟩ := hfound pc rfl
    rw [Conn.usable, Bool.and_eq_true, decide_eq_true_eq, Conns.closeAll_idleSince] at husable
    exact ⟨hmem, hs.valid.filed key pc hmem, husable.1⟩
  · exact fun hsettled pc hpc => hs.settled hsettled hpc

/-- After a request has been answered the pool counts one connection, and it holds one. -/
theorem pool_ownership_answered :
  ∃ s, exec (step defaultTransport) (answered 0 0 plainGet noContent) State.init = some s
    ∧ s.dialed = 1 ∧ s.phase 0 = .closed ∧ s.pool.total = 1 ∧ s.pool.idle.items.length = 1
  := by
  refine ⟨_, rfl, rfl, rfl, rfl, ?_⟩
  have htotal := (pool_ownership defaultTransport (answered 0 0 plainGet noContent) _ rfl).1.1
  exact (Int.ofNat.inj htotal).symm

end Https
