import TinyGoDriver.Https.Exchange
import TinyGoDriver.Lib.Filing

/-!
# The connection pool

`connPool` keeps idle connections under their keys, at most `maxIdleConnsTotal` of them.  Its
functions run under the lock of the pool, so each is one step.  Connections are numbers, and
`conns` tells what each of them is.

The order in which Go visits the keys of a map is open, and `evictOldest` takes it as an
argument.
-/

namespace Https

open List

/-- The connections, by number. -/
abbrev Conns := ℕ → Conn

def maxIdleConnsTotal : ℤ := 32

/-- `connPool`. -/
structure Pool where
  idle : Filing String ℕ
  total : ℤ

/-- The zero value. -/
def Pool.empty : Pool := { idle := ∅, total := 0 }

/-! ### Closing connections -/

def Conns.close (conns : Conns) (pc : ℕ) : Conns := Function.update conns pc (conns pc).close

def Conns.closeAll (conns : Conns) (pcs : List ℕ) : Conns := pcs.foldl Conns.close conns

theorem Conns.close_apply (conns : Conns) (pc c : ℕ) :
  conns.close pc c = if c = pc then (conns c).close else conns c
  := by
  rw [Conns.close, Function.update_apply]
  split
  · rename_i h
    rw [h]
  · rfl

variable {conns conns' : Conns} {limit now : ℤ} {p p' : Pool} {order : List String}

/-- No connection is opened again. -/
theorem Conns.broken_close {c : ℕ} (hc : (conns c).broken = true) (pc : ℕ) :
  (conns.close pc c).broken = true
  := by
  rw [close_apply]
  split
  · rfl
  · exact hc

theorem Conns.closeAll_apply (conns : Conns) (pcs : List ℕ) (c : ℕ) :
  conns.closeAll pcs c = if c ∈ pcs then (conns c).close else conns c
  := by
  induction pcs generalizing conns with
  | nil => rfl
  | cons pc pcs ih =>
    rw [Conns.closeAll, foldl_cons, ← Conns.closeAll, ih, Conns.close_apply]
    by_cases hpc : c = pc
    · simp [hpc, Conn.close]
    · simp [hpc]

@[simp]
theorem Conns.closeAll_key (conns : Conns) (pcs : List ℕ) (c : ℕ) :
  (conns.closeAll pcs c).key = (conns c).key
  := by
  rw [closeAll_apply]
  split <;> rfl

@[simp]
theorem Conns.closeAll_idleSince (conns : Conns) (pcs : List ℕ) (c : ℕ) :
  (conns.closeAll pcs c).idleSince = (conns c).idleSince
  := by
  rw [closeAll_apply]
  split <;> rfl

/-! ### The functions of the pool -/

/-- `get` takes such a connection. -/
def Conn.usable (timeout now : ℤ) (c : Conn) : Bool :=
  decide (now - c.idleSince < timeout) && !c.broken

/-- The loop of `get`, over the bucket from its end: what it takes, what it leaves, the
connections and the total. -/
def getLoop (timeout now : ℤ) : List ℕ → Conns → ℤ → Option ℕ × List ℕ × Conns × ℤ
  | [], conns, total => (none, [], conns, total)
  | pc :: list, conns, total =>
    if (conns pc).usable timeout now then (some pc, list, conns, total - 1)
    else getLoop timeout now list (conns.close pc) (total - 1)

/-- `connPool.get`. -/
def Pool.get (p : Pool) (key : String) (timeout now : ℤ) (conns : Conns) :
    Option ℕ × Pool × Conns :=
  let (found, list, conns, total) :=
    getLoop timeout now (p.idle.bucket key).reverse conns p.total
  (found, { idle := p.idle.store key list.reverse, total := total }, conns)

/-- An idle connection with its place in the pool. -/
structure Entry where
  pc : ℕ
  key : String
  index : ℕ
  deriving DecidableEq, Repr

/-- The entries, in the order of the loops of `evictOldest`. -/
def Pool.entries (p : Pool) (order : List String) : List Entry :=
  order.flatMap fun key => (p.idle.bucket key).zipIdx.map fun (pc, i) => ⟨pc, key, i⟩

/-- The entry to evict, as far as `evictOldest` has looked. -/
def older (conns : Conns) (oldest : Option Entry) (e : Entry) : Option Entry :=
  match oldest with
  | none => some e
  | some o => if (conns e.pc).idleSince < (conns o.pc).idleSince then some e else some o

/-- `connPool.evictOldest`, if there is something to evict. -/
def Pool.evictOldest (p : Pool) (order : List String) (conns : Conns) : Option (Pool × Conns) :=
  match (p.entries order).foldl (older conns) none with
  | none => none
  | some oldest =>
    some ({ idle := p.idle.store oldest.key ((p.idle.bucket oldest.key).eraseIdx oldest.index)
            total := p.total - 1 }, conns.close oldest.pc)

/-- Room for one more connection. -/
def Pool.makeRoom (p : Pool) (order : List String) (conns : Conns) : Option (Pool × Conns) :=
  if maxIdleConnsTotal ≤ p.total then p.evictOldest order conns else some (p, conns)

/-- Append to the bucket of the key of the connection. -/
def Pool.append (p : Pool) (pc : ℕ) (now : ℤ) (conns : Conns) : Pool × Conns :=
  ({ idle := p.idle.store (conns pc).key (p.idle.bucket (conns pc).key ++ [pc])
     total := p.total + 1 }, Function.update conns pc { conns pc with idleSince := now })

/-- `connPool.put`, if the pool takes the connection. -/
def Pool.put (p : Pool) (pc : ℕ) (maxPerHost : ℤ) (order : List String) (now : ℤ) (conns : Conns) :
    Option (Pool × Conns) :=
  if maxPerHost ≤ (p.idle.bucket (conns pc).key).length then none
  else (p.makeRoom order conns).map fun (p, conns) => p.append pc now conns

/-! ### What they keep -/

/-- The pool is as it should be: the total counts it, nothing is idle twice, and every
connection stands under its key. -/
structure Pool.Valid (limit : ℤ) (conns : Conns) (p : Pool) : Prop where
  total : p.total = p.idle.items.length
  le_max : p.total ≤ maxIdleConnsTotal
  nodup : p.idle.items.Nodup
  tidy : p.idle.Tidy
  le_limit : ∀ key, ((p.idle.bucket key).length : ℤ) ≤ limit
  filed : ∀ key, ∀ pc ∈ p.idle.bucket key, (conns pc).key = key

theorem Pool.Valid.empty (hlimit : 0 ≤ limit) :
  Pool.empty.Valid limit conns
  where
  total := rfl
  le_max := by decide
  nodup := List.nodup_nil
  tidy := Filing.tidy_empty
  le_limit := fun _ => hlimit
  filed := by simp [Pool.empty]

/-- Only the keys of the connections matter. -/
theorem Pool.Valid.congr (hp : p.Valid limit conns)
    (hkey : ∀ pc ∈ p.idle.items, (conns' pc).key = (conns pc).key) :
  p.Valid limit conns'
  :=
  { hp with
    filed := fun key pc hpc =>
      (hkey pc (Filing.mem_items.mpr ⟨key, hpc⟩)).trans (hp.filed key pc hpc) }

variable {timeout total total' : ℤ} {l list : List ℕ} {found : Option ℕ}

theorem getLoop_spec (h : getLoop timeout now l conns total = (found, list, conns', total')) :
  ∃ dead, l = dead ++ (found.toList ++ list) ∧ conns' = conns.closeAll dead
    ∧ total' + dead.length + found.toList.length = total
    ∧ (found = none → list = [])
    ∧ ∀ pc ∈ found, (conns' pc).usable timeout now = true
  := by
  induction l generalizing conns total with
  | nil =>
    cases h
    exact ⟨[], rfl, rfl, by simp, fun _ => rfl, by simp⟩
  | cons pc l ih =>
    rw [getLoop] at h
    split at h
    · rename_i husable
      cases h
      refine ⟨[], rfl, rfl, by simp, by simp, ?_⟩
      rintro _ ⟨⟩
      exact husable
    · obtain ⟨dead, rfl, rfl, htotal, hnone, hfound⟩ := ih h
      refine ⟨pc :: dead, rfl, rfl, ?_, hnone, hfound⟩
      rw [length_cons]
      omega

theorem dropWhile_congr_of_mem {p q : ℕ → Bool} (h : ∀ x ∈ l, p x = q x) :
  l.dropWhile p = l.dropWhile q
  := by
  induction l with
  | nil => rfl
  | cons x l ih =>
    rw [dropWhile_cons, dropWhile_cons, h x mem_cons_self,
      ih fun y hy => h y (mem_cons_of_mem x hy)]

/-- `get` passes over the connections that cannot be used, and takes the first that can. -/
theorem getLoop_dropWhile (hnodup : l.Nodup)
    (h : getLoop timeout now l conns total = (found, list, conns', total')) :
  l.dropWhile (fun pc => !(conns pc).usable timeout now) = found.toList ++ list
  := by
  induction l generalizing conns total with
  | nil =>
    cases h
    rfl
  | cons pc l ih =>
    obtain ⟨hpc, hnodup⟩ := nodup_cons.mp hnodup
    rw [getLoop] at h
    split at h
    · rename_i husable
      cases h
      simp [husable]
    rename_i husable
    rw [dropWhile_cons_of_pos (by simpa using husable), ← ih hnodup h]
    refine dropWhile_congr_of_mem fun c hc => ?_
    have hne : c ≠ pc := by
      rintro rfl
      exact hpc hc
    rw [Conns.close_apply, if_neg hne]

/-- What `get` does: it closes some connections of the bucket and takes out another, which can
be used. -/
theorem Pool.get_spec {key : String} (hp : p.Valid limit conns)
    (h : p.get key timeout now conns = (found, p', conns')) :
  ∃ dead, p.idle.items.Perm (dead ++ (found.toList ++ p'.idle.items))
    ∧ conns' = conns.closeAll dead ∧ p'.Valid limit conns'
    ∧ ∀ pc ∈ found, pc ∈ p.idle.bucket key ∧ (conns' pc).usable timeout now = true
  := by
  rw [Pool.get] at h
  obtain ⟨found', list, conns'', total, hloop⟩ :
      ∃ found list conns'' total, getLoop timeout now (p.idle.bucket key).reverse conns p.total
        = (found, list, conns'', total) := ⟨_, _, _, _, rfl⟩
  rw [hloop] at h
  cases h
  obtain ⟨dead, hbucket, rfl, htotal, -, hfound⟩ := getLoop_spec hloop
  have hold : (p.idle.bucket key).Perm ((dead ++ found.toList) ++ list.reverse) := by
    refine (reverse_perm _).symm.trans ?_
    rw [hbucket, ← append_assoc]
    exact (reverse_perm list).symm.append_left _
  obtain ⟨rest, hitems, hitems'⟩ := Filing.items_store_of_perm _ [] hold (.refl _)
  have hperm := hitems.trans (hitems'.symm.append_left _)
  have hlen : p.idle.items.length
      = dead.length + found.toList.length + (p.idle.store key list.reverse).items.length := by
    simpa [Nat.add_assoc] using hperm.length_eq
  have hsub : ∀ pc ∈ list.reverse, pc ∈ p.idle.bucket key := fun pc hpc =>
    hold.mem_iff.mpr (mem_append_right _ hpc)
  refine ⟨dead, by simpa using hperm, rfl, ?_, ?_⟩
  · constructor
    · have := hp.total
      simp only
      omega
    · have := hp.le_max
      simp only
      omega
    · exact (hperm.nodup_iff.mp hp.nodup).of_append_right
    · exact hp.tidy.store key _
    · refine Filing.forall_bucket_store (P := fun _ l => (l.length : ℤ) ≤ limit) ?_ hp.le_limit
      have hlength := hold.length_eq
      have hlimit := hp.le_limit key
      rw [length_append] at hlength
      omega
    · refine Filing.forall_bucket_store
        (P := fun k l => ∀ pc ∈ l, (conns.closeAll dead pc).key = k) ?_ ?_
      · intro pc hpc
        rw [Conns.closeAll_key]
        exact hp.filed key pc (hsub pc hpc)
      · intro k pc hpc
        rw [Conns.closeAll_key]
        exact hp.filed k pc hpc
  · intro pc hpc
    refine ⟨hold.mem_iff.mpr ?_, hfound pc hpc⟩
    simp [Option.mem_toList.mpr hpc]

/-- What `evictOldest` finds is in the pool. -/
theorem foldl_older_mem {es : List Entry} {oldest : Option Entry} {e : Entry}
    (h : es.foldl (older conns) oldest = some e) :
  oldest = some e ∨ e ∈ es
  := by
  induction es generalizing oldest with
  | nil => exact .inl h
  | cons x es ih =>
    rcases ih h with hx | he
    · cases oldest with
      | none =>
        cases hx
        exact .inr mem_cons_self
      | some o =>
        rw [older] at hx
        split at hx
        · cases hx
          exact .inr mem_cons_self
        · exact .inl hx
    · exact .inr (mem_cons_of_mem x he)

theorem Pool.mem_entries {e : Entry} (h : e ∈ p.entries order) :
  (p.idle.bucket e.key)[e.index]? = some e.pc
  := by
  simp only [Pool.entries, mem_flatMap, mem_map] at h
  obtain ⟨key, -, ⟨pc, i⟩, hmem, rfl⟩ := h
  exact mem_zipIdx_iff_getElem?.mp hmem

/-- What `evictOldest` does: it takes one connection out and closes it. -/
theorem Pool.evictOldest_spec (hp : p.Valid limit conns)
    (h : p.evictOldest order conns = some (p', conns')) :
  ∃ pc, p.idle.items.Perm (pc :: p'.idle.items) ∧ conns' = conns.closeAll [pc]
    ∧ p'.Valid limit conns' ∧ p'.total + 1 = p.total
    ∧ ∀ key, (p'.idle.bucket key).length ≤ (p.idle.bucket key).length
  := by
  rw [Pool.evictOldest] at h
  split at h
  · cases h
  rename_i e he
  cases h
  rcases foldl_older_mem he with he | he
  · cases he
  have hget := Pool.mem_entries he
  obtain ⟨hlt, hpc⟩ := List.getElem?_eq_some_iff.mp hget
  have hold : (p.idle.bucket e.key).Perm ([e.pc] ++ (p.idle.bucket e.key).eraseIdx e.index) := by
    rw [← hpc]
    exact (List.getElem_cons_eraseIdx_perm hlt).symm
  obtain ⟨rest, hitems, hitems'⟩ := Filing.items_store_of_perm _ [] hold (.refl _)
  rw [List.nil_append] at hitems'
  have hperm := hitems.trans (hitems'.symm.append_left _)
  have hlen := hperm.length_eq
  have hle : ((p.idle.bucket e.key).eraseIdx e.index).length ≤ (p.idle.bucket e.key).length :=
    List.length_eraseIdx_le _ _
  have hbucket : ∀ key, ((p.idle.store e.key ((p.idle.bucket e.key).eraseIdx e.index)).bucket
      key).length ≤ (p.idle.bucket key).length :=
    Filing.forall_bucket_store (P := fun k l => l.length ≤ (p.idle.bucket k).length) hle
      (fun _ => le_rfl)
  refine ⟨e.pc, hperm, rfl, ?_, by simp, hbucket⟩
  constructor
  · have := hp.total
    simp only [List.singleton_append, List.length_cons] at hlen ⊢
    omega
  · have := hp.le_max
    simp only
    omega
  · exact (hperm.nodup_iff.mp hp.nodup).of_append_right
  · exact hp.tidy.store _ _
  · intro key
    have := hbucket key
    have := hp.le_limit key
    simp only at *
    omega
  · refine Filing.forall_bucket_store
      (P := fun k l => ∀ pc ∈ l, (conns.close e.pc pc).key = k) ?_ ?_
    · intro pc hpc
      rw [← hp.filed e.key pc (List.mem_of_mem_eraseIdx hpc)]
      exact Conns.closeAll_key conns [e.pc] pc
    · intro k pc hpc
      rw [← hp.filed k pc hpc]
      exact Conns.closeAll_key conns [e.pc] pc

theorem Pool.makeRoom_spec (hp : p.Valid limit conns)
    (h : p.makeRoom order conns = some (p', conns')) :
  ∃ evicted, p.idle.items.Perm (evicted ++ p'.idle.items) ∧ conns' = conns.closeAll evicted
    ∧ p'.Valid limit conns' ∧ p'.total < maxIdleConnsTotal
    ∧ ∀ key, (p'.idle.bucket key).length ≤ (p.idle.bucket key).length
  := by
  rw [Pool.makeRoom] at h
  split at h
  · obtain ⟨pc, hperm, hconns, hvalid, htotal, hbucket⟩ := Pool.evictOldest_spec hp h
    have := hp.le_max
    exact ⟨[pc], hperm, hconns, hvalid, by omega, hbucket⟩
  · cases h
    exact ⟨[], .refl _, rfl, hp, by omega, fun _ => le_rfl⟩

/-- Filing a connection that is not idle yet, where there is room. -/
theorem Pool.append_spec {pc : ℕ} (hp : p.Valid limit conns) (hpc : pc ∉ p.idle.items)
    (htotal : p.total < maxIdleConnsTotal)
    (hlimit : ((p.idle.bucket (conns pc).key).length : ℤ) < limit)
    (h : p.append pc now conns = (p', conns')) :
  p'.idle.items.Perm (pc :: p.idle.items)
    ∧ conns' = Function.update conns pc { conns pc with idleSince := now } ∧ p'.Valid limit conns'
  := by
  cases h
  have hkey : ∀ c, (Function.update conns pc { conns pc with idleSince := now } c).key
      = (conns c).key := by
    intro c
    rw [Function.update_apply]
    split
    · rename_i hc
      rw [hc]
    · rfl
  obtain ⟨rest, hitems, hitems'⟩ := Filing.items_store_of_perm
    (l := p.idle.bucket (conns pc).key ++ [pc])
    [] [pc] (.refl _) perm_append_comm
  have hperm := hitems'.trans (hitems.symm.append_left [pc])
  have hlen := hperm.length_eq
  refine ⟨hperm, rfl, ?_⟩
  constructor
  · have := hp.total
    simp only [singleton_append, length_cons] at hlen ⊢
    omega
  · simp only
    omega
  · exact hperm.nodup_iff.mpr (nodup_cons.mpr ⟨hpc, hp.nodup⟩)
  · exact hp.tidy.store _ _
  · refine Filing.forall_bucket_store (P := fun _ l => (l.length : ℤ) ≤ limit) ?_ hp.le_limit
    rw [length_append, length_singleton]
    omega
  · refine Filing.forall_bucket_store (P := fun k l => ∀ c ∈ l,
      (Function.update conns pc { conns pc with idleSince := now } c).key = k) ?_ ?_
    · intro c hc
      rw [hkey]
      rcases mem_append.mp hc with hc | hc
      · exact hp.filed _ c hc
      · rw [mem_singleton.mp hc]
    · intro k c hc
      rw [hkey]
      exact hp.filed k c hc

/-- What `put` does: it may take connections out and close them, and it files the new one. -/
theorem Pool.put_spec {pc : ℕ} (hp : p.Valid limit conns) (hpc : pc ∉ p.idle.items)
    (h : p.put pc limit order now conns = some (p', conns')) :
  ∃ evicted rest, p.idle.items.Perm (evicted ++ rest) ∧ p'.idle.items.Perm (pc :: rest)
    ∧ conns' = Function.update (conns.closeAll evicted) pc { conns pc with idleSince := now }
    ∧ p'.Valid limit conns'
  := by
  rw [Pool.put] at h
  split at h
  · cases h
  obtain ⟨⟨p₁, conns₁⟩, hroom, happend⟩ := Option.map_eq_some_iff.mp h
  obtain ⟨evicted, hperm, rfl, hvalid, htotal, hbucket⟩ := Pool.makeRoom_spec hp hroom
  have hmem : ∀ c, c ∈ evicted ∨ c ∈ p₁.idle.items → c ∈ p.idle.items := fun c hc =>
    hperm.mem_iff.mpr (mem_append.mpr hc)
  -- the connection to be filed is not idle, so the eviction has left it alone
  have hsame : conns.closeAll evicted pc = conns pc := by
    rw [Conns.closeAll_apply, if_neg fun hc => hpc (hmem pc (.inl hc))]
  have hlimit' : ((p₁.idle.bucket (conns.closeAll evicted pc).key).length : ℤ) < limit := by
    have := hbucket (conns pc).key
    rw [hsame]
    omega
  obtain ⟨hperm', rfl, hvalid'⟩ :=
    Pool.append_spec hvalid (fun hc => hpc (hmem pc (.inr hc))) htotal hlimit' happend
  exact ⟨evicted, p₁.idle.items, hperm, hperm', by rw [hsame], hvalid'⟩

end Https
