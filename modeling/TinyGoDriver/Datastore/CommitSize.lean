import TinyGoDriver.Datastore.Tx
import TinyGoDriver.Go.UrlPath

/-!
# The size of a commit

`MutationSize` measures a mutation and `CommitOverheadBytes`, of the client or of a transaction, the
request around the mutations, by marshalling a request that has none.  `commit` builds its request
on its own.

What `json.Marshal` makes of strings and of mutations is left open.  A struct is rendered with its
members in order, those that are empty and may be omitted left out, and an array as its elements
joined by commas.
-/

namespace Datastore

open GoRt List

/-! ### JSON -/

def commas (l : List (List UInt8)) : List UInt8 := [0x2c].intercalate l

def member (name : String) (body : List UInt8) : List UInt8 :=
  0x22 :: (lit name ++ 0x22 :: 0x3a :: body)

theorem length_commas (l : List (List UInt8)) :
  (commas l).length = (l.map List.length).sum + (l.length - 1)
  := by
  rw [commas]
  induction l with
  | nil => rfl
  | cons a l ih =>
    cases l with
    | nil => simp
    | cons b l =>
      rw [intercalate_cons_cons, length_append, ih]
      simp
      omega

/-! ### Requests -/

/-- `wireCommitRequest` -/
structure CommitRequest (W : Type) where
  databaseID : List UInt8
  mode : List UInt8
  mutations : List W := []
  transaction : List UInt8 := []
  singleUseTransaction : List UInt8 := []

/-- A client, with what it and `json.Marshal` do with mutations and strings. -/
structure Client (M W ε : Type) where
  database : List UInt8
  encodeMutation : M → Go ε W
  marshal : W → Go ε (List UInt8)
  string : List UInt8 → List UInt8

variable {M W ε : Type}

/-- The members of the struct, of which `mutations` is rendered already. -/
def CommitRequest.members (req : CommitRequest W) (c : Client M W ε) (mutations : List UInt8) :
    List (List UInt8) :=
  (if req.databaseID = [] then [] else [member "databaseId" (c.string req.databaseID)])
    ++ [member "mode" (c.string req.mode), member "mutations" mutations]
    ++ (if req.transaction = [] then [] else [member "transaction" (c.string req.transaction)])
    ++ if req.singleUseTransaction = [] then []
      else [member "singleUseTransaction" req.singleUseTransaction]

/-- `json.Marshal` of a request. -/
def Client.marshalRequest (c : Client M W ε) (req : CommitRequest W) : Go ε (List UInt8) := do
  let raws ← req.mutations.mapM c.marshal
  .ok (0x7b :: (commas (req.members c (0x5b :: (commas raws ++ [0x5d]))) ++ [0x7d]))

def Tx.options (tx : Tx M) : List UInt8 :=
  if tx.readOnly then lit "\x7b\"readOnly\":\x7b\x7d\x7d" else lit "\x7b\"readWrite\":\x7b\x7d\x7d"

/-- The request of `commit`, before the mutations are filled in. -/
def Client.commitRequest (c : Client M W ε) : Option (Tx M) → CommitRequest W
  | none => { databaseID := c.database, mode := lit "NON_TRANSACTIONAL" }
  | some tx =>
    if tx.handle ≠ [] then
      { databaseID := c.database, mode := lit "TRANSACTIONAL", transaction := tx.handle }
    else
      { databaseID := c.database, mode := lit "TRANSACTIONAL", singleUseTransaction := tx.options }

/-- The body that `commit` sends, if it sends a request. -/
def Client.commit (c : Client M W ε) (ms : List M) (tx : Option (Tx M)) :
    Go ε (Option (List UInt8)) :=
  if ms = [] then .ok none else do
    let encoded ← ms.mapM c.encodeMutation
    let body ← c.marshalRequest { c.commitRequest tx with mutations := encoded }
    .ok (some body)

def Client.mutationSize (c : Client M W ε) (m : M) : Go ε ℕ := do
  let encoded ← c.encodeMutation m
  let raw ← c.marshal encoded
  .ok raw.length

def Client.commitOverhead (c : Client M W ε) (req : CommitRequest W) (n : ℕ) : ℕ :=
  match c.marshalRequest req with
  | .error _ => 0
  | .ok raw => if n < 2 then raw.length else raw.length + n - 1

/-- `Client.CommitOverheadBytes` -/
def Client.commitOverheadBytes (c : Client M W ε) (n : ℕ) : ℕ :=
  c.commitOverhead { databaseID := c.database, mode := lit "NON_TRANSACTIONAL" } n

/-- `Tx.CommitOverheadBytes` for a transaction of the client. -/
def Tx.commitOverheadBytes (tx : Tx M) (c : Client M W ε) (n : ℕ) : ℕ :=
  let req : CommitRequest W := { databaseID := c.database, mode := lit "TRANSACTIONAL" }
  c.commitOverhead (if tx.handle ≠ [] then { req with transaction := tx.handle }
    else { req with singleUseTransaction := tx.options }) n

/-! ### Sizes -/

variable {c : Client M W ε} {req : CommitRequest W} {ws : List W} {raws : List (List UInt8)}

theorem length_members (req : CommitRequest W) (c : Client M W ε) (body : List UInt8) :
  (commas (req.members c body)).length = (commas (req.members c [])).length + body.length
  := by
  simp only [length_commas, CommitRequest.members, map_append, sum_append,
    length_append, map_cons, sum_cons, length_cons, length_nil, member]
  omega

/-- Filling in the mutations adds them and the commas between them. -/
theorem marshalRequest_size (hempty : req.mutations = []) (hne : raws ≠ [])
    (hraws : ws.mapM c.marshal = .ok raws) :
  ∃ body, c.marshalRequest { req with mutations := ws } = .ok body
    ∧ body.length = c.commitOverhead req raws.length + (raws.map List.length).sum
  := by
  have hpos := length_pos_of_ne_nil hne
  have hnone : c.marshalRequest req
      = .ok (0x7b :: (commas (req.members c [0x5b, 0x5d]) ++ [0x7d])) := by
    rw [Client.marshalRequest, hempty]
    rfl
  have hsome : c.marshalRequest { req with mutations := ws }
      = .ok (0x7b :: (commas (req.members c (0x5b :: (commas raws ++ [0x5d]))) ++ [0x7d])) := by
    rw [Client.marshalRequest, hraws]
    rfl
  refine ⟨_, hsome, ?_⟩
  rw [Client.commitOverhead, hnone]
  simp only [length_cons, length_append, length_nil, length_members req c (_ :: _),
    length_commas raws]
  split <;> omega

/-- A commit has as many bytes as its parts are said to have. -/
theorem commit_size (c : Client M W ε) (tx : Option (Tx M)) {ms : List M} {sizes : List ℕ}
    (hne : ms ≠ []) (hsizes : ms.mapM c.mutationSize = .ok sizes) :
  ∃ body, c.commit ms tx = .ok (some body)
    ∧ body.length = (match tx with
        | none => c.commitOverheadBytes ms.length
        | some tx => tx.commitOverheadBytes c ms.length) + sizes.sum
  := by
  obtain ⟨ws, hws, hsizes⟩ := mapM_bind_eq_ok hsizes
  obtain ⟨raws, hraws, hsizes⟩ := mapM_bind_eq_ok hsizes
  rw [mapM_eq_map (fun _ _ => rfl)] at hsizes
  cases hsizes
  have hlen : raws.length = ms.length := (length_mapM hraws).trans (length_mapM hws)
  have hraws' : raws ≠ [] := by
    rintro rfl
    exact hne (length_eq_zero_iff.mp hlen.symm)
  have hempty : (c.commitRequest tx).mutations = [] := by
    cases tx with
    | none => rfl
    | some tx =>
      rw [Client.commitRequest]
      split <;> rfl
  obtain ⟨body, hbody, hsize⟩ := marshalRequest_size hempty hraws' hraws
  refine ⟨body, ?_, ?_⟩
  · rw [Client.commit, if_neg hne, hws, ok_bind, hbody]
    rfl
  · rw [hsize, hlen]
    cases tx with
    | none | some _ => rfl

/-- A client of the database `d`.  Its mutations are deletions of kind `K`, by name. -/
def quoting : Client (List UInt8) (List UInt8) Unit where
  database := lit "d"
  encodeMutation name :=
    .ok (lit "\x7b\"delete\":\x7b\"path\":[\x7b\"kind\":\"K\",\"name\":\"" ++ name
      ++ lit "\"\x7d]\x7d\x7d")
  marshal := .ok
  string s := 0x22 :: (s ++ [0x22])

/-- Two mutations in a transaction with a handle. -/
theorem commit_size_two :
  ∃ body, quoting.commit [lit "a", lit "bc"] (some ⟨lit "h", false, []⟩) = .ok (some body)
    ∧ body.length = Tx.commitOverheadBytes ⟨lit "h", false, []⟩ quoting 2 + (45 + 46)
    ∧ body.length = 166
  := by
  have hsizes : [lit "a", lit "bc"].mapM quoting.mutationSize = .ok [45, 46] := rfl
  obtain ⟨body, hbody, hlen⟩ := commit_size quoting (some ⟨lit "h", false, []⟩) (by decide) hsizes
  exact ⟨body, hbody, hlen, hlen⟩

end Datastore
