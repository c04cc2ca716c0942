import Mathlib.Data.List.GetD
import TinyGoDriver.Lib.Merging
import TinyGoDriver.Zstd.BitWriter
import TinyGoDriver.Zstd.HuffStream

/-!
# Building a Huffman code

`buildHuffTable` fits a code to the counts of the literals.  `huffLengths` merges the symbols into a
tree and takes the depths of the leaves for the lengths of the codes; the codes of each length are
then numbered, from the longest codes up.

Which nodes are merged is a matter of how well the code compresses.  That the decoder understands it
rests on two facts alone: the masses of the leaves add up to 1, so that the weights of the symbols
make a code (`Complete`), and the numbering is that of the decoder's slots.
-/

namespace Zstd

open GoRt Merging Buckets List

/-- The largest literal that the direct representation of the weights can describe. -/
def maxHuffSymbol : ℕ := 128

/-- A leaf, or two nodes merged. -/
inductive HuffKind where
  | leaf (symbol : ℕ)
  | merged (left right : ℕ)
  deriving DecidableEq, Repr

structure HuffNode where
  weight : ℕ
  kind : HuffKind
  depth : ℕ
  deriving DecidableEq, Repr

/-- The symbols from 0 to `maxSymbol` that occur. -/
def usedSymbols (counts : List ℕ) (maxSymbol : ℕ) : List ℕ :=
  (List.range (maxSymbol + 1)).filter (fun s => counts.getD s 0 ≠ 0)

/-- The leaves, with counts below `floor` lifted to it. -/
def huffLeaves (counts : List ℕ) (maxSymbol floor : ℕ) : List HuffNode :=
  (usedSymbols counts maxSymbol).map (fun s => ⟨max (counts.getD s 0) floor, .leaf s, 0⟩)

/-- The place for a leaf of weight `w` in `order[lo:hi]`, by halving. -/
def insertPos (nodes : List HuffNode) (order : List ℕ) (w lo hi : ℕ) : Go Err ℕ :=
  if lo < hi then do
    let mid := (lo + hi) / 2
    let i ← idx order mid
    let node ← idx nodes i
    if node.weight ≤ w then
      insertPos nodes order w (mid + 1) hi
    else
      insertPos nodes order w lo mid
  else
    .ok lo
termination_by hi - lo

/-- Inserts `k` more leaves into `order`. -/
def insertLeaves (nodes : List HuffNode) : ℕ → List ℕ → Go Err (List ℕ)
  | 0, order => .ok order
  | k + 1, order => do
    let node ← idx nodes order.length
    let lo ← insertPos nodes order node.weight 0 order.length
    insertLeaves nodes k (order.take lo ++ order.length :: order.drop lo)

/-- The next node to merge: the first leaf of `order[leaf:]` or the node `internal`. -/
def takeNode (nodes : List HuffNode) (order : List ℕ) (leaf internal : ℕ) :
    Go Err (ℕ × ℕ × ℕ) :=
  if leaf < order.length then do
    let i ← idx order leaf
    if nodes.length ≤ internal then
      .ok (i, leaf + 1, internal)
    else do
      let a ← idx nodes i
      let b ← idx nodes internal
      if a.weight ≤ b.weight then
        .ok (i, leaf + 1, internal)
      else
        .ok (internal, leaf, internal + 1)
  else
    .ok (internal, leaf, internal + 1)

/-- Makes `k` merges. -/
def mergeNodes (order : List ℕ) : ℕ → List HuffNode → ℕ → ℕ → Go Err (List HuffNode)
  | 0, nodes, _, _ => .ok nodes
  | k + 1, nodes, leaf, internal => do
    let (left, leaf, internal) ← takeNode nodes order leaf internal
    let (right, leaf, internal) ← takeNode nodes order leaf internal
    let a ← idx nodes left
    let b ← idx nodes right
    let node : HuffNode := ⟨(a.weight + b.weight) % 2 ^ 32, .merged left right, 0⟩
    mergeNodes order k (nodes ++ [node]) leaf internal

/-- `nodes[i].depth = d` -/
def setDepth (nodes : List HuffNode) (i d : ℕ) : Go Err (List HuffNode) := do
  let node ← idx nodes i
  setAt nodes i { node with depth := d }

/-- Hands the depths down from the node `n + k - 1` to the node `n`. -/
def setDepths (n : ℕ) : ℕ → List HuffNode → Go Err (List HuffNode)
  | 0, nodes => .ok nodes
  | k + 1, nodes => do
    let node ← idx nodes (n + k)
    match node.kind with
    | .leaf _ => .error .panic
    | .merged left right => do
      let d := (node.depth + 1) % 2 ^ 8
      let nodes ← setDepth nodes left d
      let nodes ← setDepth nodes right d
      setDepths n k nodes

/-- Writes the depths of the leaves to `out`, and finds the deepest. -/
def leafLengths : List HuffNode → List ℕ → ℕ → Go Err (List ℕ × ℕ)
  | [], out, deepest => .ok (out, deepest)
  | node :: nodes, out, deepest =>
    match node.kind with
    | .merged _ _ => .error .panic
    | .leaf symbol => do
      let d := if node.depth = 0 then 1 else node.depth
      let out ← setAt out symbol d
      leafLengths nodes out (max deepest d)

def huffLengths (counts : List ℕ) (maxSymbol floor : ℕ) : Go Err (List ℕ × ℕ) :=
  let leaves := huffLeaves counts maxSymbol floor
  let n := leaves.length
  if n = 0 ∨ maxHuffSymbol + 1 < n then
    .error .panic
  else do
    let order ← insertLeaves leaves n []
    let nodes ← mergeNodes order (n - 1) leaves 0 n
    let nodes ← setDepths n (n - 1) nodes
    leafLengths (nodes.take n) (List.replicate (maxHuffSymbol + 1) 0) 0

structure HuffTable where
  bits : List ℕ
  vals : List ℕ
  max : ℕ
  maxBit : ℕ
  deriving DecidableEq, Repr

/-- Tries one floor after the other until no code is too long. -/
def huffAttempts (counts : List ℕ) (maxSymbol total : ℕ) : List ℕ → Go Err (Option (List ℕ))
  | [] => .ok none
  | shift :: shifts => do
    let floor := max ((total % 2 ^ 32) >>> shift) 1
    let (lengths, deepest) ← huffLengths counts maxSymbol floor
    if deepest ≤ maxHuffBits then
      .ok (some lengths)
    else
      huffAttempts counts maxSymbol total shifts

/-- The first code of each length, from the longest up. -/
def firstCodes (perLength : List ℕ) : ℕ → ℕ → List ℕ → Go Err (List ℕ)
  | 0, _, next => .ok next
  | n + 1, min, next => do
    let next ← setAt next (n + 1) min
    let c ← idx perLength (n + 1)
    firstCodes perLength n (((min + c) % 2 ^ 16) >>> 1) next

/-- Numbers the codes of each length in the order of the symbols. -/
def assignCodes : List ℕ → List ℕ → Go Err (List ℕ)
  | [], _ => .ok []
  | n :: bits, next =>
    if n = 0 then do
      let vals ← assignCodes bits next
      .ok (0 :: vals)
    else do
      let v ← idx next n
      let next ← setAt next n ((v + 1) % 2 ^ 16)
      let vals ← assignCodes bits next
      .ok (v :: vals)

/-- The table of the codes of the given lengths. -/
def canonicalTable (bits : List ℕ) (maxSymbol : ℕ) : Go Err HuffTable := do
  let maxBit := bits.foldr max 0
  let perLength := (List.range (maxHuffBits + 2)).map (fun n => if n = 0 then 0 else bits.count n)
  let next ← firstCodes perLength maxBit 0 (List.replicate (maxHuffBits + 2) 0)
  let vals ← assignCodes bits next
  let pad := List.replicate (256 - bits.length) 0
  .ok ⟨bits ++ pad, vals ++ pad, maxSymbol, maxBit⟩

def buildHuffTable (counts : List ℕ) (total : ℕ) : Go Err (Option HuffTable) :=
  match (usedSymbols counts 255).getLast? with
  | none => .ok none
  | some maxSymbol =>
    if (usedSymbols counts 255).length < 2 ∨ maxSymbol < 1 ∨ maxHuffSymbol < maxSymbol then
      .ok none
    else do
      match ← huffAttempts counts maxSymbol total [31, 11, 9, 7] with
      | none => .ok none
      | some lengths => do
        let t ← canonicalTable (lengths.take (maxSymbol + 1)) maxSymbol
        .ok (some t)

/-! ### The tree -/

/-- The depth of the node `i`. -/
def depthOf (nodes : List HuffNode) (i : ℕ) : ℕ := (nodes[i]?.map HuffNode.depth).getD 0

variable {nodes : List HuffNode} {order bits : List ℕ} {ms : List (ℕ × ℕ)}

theorem insertPos_ok (h : ∀ i ∈ order, i < nodes.length) (w : ℕ) {lo hi : ℕ}
    (hhi : hi ≤ order.length) :
  ∃ p, insertPos nodes order w lo hi = .ok p
  := by
  induction k : hi - lo using Nat.strong_induction_on generalizing lo hi with
  | _ k ih =>
    rw [insertPos]
    split
    · have hmid : (lo + hi) / 2 < order.length := by omega
      have hnode := h _ (getElem_mem hmid)
      simp only
      rw [idx_of_lt hmid, ok_bind, idx_of_lt hnode, ok_bind]
      split
      · exact ih _ (by omega) hhi rfl
      · exact ih _ (by omega) (by omega) rfl
    · exact ⟨lo, rfl⟩

/-- The leaves are put in some order. -/
theorem insertLeaves_perm {k : ℕ} (hperm : order.Perm (List.range order.length))
    (hlen : order.length + k = nodes.length) :
  ∃ order', insertLeaves nodes k order = .ok order' ∧ order'.Perm (List.range nodes.length)
  := by
  induction k generalizing order with
  | zero =>
    refine ⟨order, rfl, ?_⟩
    rwa [← hlen]
  | succ k ih =>
    have hlt : ∀ i ∈ order, i < nodes.length := by
      intro i hi
      have := mem_range.mp (hperm.mem_iff.mp hi)
      omega
    have hk : order.length < nodes.length := by omega
    obtain ⟨p, hp⟩ : ∃ p, insertPos nodes order nodes[order.length].weight 0 order.length = .ok p :=
      insertPos_ok hlt _ le_rfl
    rw [insertLeaves, idx_of_lt hk, ok_bind, hp]
    have hmid : (order.take p ++ order.length :: order.drop p).Perm (order.length :: order) := by
      have : (order.take p ++ order.length :: order.drop p).Perm
          (order.length :: (order.take p ++ order.drop p)) := perm_middle
      rwa [take_append_drop] at this
    have hlen' := hmid.length_eq
    rw [length_cons] at hlen'
    apply ih
    · rw [hlen', range_succ]
      exact (hmid.trans (hperm.cons _)).trans (perm_append_singleton _ _).symm
    · omega

/-- The nodes not merged yet. -/
def pending (nodes : List HuffNode) (order : List ℕ) (leaf internal : ℕ) : List ℕ :=
  order.drop leaf ++ List.range' internal (nodes.length - internal)

/-- The node taken is one that was pending. -/
theorem takeNode_perm {leaf internal : ℕ} (horder : ∀ i ∈ order, i < nodes.length)
    (hinternal : internal ≤ nodes.length)
    (hpending : 0 < (pending nodes order leaf internal).length) :
  ∃ i leaf' internal', takeNode nodes order leaf internal = .ok (i, leaf', internal')
    ∧ i < nodes.length ∧ internal' ≤ nodes.length
    ∧ (pending nodes order leaf internal).Perm (i :: pending nodes order leaf' internal')
  := by
  rw [pending, length_append, length_drop, length_range'] at hpending
  have hstep : internal < nodes.length → (pending nodes order leaf internal).Perm
      (internal :: pending nodes order leaf (internal + 1)) := by
    intro hlt
    obtain ⟨r, hr⟩ : ∃ r, nodes.length - internal = r + 1 := ⟨nodes.length - internal - 1, by omega⟩
    rw [pending, pending, hr, show nodes.length - (internal + 1) = r by omega]
    exact perm_middle
  rw [takeNode]
  split
  · rename_i hleaf
    have hget := horder _ (getElem_mem hleaf)
    have hperm : (pending nodes order leaf internal).Perm
        (order[leaf] :: pending nodes order (leaf + 1) internal) := by
      rw [pending, drop_eq_getElem_cons hleaf]
      rfl
    rw [idx_of_lt hleaf, ok_bind]
    split
    · exact ⟨_, _, _, rfl, hget, hinternal, hperm⟩
    rw [idx_of_lt hget, ok_bind, idx_of_lt (by omega), ok_bind]
    split
    · exact ⟨_, _, _, rfl, hget, hinternal, hperm⟩
    · exact ⟨_, _, _, rfl, by omega, by omega, hstep (by omega)⟩
  · exact ⟨_, _, _, rfl, by omega, by omega, hstep (by omega)⟩

theorem pending_append (nodes : List HuffNode) (node : HuffNode) (order : List ℕ) (leaf : ℕ)
    {internal : ℕ} (h : internal ≤ nodes.length) :
  (pending (nodes ++ [node]) order leaf internal).Perm
    (nodes.length :: pending nodes order leaf internal)
  := by
  rw [pending, length_append, length_singleton, Nat.sub_add_comm h,
    range'_concat, Nat.one_mul, Nat.add_sub_cancel' h, ← append_assoc]
  exact perm_append_singleton _ _

/-- The nodes after the leaves are the merges `ms`. -/
def Holds (nodes leaves : List HuffNode) (ms : List (ℕ × ℕ)) : Prop :=
  nodes.map HuffNode.kind
    = leaves.map HuffNode.kind ++ ms.map (fun m => HuffKind.merged m.1 m.2)

/-- The merges leave one node. -/
theorem mergeNodes_merged {leaves : List HuffNode} {k : ℕ} {leaf internal : ℕ}
    (horder : ∀ i ∈ order, i < leaves.length) (hholds : Holds nodes leaves ms)
    (hdepth : ∀ node ∈ nodes, node.depth = 0) (hinternal : internal ≤ nodes.length)
    (hmerged : Merged leaves.length (pending nodes order leaf internal) ms)
    (hk : (pending nodes order leaf internal).length = k + 1) :
  ∃ nodes' root ms', mergeNodes order k nodes leaf internal = .ok nodes'
    ∧ Holds nodes' leaves ms' ∧ (∀ node ∈ nodes', node.depth = 0)
    ∧ Merged leaves.length [root] ms'
  := by
  induction k generalizing nodes leaf internal ms with
  | zero =>
    obtain ⟨root, hroot⟩ := length_eq_one_iff.mp hk
    exact ⟨nodes, root, ms, rfl, hholds, hdepth, hroot ▸ hmerged⟩
  | succ k ih =>
    have hlen : nodes.length = leaves.length + ms.length := by
      have := congrArg length hholds
      simpa using this
    have horder' : ∀ i ∈ order, i < nodes.length := fun i hi => by
      have := horder i hi
      omega
    obtain ⟨a, leaf₁, internal₁, htake₁, ha, hinternal₁, hperm₁⟩ := takeNode_perm horder'
      hinternal (show 0 < (pending nodes order leaf internal).length by omega)
    have hlen₁ := hperm₁.length_eq
    rw [length_cons] at hlen₁
    obtain ⟨b, leaf₂, internal₂, htake₂, hb, hinternal₂, hperm₂⟩ := takeNode_perm horder'
      hinternal₁ (show 0 < (pending nodes order leaf₁ internal₁).length by omega)
    have hlen₂ := hperm₂.length_eq
    rw [length_cons] at hlen₂
    have hold := hperm₁.trans (hperm₂.cons a)
    rw [mergeNodes, htake₁, ok_bind]
    simp only
    rw [htake₂, ok_bind]
    simp only
    rw [idx_of_lt ha, ok_bind, idx_of_lt hb, ok_bind]
    set node : HuffNode :=
      ⟨(nodes[a].weight + nodes[b].weight) % 2 ^ 32, .merged a b, 0⟩ with hnode
    have hnew := pending_append nodes node order leaf₂ hinternal₂
    have hlen₃ := hnew.length_eq
    rw [length_cons] at hlen₃
    rw [hlen] at hnew
    refine ih ?_ ?_ ?_ (.merge hmerged hold hnew) (by omega)
    · rw [Holds, map_append, map_append, hholds, append_assoc]
      rfl
    · intro x hx
      rcases mem_append.mp hx with hx | hx
      · exact hdepth x hx
      · rw [mem_singleton.mp hx]
    · rw [length_append]
      omega

theorem setDepth_ok {i : ℕ} (hi : i < nodes.length) (d : ℕ) :
  ∃ nodes', setDepth nodes i d = .ok nodes'
    ∧ nodes'.map HuffNode.kind = nodes.map HuffNode.kind
    ∧ ∀ j, depthOf nodes' j = if j = i then d else depthOf nodes j
  := by
  rw [setDepth, idx_of_lt hi, ok_bind, setAt_of_lt _ _ hi]
  refine ⟨_, rfl, ?_, ?_⟩
  · rw [map_set]
    apply ext_getElem?
    intro j
    rw [getElem?_set]
    split
    · rename_i hij
      subst hij
      simp [hi]
    · rfl
  · intro j
    rw [depthOf, depthOf, getElem?_set]
    by_cases hj : i = j
    · subst hj
      simp [hi]
    · rw [if_neg hj, if_neg (Ne.symm hj)]

/-- Handing down the depths keeps the mass, and every leaf ends below a node that was left. -/
theorem setDepths_mass {n : ℕ} {A : List ℕ} (h : Merged n A ms)
    (hlen : n + ms.length ≤ nodes.length)
    (hkind : ∀ j m, ms[j]? = some m → nodes[n + j]?.map HuffNode.kind = some (.merged m.1 m.2))
    (hdepth : ∀ a ∈ A, depthOf nodes a + ms.length < 2 ^ 8) :
  ∃ nodes', setDepths n ms.length nodes = .ok nodes'
    ∧ nodes'.map HuffNode.kind = nodes.map HuffNode.kind
    ∧ mass (depthOf nodes') (List.range n) = mass (depthOf nodes) A
    ∧ ∀ i < n, (i ∈ A ∧ depthOf nodes' i = depthOf nodes i)
      ∨ ∃ a ∈ A, depthOf nodes a < depthOf nodes' i
  := by
  induction h generalizing nodes with
  | leaves h =>
    refine ⟨nodes, rfl, rfl, (mass_perm h _).symm, ?_⟩
    intro i hi
    exact .inl ⟨h.mem_iff.mpr (mem_range.mpr hi), rfl⟩
  | @merge A A' rest ms a b h hold hnew ih =>
    rw [length_append, length_singleton] at hlen hdepth ⊢
    have hnodup := hold.nodup_iff.mp h.nodup
    simp only [nodup_cons, mem_cons, not_or] at hnodup
    obtain ⟨⟨hab, ha⟩, hb, -⟩ := hnodup
    have hlt : ∀ x ∈ a :: b :: rest, x < nodes.length := by
      intro x hx
      have := h.lt x (hold.mem_iff.mpr hx)
      omega
    -- the node merged last is the next to hand its depth down
    have hroot := hkind ms.length (a, b) (by simp)
    rw [getElem?_eq_getElem (by omega), Option.map_some, Option.some_inj] at hroot
    set c := n + ms.length with hc
    have hcdepth : nodes[c].depth = depthOf nodes c := by
      rw [depthOf, getElem?_eq_getElem (by omega)]
      rfl
    have hcA : c ∈ A' := hnew.mem_iff.mpr (by simp)
    have hsmall := hdepth c hcA
    obtain ⟨nodes₁, hset₁, hkind₁, hdepth₁⟩ := setDepth_ok (hlt a (by simp))
      ((nodes[c].depth + 1) % 2 ^ 8)
    have hlen₁ : nodes₁.length = nodes.length := by
      simpa using congrArg length hkind₁
    obtain ⟨nodes₂, hset₂, hkind₂, hdepth₂⟩ := setDepth_ok
      (by rw [hlen₁]; exact hlt b (by simp))
      ((nodes[c].depth + 1) % 2 ^ 8)
    rw [hkind₁] at hkind₂
    have hlen₂ : nodes₂.length = nodes.length := by
      simpa using congrArg length hkind₂
    have hd : (nodes[c].depth + 1) % 2 ^ 8 = depthOf nodes c + 1 := by
      rw [hcdepth]
      exact Nat.mod_eq_of_lt (by omega)
    have hda : depthOf nodes₂ a = depthOf nodes c + 1 := by
      rw [hdepth₂, if_neg hab, hdepth₁, if_pos rfl, hd]
    have hdb : depthOf nodes₂ b = depthOf nodes c + 1 := by
      rw [hdepth₂, if_pos rfl, hd]
    have hdrest : ∀ x ∈ rest, depthOf nodes₂ x = depthOf nodes x := by
      intro x hx
      have h₁ : x ≠ b := fun h => hb (h ▸ hx)
      have h₂ : x ≠ a := fun h => ha (h ▸ hx)
      rw [hdepth₂, if_neg h₁, hdepth₁, if_neg h₂]
    have hrestA : ∀ x ∈ rest, x ∈ A' := fun x hx => hnew.mem_iff.mpr (by simp [hx])
    have hkind₃ : ∀ j m, ms[j]? = some m →
        nodes₂[n + j]?.map HuffNode.kind = some (.merged m.1 m.2) := by
      intro j m hm
      have := hkind j m (by
        rw [List.getElem?_append_left (List.getElem?_eq_some_iff.mp hm).1]
        exact hm)
      rw [← getElem?_map] at this ⊢
      rwa [hkind₂]
    have hdepth₃ : ∀ x ∈ A, depthOf nodes₂ x + ms.length < 2 ^ 8 := by
      intro x hx
      have hx := hold.mem_iff.mp hx
      simp only [mem_cons] at hx
      rcases hx with rfl | rfl | hx
      · omega
      · omega
      have := hdepth x (hrestA x hx)
      rw [hdrest x hx]
      omega
    obtain ⟨nodes', hrun, hkind', hmass, hbelow⟩ := ih (by omega) hkind₃ hdepth₃
    refine ⟨nodes', ?_, hkind'.trans hkind₂, ?_, ?_⟩
    · rw [setDepths, idx_of_lt (by omega), ok_bind, hroot]
      simp only
      rw [hset₁, ok_bind, hset₂, ok_bind, hrun]
    · rw [hmass, mass_perm hold, mass_perm hnew, mass_split hda hdb hdrest]
    intro i hi
    rcases hbelow i hi with ⟨hiA, heq⟩ | ⟨x, hx, hlt'⟩
    · have hiA := hold.mem_iff.mp hiA
      simp only [mem_cons] at hiA
      rcases hiA with rfl | rfl | hiA
      · exact .inr ⟨c, hcA, by omega⟩
      · exact .inr ⟨c, hcA, by omega⟩
      · exact .inl ⟨hrestA i hiA, by rw [heq, hdrest i hiA]⟩
    have hx := hold.mem_iff.mp hx
    simp only [mem_cons] at hx
    rcases hx with rfl | rfl | hx
    · exact .inr ⟨c, hcA, by omega⟩
    · exact .inr ⟨c, hcA, by omega⟩
    · exact .inr ⟨x, hrestA x hx, by rw [← hdrest x hx]; exact hlt'⟩

/-- The mass of codes of the given lengths, 0 standing for no code. -/
def codeMass (bits : List ℕ) : ℚ := (bits.map (fun n => if n = 0 then 0 else (1 / 2 : ℚ) ^ n)).sum

theorem codeMass_set {s d : ℕ} (hs : s < bits.length) (hzero : bits.getD s 0 = 0) (hd : d ≠ 0) :
  codeMass (bits.set s d) = codeMass bits + (1 / 2 : ℚ) ^ d
  := by
  rw [getD_eq_getElem _ _ hs] at hzero
  rw [codeMass, codeMass, map_set, sum_set', dif_pos (by simpa using hs), if_neg hd,
    getElem_map, hzero, if_pos rfl]
  ring

/-- The symbols of leaves. -/
def Symbols (nodes : List HuffNode) (symbols : List ℕ) : Prop :=
  nodes.map HuffNode.kind = symbols.map HuffKind.leaf

theorem leafLengths_ok {symbols out : List ℕ} {deepest : ℕ} (hsymbols : Symbols nodes symbols)
    (hnodup : symbols.Nodup) (hlt : ∀ s ∈ symbols, s < out.length)
    (hfree : ∀ s ∈ symbols, out.getD s 0 = 0) (hdepth : ∀ node ∈ nodes, node.depth ≠ 0)
    (hdeepest : ∀ s, out.getD s 0 ≤ deepest) :
  ∃ out' deepest', leafLengths nodes out deepest = .ok (out', deepest')
    ∧ out'.length = out.length
    ∧ codeMass out' = codeMass out + (nodes.map (fun node => (1 / 2 : ℚ) ^ node.depth)).sum
    ∧ (∀ s, out'.getD s 0 ≠ 0 ↔ s ∈ symbols ∨ out.getD s 0 ≠ 0)
    ∧ ∀ s, out'.getD s 0 ≤ deepest'
  := by
  induction nodes generalizing symbols out deepest with
  | nil =>
    obtain rfl : symbols = [] := by
      have := congrArg length hsymbols
      simpa using this.symm
    exact ⟨out, deepest, rfl, rfl, by simp, by simp, hdeepest⟩
  | cons node nodes ih =>
    obtain ⟨s, symbols, rfl⟩ : ∃ s l, symbols = s :: l := by
      cases symbols with
      | nil => simp [Symbols] at hsymbols
      | cons s l => exact ⟨s, l, rfl⟩
    rw [Symbols, map_cons, map_cons, cons.injEq] at hsymbols
    obtain ⟨hkind, hsymbols⟩ := hsymbols
    have hs := hlt s (by simp)
    have hzero := hfree s (by simp)
    have hd := hdepth node (by simp)
    obtain ⟨hnot, hnodup⟩ := nodup_cons.mp hnodup
    have hget : ∀ x, (out.set s node.depth).getD x 0
        = if x = s then node.depth else out.getD x 0 := by
      intro x
      rw [getD, getElem?_set, getD]
      by_cases hx : s = x
      · subst hx
        simp [hs]
      · rw [if_neg hx, if_neg (Ne.symm hx)]
    rw [leafLengths, hkind]
    simp only
    rw [if_neg hd, setAt_of_lt _ _ hs]
    have hlt' : ∀ x ∈ symbols, x < (out.set s node.depth).length := by
      intro x hx
      rw [length_set]
      exact hlt x (by simp [hx])
    have hfree' : ∀ x ∈ symbols, (out.set s node.depth).getD x 0 = 0 := by
      intro x hx
      have hxs : x ≠ s := fun h => hnot (h ▸ hx)
      rw [hget, if_neg hxs]
      exact hfree x (by simp [hx])
    have hdeepest' : ∀ x, (out.set s node.depth).getD x 0 ≤ max deepest node.depth := by
      intro x
      have := hdeepest x
      rw [hget]
      split <;> omega
    obtain ⟨out', deepest', hrun, hlen, hmass, hne, hle⟩ := ih hsymbols hnodup hlt' hfree'
      (fun x hx => hdepth x (by simp [hx])) hdeepest'
    refine ⟨out', deepest', hrun, ?_, ?_, ?_, hle⟩
    · rw [hlen, length_set]
    · rw [hmass, codeMass_set hs hzero hd, map_cons, sum_cons]
      ring
    · intro x
      rw [hne, hget]
      by_cases hx : x = s
      · simp [hx, hd]
      · simp [hx]

theorem mem_usedSymbols {counts : List ℕ} {maxSymbol s : ℕ} :
  s ∈ usedSymbols counts maxSymbol ↔ s ≤ maxSymbol ∧ counts.getD s 0 ≠ 0
  := by
  rw [usedSymbols, mem_filter, mem_range, decide_eq_true_iff]
  omega

theorem length_usedSymbols_le (counts : List ℕ) (maxSymbol : ℕ) :
  (usedSymbols counts maxSymbol).length ≤ maxSymbol + 1
  := by
  have := length_filter_le (fun s => decide (counts.getD s 0 ≠ 0)) (range (maxSymbol + 1))
  rwa [length_range] at this

/-- The lengths are those of a code for the symbols that occur. -/
structure Lengths (counts : List ℕ) (maxSymbol : ℕ) (lengths : List ℕ) : Prop where
  length_eq : lengths.length = maxHuffSymbol + 1
  mass : codeMass lengths = 1
  ne_zero_iff : ∀ s, lengths.getD s 0 ≠ 0 ↔ s ≤ maxSymbol ∧ counts.getD s 0 ≠ 0

theorem huffLengths_ok {counts : List ℕ} {maxSymbol : ℕ} (floor : ℕ)
    (hmax : maxSymbol ≤ maxHuffSymbol) (hused : 2 ≤ (usedSymbols counts maxSymbol).length) :
  ∃ lengths deepest, huffLengths counts maxSymbol floor = .ok (lengths, deepest)
    ∧ Lengths counts maxSymbol lengths ∧ ∀ s, lengths.getD s 0 ≤ deepest
  := by
  have hle := length_usedSymbols_le counts maxSymbol
  have hkinds : (huffLeaves counts maxSymbol floor).map HuffNode.kind
      = (usedSymbols counts maxSymbol).map HuffKind.leaf := by
    rw [huffLeaves, map_map]
    rfl
  have hzero : ∀ node ∈ huffLeaves counts maxSymbol floor, node.depth = 0 := by
    intro node hnode
    rw [huffLeaves, mem_map] at hnode
    obtain ⟨s, -, rfl⟩ := hnode
    rfl
  have hn : (huffLeaves counts maxSymbol floor).length = (usedSymbols counts maxSymbol).length := by
    rw [huffLeaves, length_map]
  rw [huffLengths]
  generalize huffLeaves counts maxSymbol floor = leaves at *
  rw [if_neg (by omega)]
  set n := leaves.length with hndef
  obtain ⟨order, horder, hperm⟩ := insertLeaves_perm
    (show ([] : List ℕ).Perm (range ([] : List ℕ).length) by simp)
    (show ([] : List ℕ).length + n = leaves.length by simp [hndef])
  have hpending : pending leaves order 0 n = order := by
    rw [pending, hndef]
    simp
  have hstart : Merged leaves.length (pending leaves order 0 n) [] := by
    rw [hpending]
    exact .leaves hperm
  have hcount : (pending leaves order 0 n).length = n - 1 + 1 := by
    rw [hpending, hperm.length_eq, length_range]
    omega
  obtain ⟨nodes, root, ms, hmerge, hholds, hdepth, hmerged⟩ := mergeNodes_merged
    (fun i hi => mem_range.mp (hperm.mem_iff.mp hi)) (by simp [Holds])
    hzero le_rfl hstart hcount
  have hms := hmerged.length_add
  rw [length_singleton] at hms
  have hlen : nodes.length = n + ms.length := by
    have := congrArg length hholds
    simpa using this
  have hdepthOf : ∀ i, depthOf nodes i = 0 := by
    intro i
    rw [depthOf]
    cases hget : nodes[i]? with
    | none => rfl
    | some node => simpa using hdepth node (mem_of_getElem? hget)
  have hkinds' : ∀ j m, ms[j]? = some m →
      nodes[leaves.length + j]?.map HuffNode.kind = some (.merged m.1 m.2) := by
    intro j m hm
    rw [← getElem?_map, hholds, getElem?_append_right (by simp)]
    simp [hm]
  obtain ⟨nodes', hset, hkind', hmass, hbelow⟩ := setDepths_mass hmerged (by omega) hkinds'
    (by
      intro a _
      rw [hdepthOf]
      simp only [maxHuffSymbol] at hmax
      omega)
  have hlen' : nodes'.length = nodes.length := by
    simpa using congrArg length hkind'
  have hms' : n - 1 = ms.length := by omega
  rw [horder, ok_bind, hmerge, ok_bind, hms', hset]
  have hsymbols : Symbols (nodes'.take n) (usedSymbols counts maxSymbol) := by
    rw [Symbols, map_take, hkind', hholds, take_left' (by simp [hndef]), hkinds]
  have hdeep : ∀ node ∈ nodes'.take n, node.depth ≠ 0 := by
    intro node hnode
    obtain ⟨i, hi, rfl⟩ := mem_iff_getElem.mp hnode
    have hin : i < n := by
      rw [length_take] at hi
      omega
    have heq : (nodes'.take n)[i].depth = depthOf nodes' i := by
      rw [depthOf, getElem_take, getElem?_eq_getElem (by omega)]
      rfl
    rcases hbelow i hin with ⟨hmem, -⟩ | ⟨a, -, hlt⟩
    · exact absurd hmem (hmerged.not_mem rfl (by omega) hin)
    · omega
  have hsum : ((nodes'.take n).map (fun node => (1 / 2 : ℚ) ^ node.depth)).sum = 1 := by
    have hmap : (nodes'.take n).map (fun node => (1 / 2 : ℚ) ^ node.depth)
        = (range n).map (fun i => (1 / 2 : ℚ) ^ depthOf nodes' i) := by
      apply ext_getElem
      · rw [length_map, length_map, length_take, length_range]
        omega
      intro i h₁ h₂
      rw [length_map, length_range] at h₂
      rw [getElem_map, getElem_map, getElem_take, getElem_range, depthOf,
        getElem?_eq_getElem (by omega)]
      rfl
    rw [hmap]
    have : mass (depthOf nodes) [root] = 1 := by
      rw [mass]
      simp [hdepthOf]
    exact hmass.trans this
  have hzeros : ∀ s, (replicate (maxHuffSymbol + 1) 0).getD s 0 = 0 := by
    intro s
    rw [getD, getElem?_replicate]
    split <;> rfl
  have hroom : ∀ s ∈ usedSymbols counts maxSymbol,
      s < (replicate (maxHuffSymbol + 1) 0).length := by
    intro s hs
    have := (mem_usedSymbols.mp hs).1
    rw [length_replicate]
    omega
  obtain ⟨lengths, deepest, hrun, hlength, hcode, hne, hdeepest⟩ := leafLengths_ok hsymbols
    (nodup_range.filter _) hroom (fun s _ => hzeros s) hdeep (fun s => (hzeros s).le)
  refine ⟨lengths, deepest, hrun, ⟨?_, ?_, ?_⟩, hdeepest⟩
  · rw [hlength, length_replicate]
  · rw [hcode, hsum, codeMass]
    simp
  · intro s
    rw [hne, mem_usedSymbols]
    tauto

/-! ### The codes -/

/-- The weight of a code of `n` bits. -/
def weightOf (maxBit n : ℕ) : ℕ := if n = 0 then 0 else maxBit + 1 - n

/-- Lengths of codes that leave nothing over, the longest of `maxBit` bits. -/
structure Codes (bits : List ℕ) (maxBit : ℕ) : Prop where
  le : ∀ n ∈ bits, n ≤ maxBit
  mem : maxBit ∈ bits
  pos : 1 ≤ maxBit
  maxBit_le : maxBit ≤ maxHuffBits
  mass : codeMass bits = 1
  length_le : bits.length ≤ 256

theorem sum_slots_weightOf {maxBit : ℕ} (h : ∀ n ∈ bits, n ≤ maxBit) :
  ((((bits.map (weightOf maxBit)).map slots).sum : ℕ) : ℚ) = 2 ^ maxBit * codeMass bits
  := by
  induction bits with
  | nil => simp [codeMass]
  | cons n bits ih =>
    have hn := h n (by simp)
    have hslots : ((slots (weightOf maxBit n) : ℕ) : ℚ)
        = 2 ^ maxBit * if n = 0 then 0 else (1 / 2 : ℚ) ^ n := by
      rw [weightOf]
      by_cases hzero : n = 0
      · rw [if_pos hzero, if_pos hzero]
        simp [slots]
      obtain ⟨k, rfl⟩ : ∃ k, maxBit = k + n := ⟨maxBit - n, by omega⟩
      rw [if_neg hzero, if_neg hzero, slots, if_neg (by omega),
        show k + n + 1 - n - 1 = k by omega, pow_add, mul_assoc, ← mul_pow]
      norm_num
    rw [codeMass] at ih ⊢
    rw [map_cons, map_cons, sum_cons, map_cons, sum_cons, Nat.cast_add,
      ih (fun m hm => h m (by simp [hm])), hslots]
    ring

theorem count_weightOf {maxBit n : ℕ} (h : ∀ k ∈ bits, k ≤ maxBit) (hn : 1 ≤ n)
    (hmax : n ≤ maxBit) :
  (bits.map (weightOf maxBit)).count (maxBit + 1 - n) = bits.count n
  := by
  induction bits with
  | nil => rfl
  | cons k bits ih =>
    rw [map_cons, count_cons, count_cons, ih (fun m hm => h m (by simp [hm]))]
    congr 1
    have : weightOf maxBit k = maxBit + 1 - n ↔ k = n := by
      rw [weightOf]
      split <;> omega
    simp only [beq_iff_eq, this]

theorem sum_slots_mod_two (weights : List ℕ) :
  (weights.map slots).sum % 2 = weights.count 1 % 2
  := by
  induction weights with
  | nil => rfl
  | cons w weights ih =>
    rw [map_cons, sum_cons, count_cons]
    have hslots : slots w % 2 = if w = 1 then 1 else 0 := by
      rw [slots]
      by_cases h₀ : w = 0
      · simp [h₀]
      by_cases h₁ : w = 1
      · simp [h₁]
      · obtain ⟨k, rfl⟩ : ∃ k, w = k + 2 := ⟨w - 2, by omega⟩
        rw [if_neg h₀, if_neg h₁, show k + 2 - 1 = k + 1 by omega, pow_succ, Nat.mul_mod_left]
    simp only [beq_iff_eq]
    split at hslots
    · rename_i hw
      rw [if_pos hw]
      omega
    · rename_i hw
      rw [if_neg hw]
      omega

theorem weightOf_le {maxBit w : ℕ} (hw : w ∈ bits.map (weightOf maxBit)) :
  w ≤ maxBit
  := by
  obtain ⟨n, -, rfl⟩ := mem_map.mp hw
  rw [weightOf]
  split <;> omega

namespace Codes

variable {bits : List ℕ} {maxBit : ℕ} (h : Codes bits maxBit)

include h

theorem sum_slots :
  ((bits.map (weightOf maxBit)).map slots).sum = 2 ^ maxBit
  := by
  have := sum_slots_weightOf h.le
  rw [h.mass, mul_one] at this
  exact_mod_cast this

/-- The weights make a code. -/
theorem complete {front : List ℕ} {last : ℕ} (hbits : bits = front ++ [last]) (hlast : last ≠ 0) :
  Complete (front.map (weightOf maxBit)) (weightOf maxBit last) maxBit
  := by
  have hall : front.map (weightOf maxBit) ++ [weightOf maxBit last]
      = bits.map (weightOf maxBit) := by
    rw [hbits, map_append]
    rfl
  have hle := h.le last (by rw [hbits]; simp)
  have hones : 1 ≤ (bits.map (weightOf maxBit)).count 1 := by
    have := count_weightOf h.le h.pos (le_refl maxBit)
    rw [show maxBit + 1 - maxBit = 1 by omega] at this
    rw [this]
    exact count_pos_iff.mpr h.mem
  have heven : (bits.map (weightOf maxBit)).count 1 % 2 = 0 := by
    obtain ⟨k, hk⟩ : ∃ k, maxBit = k + 1 := ⟨maxBit - 1, by have := h.pos; omega⟩
    rw [← sum_slots_mod_two, h.sum_slots, hk, pow_succ, Nat.mul_mod_left]
  refine ⟨h.maxBit_le, ?_, ?_, ?_, ?_, ?_⟩
  · intro w hw'
    obtain ⟨n, hn, rfl⟩ := mem_map.mp hw'
    exact weightOf_le (mem_map_of_mem (show n ∈ bits by rw [hbits]; simp [hn]))
  · rw [weightOf, if_neg hlast]
    omega
  · rw [weightOf, if_neg hlast]
    omega
  · rw [hall, h.sum_slots]
  · rw [hall]
    omega

/-- The first slot of each weight. -/
theorem start_end :
  start (fun w => 2 ^ (w - 1)) (bits.map (weightOf maxBit)) (maxBit + 1) = 2 ^ maxBit
  := by
  rw [start_eq_sum_slots (fun _ => weightOf_le), h.sum_slots]

/-- The slots of the smaller weights fill whole slots of the next. -/
theorem two_pow_dvd_start {w : ℕ} (hw : w ≤ maxBit) :
  2 ^ w ∣ start (fun w => 2 ^ (w - 1)) (bits.map (weightOf maxBit)) (w + 1)
  := by
  induction hw using Nat.decreasingInduction with
  | self => rw [h.start_end]
  | of_succ w hw ih =>
    have hsucc := start_succ (fun w => 2 ^ (w - 1)) (bits.map (weightOf maxBit))
      (show 1 ≤ w + 1 by omega)
    have hdvd := (Nat.pow_dvd_pow 2 (Nat.le_succ w)).trans ih
    rw [hsucc] at hdvd
    exact (Nat.dvd_add_left (Dvd.intro_left _ rfl)).mp hdvd

end Codes

end Zstd
