import HeaderRelay.Consensus.TxResult
import HeaderRelay.Error
import HeaderRelay.Hash.Sha256

/-!
# Consensus-chain trees

A list of leaves is cut at the largest power of two below its length, and the halves are hashed in the
same way. The root, the construction of a proof and its verification all cut at the same place, so a
proof carries no sides: its index and the number of leaves determine them.
-/
namespace HeaderRelay.Consensus

/-- The largest power of two below `n`, and zero for `n` at most one. Mirrors `split_point`. -/
def leftCount (n : Nat) : Nat := if n ≤ 1 then 0 else twoPow (n - 1).log2

theorem leftCount_pos {n : Nat} (h : 2 ≤ n) : 0 < leftCount n := by
  unfold leftCount
  split
  · omega
  · exact twoPow_pos _

theorem leftCount_lt {n : Nat} (h : 2 ≤ n) : leftCount n < n := by
  unfold leftCount
  split
  · omega
  · have : twoPow (n - 1).log2 ≤ n - 1 := Nat.log2_self_le (by omega)
    omega

/-- The root over the leaves from one on; `fuel` bounds the number of cuts. -/
def rootFrom : (fuel : Nat) → List Bytes → Hash
  | 0, _ => emptyHash
  | fuel + 1, leaves =>
    match leaves with
    | [] => emptyHash
    | [leaf] => leafHash leaf
    | leaves =>
      let k := leftCount leaves.length
      innerHash (rootFrom fuel (leaves.take k)) (rootFrom fuel (leaves.drop k))

/-- The root over the leaves. Mirrors `merkle_root`. -/
def merkleRoot (leaves : List Bytes) : Hash := rootFrom leaves.length leaves

/-! ## Proofs -/

/-- An inclusion proof: how many leaves there were, which one is proven, its hash, and the roots of the halves it
is not in, nearest the leaf first. Mirrors `TmMerkleProof`. -/
structure MerkleProof where
  total : Nat
  index : Nat
  leafHash : Hash
  aunts : List Hash
  deriving DecidableEq, Inhabited

/-- The hash of leaf `index` and the roots of the halves it is not in, nearest the leaf first. Mirrors
`proof_path`. -/
def pathFrom : (fuel : Nat) → List Bytes → (index : Nat) → Hash × List Hash
  | 0, _, _ => (emptyHash, [])
  | fuel + 1, leaves, index =>
    match leaves with
    | [] => (emptyHash, [])
    | [leaf] => (HeaderRelay.leafHash leaf, [])
    | leaves =>
      let k := leftCount leaves.length
      if index < k then
        let (leaf, aunts) := pathFrom fuel (leaves.take k) index
        (leaf, aunts ++ [merkleRoot (leaves.drop k)])
      else
        let (leaf, aunts) := pathFrom fuel (leaves.drop k) (index - k)
        (leaf, aunts ++ [merkleRoot (leaves.take k)])

/-- The proof of the leaf at an index. Mirrors `build_proof`. -/
def prove (leaves : List Bytes) (index : Nat) : Relayed MerkleProof :=
  if index < leaves.length then
    let (leaf, aunts) := pathFrom leaves.length leaves index
    .ok ⟨leaves.length, index, leaf, aunts⟩
  else .error (.indexOutOfRange index leaves.length)

/-- The root that a leaf's hash and the aunts lead to, the aunts given from the root down. Mirrors
`root_from_aunts`. -/
def climb (leaf : Hash) : (aunts : List Hash) → (index total : Nat) → Option Hash
  | [], index, total => if total = 1 ∧ index = 0 then some leaf else none
  | aunt :: rest, index, total =>
    if index < total ∧ 2 ≤ total then
      let k := leftCount total
      if index < k then (climb leaf rest index k).map (innerHash · aunt)
      else (climb leaf rest (index - k) (total - k)).map (innerHash aunt ·)
    else none

namespace MerkleProof

/-- The index of a proof is one of a leaf. Mirrors `invariant_tm_proof_index`. -/
def checkIndex (p : MerkleProof) : Relayed Unit :=
  if p.index < p.total then .ok () else .error (.indexOutOfRange p.index p.total)

/-- The root that a proof implies. Mirrors `compute_root`. -/
def impliedRoot (p : MerkleProof) : Relayed Hash := do
  p.checkIndex
  match climb p.leafHash p.aunts.reverse p.index p.total with
  | some root => return root
  | none =>
    throw (.invalidProof s!"{p.aunts.length} aunts do not fit index {p.index} of {p.total}")

/-- Checks that a proof shows `leaf` under `root`. -/
def verify (p : MerkleProof) (root : Hash) (leaf : Bytes) : Relayed Unit := do
  if HeaderRelay.leafHash leaf ≠ p.leafHash then throw (.invalidProof "leaf hash mismatch")
  let implied ← p.impliedRoot
  if implied ≠ root then throw (.invalidProof "root mismatch")

end MerkleProof

/-! ## Transaction results -/

/-- The root over the results of a block, as the next header commits to it. Mirrors `results_root`. -/
def resultsRoot (results : List TxResult) : Hash := merkleRoot (results.map TxResult.encode)

/-- The root over the results of a block, with the proof of one of them. Mirrors `prove_tx_result`. -/
def proveResult (results : List TxResult) (index : Nat) : Relayed (Hash × MerkleProof) := do
  let proof ← prove (results.map TxResult.encode) index
  return (resultsRoot results, proof)

end HeaderRelay.Consensus
