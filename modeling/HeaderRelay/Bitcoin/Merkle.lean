import HeaderRelay.Error
import HeaderRelay.Hash.Sha256
import HeaderRelay.Text.Hex

/-!
# Bitcoin transaction trees

Level 0 holds the leaves. Each further level joins the nodes of the one below in pairs, a node without
a partner being joined with itself, until a level holds a single hash, the root. A proof lists the leaf
and one sibling per joining, with the side on which the sibling stands.
-/
namespace HeaderRelay.Bitcoin

/-! ## Positions -/

/-- A place in a tree: a level, counted from the leaves, and an index in it. -/
structure TreePosition where
  height : Nat
  index : Nat
  deriving DecidableEq, Repr

namespace TreePosition

def parent (p : TreePosition) : TreePosition := ⟨p.height + 1, p.index / 2⟩

/-- The index of the partner on the same level. Mirrors `sibling_index`. -/
def siblingIndex (p : TreePosition) : Nat := if p.index % 2 = 0 then p.index + 1 else p.index - 1

/-- Whether the partner stands to the left. Mirrors `sibling_is_left`. -/
def siblingIsLeft (p : TreePosition) : Bool := p.index % 2 == 1

def path (p : TreePosition) : (count : Nat) → List TreePosition
  | 0 => []
  | count + 1 => p :: p.parent.path count

end TreePosition

/-! ## Trees -/

/-- The level above. -/
def levelAbove : List Hash → List Hash
  | [] => []
  | [a] => [pairHash a a]
  | a :: b :: rest => pairHash a b :: levelAbove rest

@[simp] theorem length_levelAbove (l : List Hash) : (levelAbove l).length = (l.length + 1) / 2 := by
  induction l using levelAbove.induct with
  | case1 => rfl
  | case2 a => simp [levelAbove]
  | case3 a b rest ih => simp only [levelAbove, List.length_cons, ih]; omega

/-- A level and those above it, up to the first with at most one node; `fuel` bounds their number. -/
def levelsFrom : (fuel : Nat) → List Hash → List (List Hash)
  | 0, level => [level]
  | fuel + 1, level => if level.length ≤ 1 then [level] else level :: levelsFrom fuel (levelAbove level)

/-- All levels over the leaves. -/
def levelsOver (leaves : List Hash) : List (List Hash) := levelsFrom leaves.length leaves

/-- A tree by its levels, the last of which is the root alone. Mirrors `BtcMerkleTree`. -/
structure MerkleTree where
  levels : List (List Hash)
  root : Hash
  levels_getLast? : levels.getLast? = some [root]

namespace MerkleTree

/-- The tree over the leaves; there is none over no leaves. -/
def build (leaves : List Hash) : Relayed MerkleTree :=
  match h : (levelsOver leaves).getLast? with
  | some [root] => .ok ⟨levelsOver leaves, root, h⟩
  | _ => .error .emptyLeafSet

def leaves (t : MerkleTree) : List Hash := t.levels.headD []

def depth (t : MerkleTree) : Nat := t.levels.length

/-- The node at a position. -/
def node? (t : MerkleTree) (p : TreePosition) : Option Hash := do (← t.levels[p.height]?)[p.index]?

end MerkleTree

/-- The root over the leaves. Mirrors `compute_root`. -/
def merkleRoot (leaves : List Hash) : Relayed Hash := (MerkleTree.build leaves).map (·.root)

/-! ## Proofs -/

/-- An inclusion proof: the leaf, then one sibling per joining; `sides` tells for each joining whether the sibling
is the left one. Mirrors `BtcMerkleProof`. -/
structure MerkleProof where
  leaf : Hash
  siblings : List Hash
  sides : List Bool
  deriving DecidableEq, Inhabited

/-- The partner of node `index` on a level; a node without one is its own. -/
def partner (level : List Hash) (index : Nat) : Hash :=
  level.getD (TreePosition.siblingIndex ⟨0, index⟩) (level.getD index Hash.zero)

/-- The joinings from node `index` of the first level up to the root. -/
def joinings : List (List Hash) → (index : Nat) → List (Hash × Bool)
  | level :: above :: rest, index =>
    (partner level index, TreePosition.siblingIsLeft ⟨0, index⟩) :: joinings (above :: rest) (index / 2)
  | _, _ => []

/-- The proof of a leaf, found by value; of equal leaves the first is proven. Mirrors `prove_inclusion`. -/
def MerkleTree.prove (t : MerkleTree) (leaf : Hash) : Relayed MerkleProof :=
  match t.leaves.findIdx? (· == leaf) with
  | none => .error (.leafNotFound leaf.hex)
  | some index =>
    let path := joinings t.levels index
    .ok ⟨leaf, leaf :: path.map (·.1), path.map (·.2)⟩

namespace MerkleProof

/-- A proof has one sibling more than sides, and the first sibling is the leaf. Mirrors
`invariant_btc_proof_shape`. -/
def checkShape (p : MerkleProof) : Relayed Unit :=
  if p.siblings.length ≠ p.sides.length + 1 then
    .error (.proofShapeMismatch p.siblings.length p.sides.length)
  else if p.siblings.head? ≠ some p.leaf then .error (.invalidProof "first sibling must be the leaf")
  else .ok ()

/-- One joining. -/
def join (current : Hash) (step : Hash × Bool) : Hash :=
  if step.2 then pairHash step.1 current else pairHash current step.1

/-- The hash that the joinings lead to. -/
def replay (p : MerkleProof) : Hash := (p.siblings.tail.zip p.sides).foldl join p.leaf

/-- The root that a well-shaped proof implies. Mirrors `verify`. -/
def impliedRoot (p : MerkleProof) : Relayed Hash := do
  p.checkShape
  return p.replay

end MerkleProof

end HeaderRelay.Bitcoin
