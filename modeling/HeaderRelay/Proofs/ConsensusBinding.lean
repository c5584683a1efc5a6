import HeaderRelay.Proofs.ConsensusTree

/-!
# What a consensus-chain proof binds

A proof may claim any number of leaves, so the cuts that its climb undoes need not be those of the tree whose
root it leads to. Both hashes are computed here with a record of what was hashed (`Hashed`): `hashedRoot` is the
root and `hashedClimb` the climb, each with the inputs on its way.

Where the two values are the same, so are the inputs hashed last, or they collide; and as the tags tell leaves
from nodes, the climb then stands at a node where the tree does, and comes down beside it. So a leaf that
verifies under the root is one of the leaves, and the one at the index of the proof if the number of leaves is
right, or an input of the verification collides with one of the root (`verified_leaf_bound`).
-/
namespace HeaderRelay.Consensus

/-! ## Hashes on record -/

/-- A hash, with all that was hashed on the way to it. -/
structure Hashed where
  value : Hash
  inputs : List Bytes

namespace Hashed

def hashing (input : Bytes) (earlier : List Bytes) : Hashed := ⟨sha256 input, input :: earlier⟩

def given (hash : Hash) : Hashed := ⟨hash, []⟩

def leaf (b : Bytes) : Hashed := hashing (0 :: b) []

def inner (left right : Hashed) : Hashed :=
  hashing (1 :: (left.value.bytes ++ right.value.bytes)) (left.inputs ++ right.inputs)

/-- Two different byte strings of two records have the same hash. -/
def Collides (x y : Hashed) : Prop := ∃ a ∈ x.inputs, ∃ b ∈ y.inputs, a ≠ b ∧ sha256 a = sha256 b

variable {x y left right left' right' : Hashed} {b c : Bytes}

theorem Collides.mono {x' y' : Hashed} (h : x.Collides y) (hx : x.inputs ⊆ x'.inputs) (hy : y.inputs ⊆ y'.inputs) :
    x'.Collides y' := by
  obtain ⟨a, ha, b, hb, hcollide⟩ := h
  exact ⟨a, hx ha, b, hy hb, hcollide⟩

theorem inputs_left (left right : Hashed) : left.inputs ⊆ (left.inner right).inputs := fun _ h =>
  List.mem_cons_of_mem _ (List.mem_append_left _ h)

theorem inputs_right (left right : Hashed) : right.inputs ⊆ (left.inner right).inputs := fun _ h =>
  List.mem_cons_of_mem _ (List.mem_append_right _ h)

theorem eq_or_collides {a b : Bytes} {as bs : List Bytes} (h : (hashing a as).value = (hashing b bs).value) :
    a = b ∨ (hashing a as).Collides (hashing b bs) := by
  by_cases hab : a = b
  · exact .inl hab
  · exact .inr ⟨a, List.mem_cons_self, b, List.mem_cons_self, hab, h⟩

theorem leaf_eq_or_collides (h : (leaf b).value = (leaf c).value) : b = c ∨ (leaf b).Collides (leaf c) :=
  (eq_or_collides h).imp_left fun heq => (List.cons.inj heq).2

-- a leaf is tagged with zero and a node with one, so the two inputs differ at the first byte
theorem inner_collides_leaf (h : (left.inner right).value = (leaf b).value) : (left.inner right).Collides (leaf b) :=
  (eq_or_collides h).resolve_left fun heq => absurd (List.cons.inj heq).1 (by decide)

theorem leaf_collides_inner (h : (leaf b).value = (left.inner right).value) : (leaf b).Collides (left.inner right) :=
  (eq_or_collides h).resolve_left fun heq => absurd (List.cons.inj heq).1 (by decide)

theorem inner_eq_or_collides (h : (left.inner right).value = (left'.inner right').value) :
    (left.value = left'.value ∧ right.value = right'.value) ∨ (left.inner right).Collides (left'.inner right') := by
  refine (eq_or_collides h).imp_left fun heq => ?_
  have hlength : left.value.bytes.length = left'.value.bytes.length := by
    rw [left.value.length_eq, left'.value.length_eq]
  obtain ⟨hl, hr⟩ := List.append_inj (List.cons.inj heq).2 hlength
  exact ⟨Hash.ext_bytes hl, Hash.ext_bytes hr⟩

end Hashed

variable {leaves : List Bytes} {b c : Bytes} {aunts : List Hash} {index total : Nat} {start x : Hashed}

/-! ## The root and the climb -/

def hashedRoot (leaves : List Bytes) : Hashed :=
  if _h : 2 ≤ leaves.length then
    (hashedRoot (leaves.take (leftCount leaves.length))).inner (hashedRoot (leaves.drop (leftCount leaves.length)))
  else .leaf (leaves.headD [])
termination_by leaves.length
decreasing_by
  · have := cut_lengths _h
    omega
  · have := cut_lengths _h
    omega

theorem hashedRoot_cut (h : 2 ≤ leaves.length) :
    hashedRoot leaves = (hashedRoot (leaves.take (leftCount leaves.length))).inner
      (hashedRoot (leaves.drop (leftCount leaves.length))) := by
  rw [hashedRoot, dif_pos h]

theorem hashedRoot_nil : hashedRoot [] = .leaf [] := by
  rw [hashedRoot]
  rfl

theorem hashedRoot_singleton (b : Bytes) : hashedRoot [b] = .leaf b := by
  rw [hashedRoot]
  rfl

theorem value_hashedRoot (leaves : List Bytes) : (hashedRoot leaves).value = merkleRoot leaves := by
  induction leaves using cut_induction with
  | nil => rw [hashedRoot_nil]; rfl
  | leaf b => rw [hashedRoot_singleton]; rfl
  | cut leaves hmany ihleft ihright =>
    rw [hashedRoot_cut hmany, merkleRoot_cut hmany, ← ihleft, ← ihright]
    rfl

def hashedClimb (start : Hashed) : (aunts : List Hash) → (index total : Nat) → Option Hashed
  | [], index, total => if total = 1 ∧ index = 0 then some start else none
  | aunt :: rest, index, total =>
    if index < total ∧ 2 ≤ total then
      let k := leftCount total
      if index < k then (hashedClimb start rest index k).map (·.inner (.given aunt))
      else (hashedClimb start rest (index - k) (total - k)).map ((Hashed.given aunt).inner ·)
    else none

theorem map_value_hashedClimb (start : Hashed) (aunts : List Hash) (index total : Nat) :
    (hashedClimb start aunts index total).map (·.value) = climb start.value aunts index total := by
  induction aunts generalizing index total with
  | nil =>
    unfold hashedClimb climb
    split <;> rfl
  | cons aunt rest ih =>
    unfold hashedClimb climb
    split
    · dsimp only
      split
      · rw [← ih, Option.map_map, Option.map_map]
        rfl
      · rw [← ih, Option.map_map, Option.map_map]
        rfl
    · rfl

/-- A climb either stays at its start, or joins with an aunt what it came to on one side of the cut. -/
theorem hashedClimb_cases (h : hashedClimb start aunts index total = some x) :
    (total = 1 ∧ index = 0 ∧ x = start) ∨
    ∃ aunt rest y, aunts = aunt :: rest ∧
      ((hashedClimb start rest index (leftCount total) = some y ∧ x = y.inner (.given aunt)) ∨
        (hashedClimb start rest (index - leftCount total) (total - leftCount total) = some y ∧
          leftCount total ≤ index ∧ x = (Hashed.given aunt).inner y)) := by
  cases aunts with
  | nil =>
    unfold hashedClimb at h
    split at h
    · rename_i hone
      cases h
      exact .inl ⟨hone.1, hone.2, rfl⟩
    · cases h
  | cons aunt rest =>
    unfold hashedClimb at h
    split at h
    · dsimp only at h
      split at h
      · obtain ⟨y, hy, rfl⟩ := Option.map_eq_some_iff.mp h
        exact .inr ⟨aunt, rest, y, rfl, .inl ⟨hy, rfl⟩⟩
      · rename_i hright
        obtain ⟨y, hy, rfl⟩ := Option.map_eq_some_iff.mp h
        exact .inr ⟨aunt, rest, y, rfl, .inr ⟨hy, Nat.not_lt.mp hright, rfl⟩⟩
    · cases h

/-! ## Binding -/

theorem climb_to_leaf (h : hashedClimb (.leaf b) aunts index total = some x) (hvalue : x.value = (Hashed.leaf c).value) :
    (b = c ∧ index = 0) ∨ x.Collides (.leaf c) := by
  rcases hashedClimb_cases h with ⟨-, hindex, rfl⟩ | ⟨aunt, rest, y, -, ⟨-, rfl⟩ | ⟨-, -, rfl⟩⟩
  · exact (Hashed.leaf_eq_or_collides hvalue).imp_left fun hbc => ⟨hbc, hindex⟩
  · exact .inr (Hashed.inner_collides_leaf hvalue)
  · exact .inr (Hashed.inner_collides_leaf hvalue)

/-- A leaf among others, at the index if the number of leaves is the total. -/
def Included (leaves : List Bytes) (index total : Nat) (b : Bytes) : Prop :=
  b ∈ leaves ∧ (total = leaves.length → leaves[index]? = some b)

theorem Included.of_left (h : 2 ≤ leaves.length)
    (hleft : Included (leaves.take (leftCount leaves.length)) index (leftCount total) b) :
    Included leaves index total b := by
  refine ⟨List.mem_of_mem_take hleft.1, fun htotal => ?_⟩
  have hget := hleft.2 (by rw [htotal, (cut_lengths h).2.1])
  rw [List.getElem?_take] at hget
  split at hget
  · exact hget
  · cases hget

theorem Included.of_right (h : 2 ≤ leaves.length) (hindex : leftCount total ≤ index)
    (hright : Included (leaves.drop (leftCount leaves.length)) (index - leftCount total) (total - leftCount total) b) :
    Included leaves index total b := by
  refine ⟨List.mem_of_mem_drop hright.1, fun htotal => ?_⟩
  have hget := hright.2 (by rw [htotal, (cut_lengths h).2.2])
  rwa [List.getElem?_drop, htotal, Nat.add_sub_cancel' (htotal ▸ hindex)] at hget

/-- **Coming down.** A climb that comes to the root over some leaves started from one of them, or an input of the
climb collides with one of the root. -/
theorem climb_to_root (hne : leaves ≠ []) (h : hashedClimb (.leaf b) aunts index total = some x)
    (hvalue : x.value = (hashedRoot leaves).value) :
    Included leaves index total b ∨ x.Collides (hashedRoot leaves) := by
  induction leaves using cut_induction generalizing aunts index total x with
  | nil => exact absurd rfl hne
  | leaf c =>
    rw [hashedRoot_singleton] at hvalue ⊢
    refine (climb_to_leaf h hvalue).imp_left fun hbc => ?_
    obtain ⟨rfl, rfl⟩ := hbc
    exact ⟨List.mem_singleton_self b, fun _ => rfl⟩
  | cut leaves hmany ihleft ihright =>
    obtain ⟨hcut, hleft, hright⟩ := cut_lengths hmany
    rw [hashedRoot_cut hmany] at hvalue ⊢
    rcases hashedClimb_cases h with ⟨-, -, rfl⟩ | ⟨aunt, rest, y, -, ⟨hy, rfl⟩ | ⟨hy, hindex, rfl⟩⟩
    · exact .inr (Hashed.leaf_collides_inner hvalue)
    · -- on the left of its own cut, the climb stands on the left of the tree's
      rcases Hashed.inner_eq_or_collides hvalue with ⟨hvalue, -⟩ | hcollides
      · rcases ihleft (List.ne_nil_of_length_pos (by omega)) hy hvalue with hincluded | hcollides
        · exact .inl (hincluded.of_left hmany)
        · exact .inr (hcollides.mono (Hashed.inputs_left _ _) (Hashed.inputs_left _ _))
      · exact .inr hcollides
    · rcases Hashed.inner_eq_or_collides hvalue with ⟨-, hvalue⟩ | hcollides
      · rcases ihright (List.ne_nil_of_length_pos (by omega)) hy hvalue with hincluded | hcollides
        · exact .inl (hincluded.of_right hmany hindex)
        · exact .inr (hcollides.mono (Hashed.inputs_right _ _) (Hashed.inputs_right _ _))
      · exact .inr hcollides

def MerkleProof.hashed? (p : MerkleProof) (b : Bytes) : Option Hashed :=
  hashedClimb (.leaf b) p.aunts.reverse p.index p.total

theorem MerkleProof.exists_hashed {p : MerkleProof} {root : Hash} (h : p.verify root b = .ok ()) :
    ∃ x, p.hashed? b = some x ∧ x.value = root := by
  obtain ⟨hleaf, hroot⟩ := verify_eq_ok_iff.mp h
  have hclimb := (impliedRoot_eq_ok_iff.mp hroot).2
  rw [hleaf] at hclimb
  exact Option.map_eq_some_iff.mp ((map_value_hashedClimb (.leaf b) _ _ _).trans hclimb)

/-- **Binding.** Whatever a proof claims, a leaf that verifies under the root is one of the leaves, and the one at
the index of the proof if it has the right number of leaves. Without leaves it is the empty string. Otherwise an
input of the verification collides with one of the root. -/
theorem verified_leaf_bound {p : MerkleProof} (h : p.verify (merkleRoot leaves) b = .ok ()) :
    ∃ x, p.hashed? b = some x ∧ x.value = merkleRoot leaves ∧
      ((b ∈ leaves ∧ (p.total = leaves.length → leaves[p.index]? = some b)) ∨ (leaves = [] ∧ b = []) ∨
        x.Collides (hashedRoot leaves)) := by
  obtain ⟨x, hx, hvalue⟩ := MerkleProof.exists_hashed h
  refine ⟨x, hx, hvalue, ?_⟩
  by_cases hnil : leaves = []
  · subst hnil
    rw [hashedRoot_nil]
    exact .inr ((climb_to_leaf hx hvalue).imp_left fun hb => ⟨rfl, hb.1⟩)
  · exact (climb_to_root hnil hx (hvalue.trans (value_hashedRoot leaves).symm)).imp_right .inr

def threeLeaves : List Bytes := [[1], [2], [3]]

/-- A proof of the first of three leaves that takes them for four. -/
def overcountingProof : MerkleProof := ⟨4, 0, leafHash [1], [leafHash [2], leafHash [3]]⟩

def emptyProof : MerkleProof := ⟨1, 0, emptyHash, []⟩

/-- A proof with a wrong number of leaves may verify, and it binds; the empty string verifies where there are no
leaves. -/
theorem overcounted_leaf_bound :
    emptyProof.verify (merkleRoot []) [] = .ok () ∧ overcountingProof.total ≠ threeLeaves.length ∧
      overcountingProof.verify (merkleRoot threeLeaves) [1] = .ok () ∧
      ∃ x, overcountingProof.hashed? [1] = some x ∧ x.value = merkleRoot threeLeaves ∧
        ([1] ∈ threeLeaves ∨ x.Collides (hashedRoot threeLeaves)) := by
  have hempty : emptyProof.verify (merkleRoot []) [] = .ok () :=
    MerkleProof.verify_eq_ok_iff.mpr ⟨rfl, MerkleProof.impliedRoot_eq_ok_iff.mpr ⟨by decide, rfl⟩⟩
  have hover : overcountingProof.verify (merkleRoot threeLeaves) [1] = .ok () :=
    MerkleProof.verify_eq_ok_iff.mpr ⟨rfl, MerkleProof.impliedRoot_eq_ok_iff.mpr ⟨by decide, rfl⟩⟩
  obtain ⟨x, hx, hvalue, hbound⟩ := verified_leaf_bound hover
  refine ⟨hempty, by decide, hover, x, hx, hvalue, ?_⟩
  rcases hbound with ⟨hmem, -⟩ | ⟨hnil, -⟩ | hcollides
  · exact .inl hmem
  · exact absurd hnil (by decide)
  · exact .inr hcollides

end HeaderRelay.Consensus
