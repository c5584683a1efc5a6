import HeaderRelay.Bitcoin.Merkle

/-!
# Proofs of the leaves of a Bitcoin tree

`Layered` says what a tree is: a level with more than one node lies below the level that joins its nodes, and
the single node of the last is the root. There is one over every list with a leaf (`exists_build`), and a node
of a level is the hash of its two children in the one below (`getElem?_levelAbove`).

Along the joinings that a proof lists, the running hash is a node of each level, also where a node without a
partner is joined with itself (`Layered.foldl_joinings`). So the proof of each leaf leads to the root, and its
sides are the bits of the leaf's place (`leaf_proofs_replay`).
-/
namespace HeaderRelay.Bitcoin

/-! ## Levels -/

def childrenAt? (level : List Hash) (index : Nat) : Option (Hash × Hash) :=
  level[2 * index]?.map fun left => (left, level.getD (2 * index + 1) left)

theorem getElem?_levelAbove (level : List Hash) (index : Nat) :
    (levelAbove level)[index]? = (childrenAt? level index).map fun pair => pairHash pair.1 pair.2 := by
  unfold childrenAt?
  induction level using levelAbove.induct generalizing index with
  | case1 => simp [levelAbove]
  | case2 a => cases index <;> simp [levelAbove, Nat.mul_succ]
  | case3 a b rest ih =>
    cases index with
    | zero => simp [levelAbove]
    | succ index => simp [levelAbove, Nat.mul_succ, ih]

/-- The levels of a tree, from the leaves to the root. -/
inductive Layered : (leaves : List Hash) → (levels : List (List Hash)) → (root : Hash) → Prop
  | root (hash : Hash) : Layered [hash] [[hash]] hash
  | above {level : List Hash} {levels : List (List Hash)} {root : Hash} (hlength : 1 < level.length)
      (hrest : Layered (levelAbove level) levels root) : Layered level (level :: levels) root

variable {level leaves : List Hash} {levels : List (List Hash)} {leaf root : Hash} {index : Nat}

theorem Layered.exists_cons (h : Layered leaves levels root) : ∃ rest, levels = leaves :: rest := by
  cases h with
  | root => exact ⟨[], rfl⟩
  | above => exact ⟨_, rfl⟩

theorem Layered.getLast?_eq (h : Layered leaves levels root) : levels.getLast? = some [root] := by
  induction h with
  | root => rfl
  | above _ _ ih => rw [List.getLast?_cons, ih, Option.getD_some]

theorem exists_layered {fuel : Nat} (hpos : 0 < level.length) (hfuel : level.length ≤ fuel + 1) :
    ∃ root, Layered level (levelsFrom fuel level) root := by
  induction fuel generalizing level with
  | zero =>
    obtain ⟨hash, rfl⟩ := List.length_eq_one_iff.mp (Nat.le_antisymm hfuel hpos)
    exact ⟨hash, .root hash⟩
  | succ fuel ih =>
    unfold levelsFrom
    split
    · rename_i hone
      obtain ⟨hash, rfl⟩ := List.length_eq_one_iff.mp (Nat.le_antisymm hone hpos)
      exact ⟨hash, .root hash⟩
    · rename_i hmany
      have habove := length_levelAbove level
      obtain ⟨root, hrest⟩ := ih (show 0 < (levelAbove level).length by omega) (by omega)
      exact ⟨root, .above (by omega) hrest⟩

theorem exists_build (h : leaves ≠ []) :
    ∃ t, MerkleTree.build leaves = .ok t ∧ Layered leaves t.levels t.root := by
  obtain ⟨root, hlayered⟩ := exists_layered (List.length_pos_iff.mpr h) (Nat.le_succ leaves.length)
  refine ⟨⟨levelsOver leaves, root, hlayered.getLast?_eq⟩, ?_, hlayered⟩
  unfold MerkleTree.build
  split
  · rename_i root' hlast
    obtain rfl : root' = root := by simpa using hlast.symm.trans hlayered.getLast?_eq
    rfl
  · rename_i hnone
    exact absurd hlayered.getLast?_eq (hnone root)

theorem merkleRoot_of_build {t : MerkleTree} (h : MerkleTree.build leaves = .ok t) : merkleRoot leaves = .ok t.root := by
  rw [merkleRoot, h]
  rfl

theorem MerkleTree.levels_of_build {t : MerkleTree} (h : build leaves = .ok t) : t.levels = levelsOver leaves := by
  unfold build at h
  split at h
  · cases h
    rfl
  · cases h

/-! ## The path of a leaf -/

theorem getElem?_levelAbove_half (h : level[index]? = some leaf) :
    (levelAbove level)[index / 2]? =
      some (MerkleProof.join leaf (partner level index, TreePosition.siblingIsLeft ⟨0, index⟩)) := by
  rw [getElem?_levelAbove]
  unfold childrenAt? partner MerkleProof.join TreePosition.siblingIsLeft TreePosition.siblingIndex
  have hlt : index < level.length := (List.getElem?_eq_some_iff.mp h).1
  -- a left node may be its own partner; a right node has one
  rcases Nat.mod_two_eq_zero_or_one index with heven | hodd
  · have hleft : 2 * (index / 2) = index := by omega
    simp [hleft, heven, h, List.getD_eq_getElem?_getD]
  · have hleft : 2 * (index / 2) = index - 1 := by omega
    have hright : index - 1 + 1 = index := by omega
    have hlt' : index - 1 < level.length := by omega
    simp [hleft, hright, hodd, h, hlt', List.getD_eq_getElem?_getD]

theorem Layered.foldl_joinings (h : Layered leaves levels root) (hleaf : leaves[index]? = some leaf) :
    (joinings levels index).foldl MerkleProof.join leaf = root := by
  induction h generalizing index leaf with
  | root hash =>
    cases index with
    | zero => simpa [joinings] using hleaf.symm
    | succ index => simp at hleaf
  | above hlength hrest ih =>
    obtain ⟨rest, rfl⟩ := hrest.exists_cons
    rw [joinings, List.foldl_cons]
    exact ih (getElem?_levelAbove_half hleaf)

theorem sides_joinings (levels : List (List Hash)) (index : Nat) :
    (joinings levels index).map (·.2) = (List.range (levels.length - 1)).map index.testBit := by
  induction levels generalizing index with
  | nil => rfl
  | cons level levels ih =>
    cases levels with
    | nil => rfl
    | cons above rest =>
      have hbit : TreePosition.siblingIsLeft ⟨0, index⟩ = index.testBit 0 := by
        simp [TreePosition.siblingIsLeft, Nat.testBit_zero, Bool.beq_eq_decide_eq]
      have hbits : (fun k => (index / 2).testBit k) = index.testBit ∘ Nat.succ :=
        funext fun k => (Nat.testBit_succ index k).symm
      rw [joinings, List.map_cons, ih (index / 2), hbit]
      simp only [List.length_cons, Nat.add_sub_cancel]
      rw [List.range_succ_eq_map, List.map_cons, List.map_map, ← hbits]

/-! ## Proofs -/

/-- A proof implies a root exactly if it has the right shape and its replay ends there. -/
theorem MerkleProof.impliedRoot_eq_ok_iff {p : MerkleProof} :
    p.impliedRoot = .ok root ↔
      p.siblings.length = p.sides.length + 1 ∧ p.siblings.head? = some p.leaf ∧ p.replay = root := by
  unfold impliedRoot checkShape
  by_cases hlength : p.siblings.length = p.sides.length + 1
  · by_cases hhead : p.siblings.head? = some p.leaf
    · simp [hlength, hhead, bind, Except.bind, pure, Except.pure]
    · simp [hlength, hhead, bind, Except.bind]
  · simp [hlength, bind, Except.bind]

def proofAt (levels : List (List Hash)) (leaf : Hash) (index : Nat) : MerkleProof :=
  ⟨leaf, leaf :: (joinings levels index).map (·.1), (joinings levels index).map (·.2)⟩

theorem MerkleTree.prove_of_mem {t : MerkleTree} (h : Layered leaves t.levels t.root) (hleaf : leaf ∈ leaves) :
    t.prove leaf = .ok (proofAt t.levels leaf (leaves.idxOf leaf)) := by
  obtain ⟨rest, hlevels⟩ := h.exists_cons
  have hfind : t.leaves.findIdx? (· == leaf) = some (leaves.idxOf leaf) := by
    rw [MerkleTree.leaves, hlevels, List.headD_cons, List.findIdx?_eq_some_iff_findIdx_eq]
    exact ⟨List.idxOf_lt_length_iff.mpr hleaf, rfl⟩
  unfold prove
  rw [hfind]
  rfl

theorem MerkleTree.prove_of_not_mem {t : MerkleTree} (h : Layered leaves t.levels t.root) (hleaf : leaf ∉ leaves) :
    t.prove leaf = .error (.leafNotFound leaf.hex) := by
  obtain ⟨rest, hlevels⟩ := h.exists_cons
  have hfind : t.leaves.findIdx? (· == leaf) = none := by
    rw [MerkleTree.leaves, hlevels, List.headD_cons, List.findIdx?_eq_none_iff]
    intro hash hhash
    rw [beq_eq_false_iff_ne]
    rintro rfl
    exact hleaf hhash
  unfold prove
  rw [hfind]

theorem Layered.impliedRoot_proofAt (h : Layered leaves levels root) (hleaf : leaves[index]? = some leaf) :
    (proofAt levels leaf index).impliedRoot = .ok root := by
  rw [MerkleProof.impliedRoot_eq_ok_iff]
  refine ⟨by simp [proofAt], rfl, ?_⟩
  have hsteps : (proofAt levels leaf index).siblings.tail.zip (proofAt levels leaf index).sides =
      joinings levels index := by
    simp [proofAt, List.zip_map']
  rw [MerkleProof.replay, hsteps]
  exact h.foldl_joinings hleaf

/-- **Proofs of leaves.** Over every list with a leaf there is a tree; it has a proof for each leaf and for no
other hash. The proof's sides are the bits of the first place where the leaf stands, and it leads to the root. -/
theorem leaf_proofs_replay (h : leaves ≠ []) :
    ∃ t, MerkleTree.build leaves = .ok t ∧ merkleRoot leaves = .ok t.root ∧
      (∀ leaf ∈ leaves, ∃ p, t.prove leaf = .ok p ∧ p.leaf = leaf ∧ p.siblings.head? = some leaf ∧
        p.siblings.length = t.depth ∧ p.sides.length = t.depth - 1 ∧
        (∀ k (hk : k < p.sides.length), p.sides[k] = (leaves.idxOf leaf).testBit k) ∧
        p.impliedRoot = .ok t.root) ∧
      ∀ leaf, leaf ∉ leaves → t.prove leaf = .error (.leafNotFound leaf.hex) := by
  obtain ⟨t, hbuild, hlayered⟩ := exists_build h
  refine ⟨t, hbuild, by rw [merkleRoot, hbuild]; rfl, fun leaf hleaf => ?_,
    fun leaf hleaf => t.prove_of_not_mem hlayered hleaf⟩
  have hsides := sides_joinings t.levels (leaves.idxOf leaf)
  have hlength : (joinings t.levels (leaves.idxOf leaf)).length = t.depth - 1 := by
    simpa [MerkleTree.depth] using congrArg List.length hsides
  have hdepth : 0 < t.depth := by
    obtain ⟨rest, hlevels⟩ := hlayered.exists_cons
    simp [MerkleTree.depth, hlevels]
  refine ⟨_, t.prove_of_mem hlayered hleaf, rfl, rfl, ?_, ?_, fun k hk => ?_, ?_⟩
  · simp only [proofAt, List.length_cons, List.length_map, hlength]
    omega
  · simp only [proofAt, List.length_map, hlength]
  · simp [proofAt, hsides]
  · refine hlayered.impliedRoot_proofAt (List.getElem?_eq_some_iff.mpr ⟨List.idxOf_lt_length_iff.mpr hleaf, ?_⟩)
    exact List.getElem_idxOf _

/-- Five leaves, two of which stand twice; the last has no partner. -/
def repeatedLeaves : List Hash := [.replicate 1, .replicate 2, .replicate 1, .replicate 3, .replicate 2]

/-- The proof of a leaf that stands twice is that of its first place, and replays. -/
theorem repeated_leaf_proof_replays :
    repeatedLeaves ≠ [] ∧ .replicate 2 ∈ repeatedLeaves ∧ .replicate 9 ∉ repeatedLeaves ∧
      ∃ t p, MerkleTree.build repeatedLeaves = .ok t ∧ t.prove (.replicate 2) = .ok p ∧
        p.sides = [true, false, false] ∧ p.impliedRoot = .ok t.root ∧
        t.prove (.replicate 9) = .error (.leafNotFound (Hash.replicate 9).hex) := by
  have hne : repeatedLeaves ≠ [] := by decide
  have hmem : .replicate 2 ∈ repeatedLeaves := by decide
  have hnot : .replicate 9 ∉ repeatedLeaves := by decide
  obtain ⟨t, hbuild, -, hproofs, hnone⟩ := leaf_proofs_replay hne
  obtain ⟨p, hprove, -, -, -, hlength, hbits, hroot⟩ := hproofs (.replicate 2) hmem
  have hdepth : t.depth = 4 := by
    rw [MerkleTree.depth, MerkleTree.levels_of_build hbuild]
    rfl
  have hplace : repeatedLeaves.idxOf (.replicate 2) = 1 := by decide
  refine ⟨hne, hmem, hnot, t, p, hbuild, hprove, ?_, hroot, hnone (.replicate 9) hnot⟩
  refine List.ext_getElem (by simp [hlength, hdepth]) fun k hk _ => ?_
  have hthree : k < 3 := by omega
  rw [hbits k hk, hplace]
  match k, hthree with
  | 0, _ => rfl
  | 1, _ => rfl
  | 2, _ => rfl

end HeaderRelay.Bitcoin
