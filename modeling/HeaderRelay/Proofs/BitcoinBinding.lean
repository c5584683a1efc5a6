import HeaderRelay.Proofs.BitcoinTree

/-!
# What a Bitcoin proof binds

A proof of the full length has a side for every level below the root, so its sides lead from the root down to a
leaf. At each joining they meet a node (`nodeMet?`) and its two children (`childrenMet?`); a node that is joined
with itself is met on both sides, so an index beyond the leaves comes down to a leaf as well.

If the replay ends at the root, going down beside it leaves two cases. Either its hashes are the nodes that it
meets, and its leaf is the one at the bottom, or at some joining it takes another pair than the tree, with the
same hash (`MerkleProof.Collides`). The theorem is `full_length_proofs_bind`.
-/
namespace HeaderRelay.Bitcoin

/-! ## What is joined, and what is met -/

namespace MerkleProof

def ordered (current : Hash) (step : Hash × Bool) : Hash × Hash :=
  if step.2 then (step.1, current) else (current, step.1)

theorem join_eq (current : Hash) (step : Hash × Bool) :
    join current step = pairHash (ordered current step).1 (ordered current step).2 := by
  unfold join ordered
  split <;> rfl

def pairsFrom (current : Hash) : (steps : List (Hash × Bool)) → List (Hash × Hash)
  | [] => []
  | step :: steps => ordered current step :: pairsFrom (join current step) steps

def pairs (p : MerkleProof) : List (Hash × Hash) := pairsFrom p.leaf (p.siblings.tail.zip p.sides)

end MerkleProof

/-- The number whose bit `k` is the side at joining `k`. -/
def sideIndex : (sides : List Bool) → Nat
  | [] => 0
  | side :: sides => side.toNat + 2 * sideIndex sides

theorem testBit_sideIndex (sides : List Bool) (k : Nat) : (sideIndex sides).testBit k = sides.getD k false := by
  induction sides generalizing k with
  | nil => simp [sideIndex]
  | cons side sides ih =>
    cases k with
    | zero => cases side <;> simp [sideIndex, Nat.testBit_zero, Nat.add_mul_mod_self_left]
    | succ k =>
      have hside : side.toNat < 2 := side.toNat_lt
      have hhalf : (side.toNat + 2 * sideIndex sides) / 2 = sideIndex sides := by omega
      simp [sideIndex, Nat.testBit_succ, hhalf, ih]

/-- The node of the first level to which the sides lead from the root. A node that is joined with itself
stands on both sides. -/
def indexMet : (levels : List (List Hash)) → (sides : List Bool) → Nat
  | level :: above :: rest, side :: sides =>
    let left := 2 * indexMet (above :: rest) sides
    if side ∧ left + 1 < level.length then left + 1 else left
  | _, _ => 0

/-- The node at a height to which the sides lead from the root. -/
def nodeMet? (levels : List (List Hash)) (sides : List Bool) (height : Nat) : Option Hash := do
  (← levels[height]?)[indexMet (levels.drop height) (sides.drop height)]?

def childrenMet? (levels : List (List Hash)) (sides : List Bool) (k : Nat) : Option (Hash × Hash) := do
  childrenAt? (← levels[k]?) (indexMet (levels.drop (k + 1)) (sides.drop (k + 1)))

/-- At joining `k`, one pair is joined on the path, and another, with the same hash, into the node that the path
meets there. -/
structure CollidesAt (levels : List (List Hash)) (sides : List Bool) (pairs : List (Hash × Hash)) (k : Nat)
    (joined built : Hash × Hash) : Prop where
  joined_eq : pairs[k]? = some joined
  built_eq : childrenMet? levels sides k = some built
  node_eq : nodeMet? levels sides (k + 1) = some (pairHash built.1 built.2)
  ne : joined ≠ built
  hash_eq : pairHash joined.1 joined.2 = pairHash built.1 built.2

/-- Somewhere on its path, a proof joins another pair than the tree, with the same hash. -/
def MerkleProof.Collides (p : MerkleProof) (t : MerkleTree) : Prop :=
  ∃ k joined built, CollidesAt t.levels p.sides p.pairs k joined built

/-! ## The way down -/

variable {level leaves : List Hash} {levels : List (List Hash)} {root current : Hash} {steps : List (Hash × Bool)}
  {side : Bool} {sides : List Bool} {pair joined built : Hash × Hash} {pairs : List (Hash × Hash)} {k : Nat}

theorem CollidesAt.succ (h : CollidesAt levels sides pairs k joined built) :
    CollidesAt (level :: levels) (side :: sides) (pair :: pairs) (k + 1) joined built :=
  ⟨by simpa using h.joined_eq, by simpa [childrenMet?] using h.built_eq, by simpa [nodeMet?] using h.node_eq,
    h.ne, h.hash_eq⟩

theorem Layered.indexMet_eq (h : Layered leaves levels root) (hlength : sides.length + 1 = levels.length)
    (hlt : sideIndex sides < leaves.length) : indexMet levels sides = sideIndex sides := by
  induction h generalizing sides with
  | root hash =>
    obtain rfl : sides = [] := by simpa using hlength
    rfl
  | @above level levels root hmany hrest ih =>
    obtain ⟨rest, rfl⟩ := hrest.exists_cons
    cases sides with
    | nil => simp at hlength
    | cons side sides =>
      -- the index of the parent is below its level, so no node on the way is its own partner
      simp only [sideIndex] at hlt ⊢
      have hhalf : sideIndex sides < (levelAbove level).length := by
        rw [length_levelAbove]
        omega
      simp only [indexMet, ih (by simpa using hlength) hhalf]
      cases side with
      | false => simp
      | true =>
        simp only [Bool.toNat_true, Nat.add_comm 1] at hlt ⊢
        simp [hlt]

theorem getElem?_indexMet {above : List Hash} {rest : List (List Hash)} {step : Hash × Bool}
    (h : childrenAt? level (indexMet (above :: rest) sides) = some (MerkleProof.ordered current step)) :
    level[indexMet (level :: above :: rest) (step.2 :: sides)]? = some current := by
  obtain ⟨left, hleft, hchildren⟩ := Option.map_eq_some_iff.mp h
  rw [indexMet]
  cases hside : step.2 with
  | false =>
    simp only [MerkleProof.ordered, hside, Bool.false_eq_true, if_false, Prod.mk.injEq] at hchildren
    simpa [hchildren.1] using hleft
  | true =>
    simp only [MerkleProof.ordered, hside, if_true, Prod.mk.injEq] at hchildren
    have hright := hchildren.2
    rw [List.getD_eq_getElem?_getD] at hright
    by_cases hlt : 2 * indexMet (above :: rest) sides + 1 < level.length
    · rw [List.getElem?_eq_getElem hlt, Option.getD_some] at hright
      simp [hlt, hright]
    · -- a node without a partner is its own right child
      rw [List.getElem?_eq_none (by omega), Option.getD_none] at hright
      simp [hlt, hleft, hright]

/-- **Going down.** If the joinings lead to the root, they start from the leaf that they meet, or at one of them
another pair is joined than in the tree. -/
theorem Layered.bound_or_collides (h : Layered leaves levels root) (hlength : steps.length + 1 = levels.length)
    (hroot : steps.foldl MerkleProof.join current = root) :
    leaves[indexMet levels (steps.map (·.2))]? = some current ∨
      ∃ k joined built, CollidesAt levels (steps.map (·.2)) (MerkleProof.pairsFrom current steps) k joined built := by
  induction h generalizing current steps with
  | root hash =>
    obtain rfl : steps = [] := by simpa using hlength
    exact .inl (by simpa [indexMet] using hroot.symm)
  | @above level levels root hmany hrest ih =>
    obtain ⟨rest, rfl⟩ := hrest.exists_cons
    cases steps with
    | nil => simp at hlength
    | cons step steps =>
      rcases ih (show steps.length + 1 = _ by simpa using hlength) hroot with hmet | ⟨k, joined, built, hcollides⟩
      · have hnode := hmet
        rw [getElem?_levelAbove, Option.map_eq_some_iff] at hmet
        obtain ⟨built, hchildren, hhash⟩ := hmet
        -- above, the hash is the node met: below, the pairs are one or collide
        by_cases heq : MerkleProof.ordered current step = built
        · exact .inl (getElem?_indexMet (heq ▸ hchildren))
        · refine .inr ⟨0, MerkleProof.ordered current step, built, rfl, ?_, ?_, heq, ?_⟩
          · simpa [childrenMet?] using hchildren
          · simpa [nodeMet?, hhash] using hnode
          · rw [hhash, MerkleProof.join_eq]
      · exact .inr ⟨k + 1, joined, built, hcollides.succ⟩

/-- **Binding.** A proof of the full length that leads to the root is one of a leaf, and of the one at the index whose
bits are its sides if there is such a leaf; or it joins another pair than the tree, with the same hash. -/
theorem full_length_proofs_bind (h : leaves ≠ []) :
    ∃ t, MerkleTree.build leaves = .ok t ∧
      ∀ p : MerkleProof, p.sides.length = t.depth - 1 → p.impliedRoot = .ok t.root →
        (p.leaf ∈ leaves ∧ ∀ i, (∀ k, i.testBit k = p.sides.getD k false) → i < leaves.length →
          leaves[i]? = some p.leaf) ∨ p.Collides t := by
  obtain ⟨t, hbuild, hlayered⟩ := exists_build h
  refine ⟨t, hbuild, fun p hlength hroot => ?_⟩
  obtain ⟨hshape, -, hreplay⟩ := MerkleProof.impliedRoot_eq_ok_iff.mp hroot
  obtain ⟨rest, hlevels⟩ := hlayered.exists_cons
  have hdepth : p.sides.length + 1 = t.levels.length := by
    rw [hlength, MerkleTree.depth, hlevels, List.length_cons, Nat.add_sub_cancel]
  have hsides : (p.siblings.tail.zip p.sides).map (·.2) = p.sides := List.map_snd_zip (by simp [hshape])
  have hsteps : (p.siblings.tail.zip p.sides).length + 1 = t.levels.length := by
    rw [← hdepth, List.length_zip, List.length_tail, hshape, Nat.add_sub_cancel, Nat.min_self]
  have hbound := hlayered.bound_or_collides hsteps hreplay
  rw [hsides] at hbound
  refine hbound.imp_left fun hmet => ⟨List.mem_of_getElem? hmet, fun i hbits hlt => ?_⟩
  obtain rfl : sideIndex p.sides = i :=
    Nat.eq_of_testBit_eq fun k => (testBit_sideIndex p.sides k).trans (hbits k).symm
  rwa [hlayered.indexMet_eq hdepth hlt] at hmet

def unpairedLeaves : List Hash := [.replicate 1, .replicate 2, .replicate 3]

def thirdLeafProof (right : Bool) : MerkleProof :=
  ⟨.replicate 3, [.replicate 3, .replicate 3, pairHash (.replicate 1) (.replicate 2)], [right, true]⟩

/-- A leaf without a partner has two proofs, one of them with an index beyond the leaves, and both bind. -/
theorem unpaired_leaf_proofs_bind :
    unpairedLeaves ≠ [] ∧ sideIndex (thirdLeafProof true).sides = unpairedLeaves.length ∧
      (∀ k, Nat.testBit 2 k = (thirdLeafProof false).sides.getD k false) ∧ 2 < unpairedLeaves.length ∧
      ∃ t, MerkleTree.build unpairedLeaves = .ok t ∧
        (∀ right, (thirdLeafProof right).sides.length = t.depth - 1 ∧
          (thirdLeafProof right).impliedRoot = .ok t.root) ∧
        (unpairedLeaves[2]? = some (.replicate 3) ∨ (thirdLeafProof false).Collides t) ∧
        (.replicate 3 ∈ unpairedLeaves ∨ (thirdLeafProof true).Collides t) := by
  have hne : unpairedLeaves ≠ [] := by decide
  have hbits : ∀ k, Nat.testBit 2 k = (thirdLeafProof false).sides.getD k false :=
    testBit_sideIndex (thirdLeafProof false).sides
  obtain ⟨t, hbuild, hbinds⟩ := full_length_proofs_bind hne
  have hlevels := MerkleTree.levels_of_build hbuild
  have hlength : ∀ right, (thirdLeafProof right).sides.length = t.depth - 1 := fun right => by
    rw [MerkleTree.depth, hlevels]
    rfl
  have htop : pairHash (pairHash (.replicate 1) (.replicate 2)) (pairHash (.replicate 3) (.replicate 3)) = t.root := by
    have hlast := t.levels_getLast?
    rw [hlevels] at hlast
    simpa [levelsOver, levelsFrom, levelAbove, unpairedLeaves] using hlast
  have hroot : ∀ right, (thirdLeafProof right).impliedRoot = .ok t.root := fun right => by
    cases right <;> exact MerkleProof.impliedRoot_eq_ok_iff.mpr ⟨rfl, rfl, htop⟩
  refine ⟨hne, rfl, hbits, by decide, t, hbuild, fun right => ⟨hlength right, hroot right⟩, ?_, ?_⟩
  · exact (hbinds _ (hlength false) (hroot false)).imp_left fun hleaf => hleaf.2 2 hbits (by decide)
  · exact (hbinds _ (hlength true) (hroot true)).imp_left fun hleaf => hleaf.1

end HeaderRelay.Bitcoin
