import HeaderRelay.Proofs.BitcoinTree
import Mathlib.Algebra.Order.Floor.Div

/-!
# The levels of a Bitcoin tree

`levelAt` joins the nodes of a list so many times, without regard to when a tree ends. Each joining halves the number
of nodes, rounded up (`length_levelAt`), and keeps the parts of a list that is cut at an even place apart
(`levelAbove_cut`). So a node at a height is the node over the leaves below it alone (`getElem?_levelAt`), also where
the last of them have no partner.

The levels of a tree are those lists, up to the first with one node (`Layered.getElem?_eq`,
`Layered.length_levelAt_eq_one_iff`). Result: `tree_levels_exact`.
-/
namespace HeaderRelay.Bitcoin

variable {level leaves : List Hash} {levels : List (List Hash)} {root : Hash} {height index d : Nat}

/-! ## Joining again and again -/

/-- What a level becomes when its nodes are joined so many times. -/
def levelAt : (height : Nat) → List Hash → List Hash
  | 0, level => level
  | height + 1, level => levelAt height (levelAbove level)

theorem levelAt_succ (height : Nat) (level : List Hash) :
    levelAt (height + 1) level = levelAbove (levelAt height level) := by
  induction height generalizing level with
  | zero => rfl
  | succ height ih => exact ih (levelAbove level)

/-- Joined so many times, a level has at most `d` nodes exactly if it had at most that many groups of leaves. -/
theorem length_levelAt_le_iff : (levelAt height level).length ≤ d ↔ level.length ≤ twoPow height * d := by
  induction height generalizing level with
  | zero => rw [levelAt, show twoPow 0 * d = d from Nat.one_mul d]
  | succ height ih =>
    rw [levelAt, ih, length_levelAbove, twoPow_succ, Nat.mul_assoc]
    omega

theorem length_levelAt (height : Nat) (level : List Hash) :
    (levelAt height level).length = level.length ⌈/⌉ twoPow height :=
  eq_of_forall_ge_iff fun _ => length_levelAt_le_iff.trans (ceilDiv_le_iff_le_mul (twoPow_pos height)).symm

theorem levelAbove_cut (level : List Hash) (count : Nat) :
    levelAbove (level.take (2 * count)) = (levelAbove level).take count ∧
      levelAbove (level.drop (2 * count)) = (levelAbove level).drop count := by
  induction level using levelAbove.induct generalizing count with
  | case1 => simp [levelAbove]
  | case2 a => cases count <;> simp [levelAbove, Nat.mul_succ]
  | case3 a b rest ih => cases count <;> simp [levelAbove, Nat.mul_succ, ih]

/-- Cut between groups of leaves that are joined into one node each, so are both parts in all joinings. -/
theorem levelAt_cut (height : Nat) (level : List Hash) (count : Nat) :
    levelAt height (level.take (twoPow height * count)) = (levelAt height level).take count ∧
      levelAt height (level.drop (twoPow height * count)) = (levelAt height level).drop count := by
  induction height generalizing level with
  | zero =>
    have hone : twoPow 0 * count = count := Nat.one_mul count
    rw [hone]
    exact ⟨rfl, rfl⟩
  | succ height ih =>
    obtain ⟨hleft, hright⟩ := levelAbove_cut level (twoPow height * count)
    rw [levelAt, levelAt, levelAt, twoPow_succ, Nat.mul_assoc, hleft, hright]
    exact ih (levelAbove level)

/-! ## What stands below a node -/

def leavesBelow (leaves : List Hash) (p : TreePosition) : List Hash :=
  leaves.extract (p.index * twoPow p.height) (min ((p.index + 1) * twoPow p.height) leaves.length)

theorem leavesBelow_eq (leaves : List Hash) (p : TreePosition) :
    leavesBelow leaves p = (leaves.drop (twoPow p.height * p.index)).take (twoPow p.height * 1) := by
  have hend : (p.index + 1) * twoPow p.height = p.index * twoPow p.height + twoPow p.height := Nat.succ_mul _ _
  rw [leavesBelow, Nat.mul_comm _ p.index, List.take_eq_take_iff, List.length_drop, Nat.mul_one]
  omega

theorem getElem?_levelAt (leaves : List Hash) (p : TreePosition) :
    (levelAt p.height leaves)[p.index]? = (levelAt p.height (leavesBelow leaves p))[0]? := by
  rw [leavesBelow_eq, (levelAt_cut _ _ _).1, (levelAt_cut _ _ _).2, List.getElem?_take_of_lt Nat.one_pos,
    List.getElem?_drop, Nat.add_zero]

/-! ## The levels of a tree -/

theorem Layered.getElem?_eq (h : Layered leaves levels root) (hheight : height < levels.length) :
    levels[height]? = some (levelAt height leaves) := by
  induction h generalizing height with
  | root hash =>
    obtain rfl : height = 0 := by simpa using hheight
    rfl
  | above hlength hrest ih =>
    cases height with
    | zero => rfl
    | succ height => exact ih (Nat.lt_of_succ_lt_succ hheight)

theorem Layered.length_levels_le_iff (h : Layered leaves levels root) :
    levels.length ≤ d + 1 ↔ leaves.length ≤ twoPow d := by
  induction h generalizing d with
  | root hash =>
    have hpos := twoPow_pos d
    simp only [List.length_singleton]
    omega
  | @above level levels root hlength hrest ih =>
    obtain ⟨rest, rfl⟩ := hrest.exists_cons
    cases d with
    | zero =>
      have hone : twoPow 0 = 1 := rfl
      simp only [List.length_cons]
      omega
    | succ d =>
      rw [List.length_cons, Nat.succ_le_succ_iff, ih, length_levelAbove, twoPow_succ]
      omega

theorem Layered.length_levelAt_eq_one_iff (h : Layered leaves levels root) (hheight : height < levels.length) :
    (levelAt height leaves).length = 1 ↔ height + 1 = levels.length := by
  have hpos : 0 < leaves.length := by
    cases h with
    | root => exact Nat.one_pos
    | above hlength => exact Nat.lt_of_succ_lt hlength
  have hnone : (levelAt height leaves).length ≤ 0 ↔ leaves.length ≤ twoPow height * 0 := length_levelAt_le_iff
  have hone : (levelAt height leaves).length ≤ 1 ↔ leaves.length ≤ twoPow height * 1 := length_levelAt_le_iff
  rw [Nat.mul_zero] at hnone
  rw [Nat.mul_one, ← h.length_levels_le_iff] at hone
  omega

theorem MerkleTree.layered_of_build {t : MerkleTree} (h : build leaves = .ok t) : Layered leaves t.levels t.root := by
  have hleaves : leaves ≠ [] := by
    rintro rfl
    cases h
  obtain ⟨s, hbuild, hlayered⟩ := exists_build hleaves
  obtain rfl : s = t := Except.ok.inj (hbuild.symm.trans h)
  exact hlayered

theorem MerkleTree.node?_eq {t : MerkleTree} (h : Layered leaves t.levels t.root) (hheight : height < t.depth)
    (index : Nat) : t.node? ⟨height, index⟩ = (levelAt height leaves)[index]? := by
  rw [node?, h.getElem?_eq hheight]
  rfl

/-- In every level above the leaves, a node is the hash of the two below it, or of one with itself. -/
theorem MerkleTree.node?_above {t : MerkleTree} (h : Layered leaves t.levels t.root) (hheight : height + 1 < t.depth)
    (hindex : index < leaves.length ⌈/⌉ twoPow (height + 1)) :
    ∃ left, t.node? ⟨height, 2 * index⟩ = some left ∧
      t.node? ⟨height + 1, index⟩ = some (pairHash left ((t.node? ⟨height, 2 * index + 1⟩).getD left)) := by
  have hbelow : height < t.depth := Nat.lt_of_succ_lt hheight
  rw [← length_levelAt, levelAt_succ, length_levelAbove] at hindex
  have hleft : 2 * index < (levelAt height leaves).length := by omega
  rw [node?_eq h hheight, node?_eq h hbelow, node?_eq h hbelow, levelAt_succ, getElem?_levelAbove, childrenAt?]
  exact ⟨_, List.getElem?_eq_getElem hleft, by simp [hleft, List.getD_eq_getElem?_getD]⟩

/-- **Levels.** Over every list with a leaf there is a tree, of the least depth at which the leaves are joined into
one. Each level has half of the nodes of the one below, rounded up, and the last is the first with a single node. A
node is the hash of the two below it, the last of an odd level being joined with itself; it is determined by the leaves
below it, whatever the others are. -/
theorem tree_levels_exact (h : leaves ≠ []) :
    ∃ t, MerkleTree.build leaves = .ok t ∧ t.leaves = leaves ∧
      (∃ d, t.depth = 1 + d ∧ leaves.length ≤ twoPow d ∧ ∀ e, leaves.length ≤ twoPow e → d ≤ e) ∧
      (∀ height < t.depth, ∃ level, t.levels[height]? = some level ∧
        level.length = leaves.length ⌈/⌉ twoPow height ∧ (level.length = 1 ↔ height + 1 = t.depth)) ∧
      (∀ height index, height + 1 < t.depth → index < leaves.length ⌈/⌉ twoPow (height + 1) →
        ∃ left, t.node? ⟨height, 2 * index⟩ = some left ∧
          t.node? ⟨height + 1, index⟩ = some (pairHash left ((t.node? ⟨height, 2 * index + 1⟩).getD left))) ∧
      ∀ others s p, MerkleTree.build others = .ok s → p.height < t.depth → p.height < s.depth →
        leavesBelow others p = leavesBelow leaves p → s.node? p = t.node? p := by
  obtain ⟨t, hbuild, hlayered⟩ := exists_build h
  have hdepth : ∀ d, t.depth ≤ d + 1 ↔ leaves.length ≤ twoPow d := fun _ => hlayered.length_levels_le_iff
  obtain ⟨rest, hlevels⟩ := hlayered.exists_cons
  have hpos : 0 < t.depth := by simp [MerkleTree.depth, hlevels]
  refine ⟨t, hbuild, by simp [MerkleTree.leaves, hlevels], ⟨t.depth - 1, ?_, ?_, ?_⟩, ?_, ?_, ?_⟩
  · omega
  · exact (hdepth _).mp (by omega)
  · intro e he
    have := (hdepth e).mpr he
    omega
  · exact fun height hheight => ⟨levelAt height leaves, hlayered.getElem?_eq hheight, length_levelAt height leaves,
      hlayered.length_levelAt_eq_one_iff hheight⟩
  · exact fun height index hheight hindex => t.node?_above hlayered hheight hindex
  · rintro others s ⟨height, index⟩ hothers ht hs hbelow
    rw [t.node?_eq hlayered ht, s.node?_eq (MerkleTree.layered_of_build hothers) hs,
      getElem?_levelAt leaves ⟨height, index⟩, getElem?_levelAt others ⟨height, index⟩, hbelow]

/-- Eleven leaves, so that two levels below the root are odd. -/
def elevenLeaves : List Hash := (List.range 11).map fun n => .replicate (.ofNat n)

/-- Six leaves, of which the last two are among the eleven, at the same places. -/
def sixLeaves : List Hash := List.replicate 4 .zero ++ [.replicate 4, .replicate 5]

/-- The levels over eleven leaves have eleven, six, three, two nodes and one; the second of two is joined from one, and
what is over two leaves is the same over six. -/
theorem eleven_leaves_levels :
    elevenLeaves ≠ [] ∧ ∃ t, MerkleTree.build elevenLeaves = .ok t ∧ t.depth = 5 ∧
      (∃ level, t.levels[2]? = some level ∧ level.length = 3) ∧
      (∃ left, t.node? ⟨2, 2⟩ = some left ∧ t.node? ⟨2, 3⟩ = none ∧ t.node? ⟨3, 1⟩ = some (pairHash left left)) ∧
      ∃ s, MerkleTree.build sixLeaves = .ok s ∧ leavesBelow sixLeaves ⟨1, 2⟩ = leavesBelow elevenLeaves ⟨1, 2⟩ ∧
        s.node? ⟨1, 2⟩ = t.node? ⟨1, 2⟩ := by
  have hne : elevenLeaves ≠ [] := by decide
  have hsixNe : sixLeaves ≠ [] := by decide
  obtain ⟨t, hbuild, -, ⟨d, hdepth, hle, hleast⟩, hlevels, hnodes, hbelow⟩ := tree_levels_exact hne
  obtain ⟨s, hsix, -, ⟨e, hsixDepth, hsixLe, -⟩, -⟩ := tree_levels_exact hsixNe
  have hfew : ∀ c < 4, ¬ elevenLeaves.length ≤ twoPow c := by decide
  obtain rfl : d = 4 := Nat.le_antisymm (hleast 4 (by decide)) (Nat.not_lt.mp fun hlt => hfew d hlt hle)
  have hsixNonzero : e ≠ 0 := by
    rintro rfl
    exact absurd hsixLe (by decide)
  obtain ⟨level, hlevel, hlength, -⟩ := hlevels 2 (by omega)
  obtain ⟨left, hleft, hnode⟩ := hnodes 2 1 (by omega) (by decide)
  have hthree : level.length = 3 := hlength.trans (by decide)
  have hpast : t.node? ⟨2, 3⟩ = none := by simp [MerkleTree.node?, hlevel, hthree]
  have hsame : leavesBelow sixLeaves ⟨1, 2⟩ = leavesBelow elevenLeaves ⟨1, 2⟩ := by decide
  refine ⟨hne, t, hbuild, by omega, ⟨level, hlevel, hthree⟩, ⟨left, hleft, hpast, ?_⟩, s, hsix, hsame,
    hbelow sixLeaves s ⟨1, 2⟩ hsix (by show 1 < _; omega) (by show 1 < _; omega) hsame⟩
  rw [hnode, hpast]
  rfl

end HeaderRelay.Bitcoin
