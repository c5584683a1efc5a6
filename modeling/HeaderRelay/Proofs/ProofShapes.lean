import HeaderRelay.Proofs.ConsensusTree

/-!
# How many aunts a proof has

An index and a number of leaves determine the cuts between a leaf and the root, and so the number of aunts. It is
`auntCount`, which is no closed formula: on the right of a cut fewer leaves may be left than on the left, and with them
fewer cuts. The path to a leaf has that many aunts, and the climb to a root takes that many, no more and no fewer.

As the left part of a cut is a power of two and has at least half of the leaves (`le_two_mul_leftCount`), each cut takes
one off the exponent of any power of two that bounds their number. Hence `auntCount_le`.

Result: `accepted_shapes`.
-/
namespace HeaderRelay.Consensus

variable {leaves : List Bytes} {leaf : Hash} {aunts : List Hash} {index total fuel d : Nat}

/-! ## Halves -/

theorem le_two_mul_leftCount (h : 2 ≤ total) : total ≤ 2 * leftCount total := by
  have hlog : total - 1 < 2 ^ ((total - 1).log2 + 1) := Nat.lt_log2_self
  have hpow : 2 ^ ((total - 1).log2 + 1) = 2 * twoPow (total - 1).log2 := twoPow_succ _
  rw [leftCount, if_neg (by omega)]
  omega

/-- The left part has at most the power of two that bounds twice as many leaves. -/
theorem leftCount_le_twoPow (h : 2 ≤ total) (hd : total ≤ twoPow (d + 1)) : leftCount total ≤ twoPow d := by
  have hlog : (total - 1).log2 < d + 1 := by
    refine (Nat.log2_lt (by omega)).mpr ?_
    have hpow : twoPow (d + 1) = 2 ^ (d + 1) := rfl
    omega
  rw [leftCount, if_neg (by omega)]
  exact Nat.pow_le_pow_right (by decide) (Nat.le_of_lt_succ hlog)

/-! ## Counting cuts -/

/-- The number of cuts between the root over so many leaves and the leaf at an index. -/
def auntCount (index total : Nat) : Nat :=
  if _h : 2 ≤ total then
    if index < leftCount total then auntCount index (leftCount total) + 1
    else auntCount (index - leftCount total) (total - leftCount total) + 1
  else 0
termination_by total
decreasing_by
  · exact leftCount_lt _h
  · have := leftCount_pos _h
    omega

theorem auntCount_uncut (h : ¬ 2 ≤ total) : auntCount index total = 0 := by rw [auntCount, dif_neg h]

theorem auntCount_left (h : 2 ≤ total) (hindex : index < leftCount total) :
    auntCount index total = auntCount index (leftCount total) + 1 := by
  rw [auntCount, dif_pos h, if_pos hindex]

theorem auntCount_right (h : 2 ≤ total) (hindex : ¬ index < leftCount total) :
    auntCount index total = auntCount (index - leftCount total) (total - leftCount total) + 1 := by
  rw [auntCount, dif_pos h, if_neg hindex]

theorem auntCount_eq_zero_iff : auntCount index total = 0 ↔ ¬ 2 ≤ total := by
  refine ⟨fun hzero h => ?_, auntCount_uncut⟩
  by_cases hindex : index < leftCount total
  · rw [auntCount_left h hindex] at hzero
    cases hzero
  · rw [auntCount_right h hindex] at hzero
    cases hzero

/-- There are at most as many aunts as the exponent of a power of two that bounds the number of leaves. -/
theorem auntCount_le (hd : total ≤ twoPow d) : auntCount index total ≤ d := by
  induction d generalizing index total with
  | zero =>
    have hone : total ≤ 1 := hd
    exact Nat.le_of_eq (auntCount_uncut (by omega))
  | succ d ih =>
    by_cases h : 2 ≤ total
    · have hleft := leftCount_le_twoPow h hd
      have hhalf := le_two_mul_leftCount h
      by_cases hindex : index < leftCount total
      · rw [auntCount_left h hindex]
        exact Nat.succ_le_succ (ih hleft)
      · rw [auntCount_right h hindex]
        exact Nat.succ_le_succ (ih (by omega))
    · rw [auntCount_uncut h]
      exact Nat.zero_le _

/-- Where every cut leaves one leaf too few for two equal parts, the last leaf needs an aunt less than the first. -/
theorem auntCount_last (n : Nat) : auntCount (twoPow (n + 1) - 2) (twoPow (n + 1) - 1) = n := by
  induction n with
  | zero => exact auntCount_uncut (by decide)
  | succ n ih =>
    have hpos := twoPow_pos n
    have hhalf : twoPow (n + 1) = 2 * twoPow n := twoPow_succ n
    have hwhole : twoPow (n + 2) = 2 * twoPow (n + 1) := twoPow_succ (n + 1)
    have hlog : (twoPow (n + 2) - 1 - 1).log2 = n + 1 := by
      refine (Nat.log2_eq_iff (by omega)).mpr ⟨?_, ?_⟩
      · show twoPow (n + 1) ≤ _
        omega
      · show _ < twoPow (n + 2)
        omega
    have hleft : leftCount (twoPow (n + 2) - 1) = twoPow (n + 1) := by
      rw [leftCount, if_neg (by omega), hlog]
    show auntCount (twoPow (n + 2) - 2) (twoPow (n + 2) - 1) = n + 1
    rw [auntCount_right (by omega) (by omega), hleft,
      show twoPow (n + 2) - 2 - twoPow (n + 1) = twoPow (n + 1) - 2 by omega,
      show twoPow (n + 2) - 1 - twoPow (n + 1) = twoPow (n + 1) - 1 by omega, ih]

/-! ## Paths and climbs -/

theorem length_aunts_pathFrom (hfuel : leaves.length ≤ fuel) :
    (pathFrom fuel leaves index).2.length = auntCount index leaves.length := by
  induction leaves using cut_induction generalizing fuel index with
  | nil =>
    rw [auntCount_uncut (by simp)]
    cases fuel <;> rfl
  | leaf b =>
    rw [auntCount_uncut (by simp)]
    cases fuel <;> rfl
  | cut leaves hmany ihleft ihright =>
    obtain ⟨hcut, hleft, hright⟩ := cut_lengths hmany
    obtain ⟨fuel, rfl⟩ := Nat.exists_eq_add_of_le' (show 1 ≤ fuel by omega)
    rw [pathFrom_cut hmany]
    by_cases hlt : index < leftCount leaves.length
    · rw [if_pos hlt, auntCount_left hmany hlt, List.length_append, ihleft (by omega), hleft]
      rfl
    · rw [if_neg hlt, auntCount_right hmany hlt, List.length_append, ihright (by omega), hright]
      rfl

/-- The climb from a leaf comes to a root exactly if there is an aunt for every cut. -/
theorem isSome_climb_iff (h : index < total) :
    (climb leaf aunts index total).isSome ↔ aunts.length = auntCount index total := by
  induction aunts generalizing index total with
  | nil =>
    rw [List.length_nil, eq_comm (a := 0), auntCount_eq_zero_iff, climb]
    by_cases hone : total = 1 ∧ index = 0
    · simp [hone]
    · rw [if_neg hone]
      have hmany : 2 ≤ total := by omega
      simp [hmany]
  | cons aunt rest ih =>
    by_cases hmany : 2 ≤ total
    · have hpos := leftCount_pos hmany
      by_cases hlt : index < leftCount total
      · rw [climb_left hmany hlt, Option.isSome_map, ih hlt, auntCount_left hmany hlt, List.length_cons,
          Nat.succ_inj]
      · rw [climb_right hmany h hlt, Option.isSome_map, ih (by omega), auntCount_right hmany hlt, List.length_cons,
          Nat.succ_inj]
    · rw [climb, if_neg (fun hboth => hmany hboth.2), auntCount_uncut hmany]
      simp

theorem exists_prove_aunts (h : index < leaves.length) :
    ∃ q, prove leaves index = .ok q ∧ q.aunts.length = auntCount index leaves.length :=
  ⟨_, if_pos h, length_aunts_pathFrom (Nat.le_refl _)⟩

namespace MerkleProof

theorem impliedRoot_beyond {p : MerkleProof} (h : p.total ≤ p.index) :
    p.impliedRoot = .error (.indexOutOfRange p.index p.total) := by
  rw [impliedRoot, checkIndex, if_neg (Nat.not_lt.mpr h)]
  rfl

theorem impliedRoot_misfit {p : MerkleProof} (h : p.index < p.total)
    (hclimb : climb p.leafHash p.aunts.reverse p.index p.total = none) :
    p.impliedRoot =
      .error (.invalidProof s!"{p.aunts.length} aunts do not fit index {p.index} of {p.total}") := by
  rw [impliedRoot, checkIndex, if_pos h, hclimb]
  rfl

theorem isSome_climb_reverse_iff {p : MerkleProof} (h : p.index < p.total) :
    (climb p.leafHash p.aunts.reverse p.index p.total).isSome ↔ p.aunts.length = auntCount p.index p.total := by
  rw [isSome_climb_iff h, List.length_reverse]

/-- **Accepted shapes.** A proof whose index is that of no leaf is refused. Any other implies a root exactly if it has
as many aunts as the proofs that are made of the leaf at that index, and is refused for any other number. That number is
at most the exponent of any power of two that bounds the number of leaves, and zero only for a single leaf. -/
theorem accepted_shapes (p : MerkleProof) :
    (p.total ≤ p.index → p.impliedRoot = .error (.indexOutOfRange p.index p.total)) ∧
    (p.index < p.total →
      (∀ leaves : List Bytes, leaves.length = p.total →
        ∃ q, prove leaves p.index = .ok q ∧ q.aunts.length = auntCount p.index p.total) ∧
      ((∃ root, p.impliedRoot = .ok root) ↔ p.aunts.length = auntCount p.index p.total) ∧
      (p.aunts.length ≠ auntCount p.index p.total → p.impliedRoot =
        .error (.invalidProof s!"{p.aunts.length} aunts do not fit index {p.index} of {p.total}")) ∧
      (∀ d, p.total ≤ twoPow d → auntCount p.index p.total ≤ d) ∧
      (p.total < twoPow 64 → auntCount p.index p.total ≤ 64) ∧
      (auntCount p.index p.total = 0 ↔ p.total = 1)) := by
  refine ⟨impliedRoot_beyond, fun hindex => ⟨?_, ?_, ?_, fun d hd => auntCount_le hd,
    fun hd => auntCount_le (Nat.le_of_lt hd), ?_⟩⟩
  · intro leaves hlength
    rw [← hlength] at hindex ⊢
    exact exists_prove_aunts hindex
  · rw [← isSome_climb_reverse_iff hindex, Option.isSome_iff_exists]
    exact exists_congr fun root => impliedRoot_eq_ok_iff.trans (and_iff_right hindex)
  · intro hlength
    refine impliedRoot_misfit hindex (Option.not_isSome_iff_eq_none.mp ?_)
    rwa [isSome_climb_reverse_iff hindex]
  · rw [auntCount_eq_zero_iff]
    omega

/-- A proof of the last of as many leaves as a word of 64 bits can count, with so many aunts. -/
def lastOfMost (aunts : Nat) : MerkleProof :=
  ⟨twoPow 64 - 1, twoPow 64 - 2, emptyHash, List.replicate aunts emptyHash⟩

/-- It is accepted with 63 aunts, the number that its construction would give it, and not with 64. Where there are no
leaves nothing is accepted. -/
theorem last_of_most_accepted :
    (lastOfMost 63).index < (lastOfMost 63).total ∧ (lastOfMost 63).total < twoPow 64 ∧
      (∃ root, (lastOfMost 63).impliedRoot = .ok root) ∧
      (∃ q, prove (List.replicate (twoPow 64 - 1) []) (twoPow 64 - 2) = .ok q ∧ q.aunts.length = 63) ∧
      (lastOfMost 64).impliedRoot = .error (.invalidProof
        "64 aunts do not fit index 18446744073709551614 of 18446744073709551615") ∧
      (MerkleProof.mk 0 0 emptyHash []).impliedRoot = .error (.indexOutOfRange 0 0) := by
  have hcount : auntCount (twoPow 64 - 2) (twoPow 64 - 1) = 63 := auntCount_last 63
  have hindex : twoPow 64 - 2 < twoPow 64 - 1 := by decide
  have hword : twoPow 64 - 1 < twoPow 64 := by decide
  obtain ⟨hmade, haccepted, -⟩ := (accepted_shapes (lastOfMost 63)).2 hindex
  obtain ⟨-, -, hrefused, -⟩ := (accepted_shapes (lastOfMost 64)).2 hindex
  refine ⟨hindex, hword, haccepted.mpr ?_, ?_, ?_, (accepted_shapes _).1 (Nat.le_refl 0)⟩
  · exact (List.length_replicate).trans hcount.symm
  · obtain ⟨q, hq, hlength⟩ := hmade (List.replicate (twoPow 64 - 1) []) List.length_replicate
    exact ⟨q, hq, hlength.trans hcount⟩
  · rw [hrefused]
    · rfl
    · show (List.replicate 64 emptyHash).length ≠ auntCount (twoPow 64 - 2) (twoPow 64 - 1)
      rw [hcount, List.length_replicate]
      decide

end MerkleProof

end HeaderRelay.Consensus
