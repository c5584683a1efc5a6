import HeaderRelay.Consensus.Merkle

/-!
# Proofs of the leaves of a consensus-chain tree

Root, proof and verification cut a list of leaves at the same place. `cut_induction` is the induction that all
three follow: by it the root joins those of the two parts (`merkleRoot_cut`), and the climb along the aunts of a
path undoes the cuts that made it (`climb_pathFrom`). So the proof of every index at which there is a leaf
verifies that leaf, also among the results of a block (`built_proofs_verify`).
-/
namespace HeaderRelay.Consensus

variable {leaves : List Bytes} {leaf aunt : Hash} {rest : List Hash} {index total fuel : Nat}

/-! ## Cutting -/

theorem cut_lengths (h : 2 ≤ leaves.length) :
    (0 < leftCount leaves.length ∧ leftCount leaves.length < leaves.length) ∧
      (leaves.take (leftCount leaves.length)).length = leftCount leaves.length ∧
      (leaves.drop (leftCount leaves.length)).length = leaves.length - leftCount leaves.length := by
  have hlt := leftCount_lt h
  exact ⟨⟨leftCount_pos h, hlt⟩, List.length_take_of_le (Nat.le_of_lt hlt), List.length_drop⟩

/-- Induction along the cuts, from the two parts of a list to the list. -/
theorem cut_induction {P : List Bytes → Prop} (nil : P []) (leaf : ∀ leaf, P [leaf])
    (cut : ∀ leaves, 2 ≤ leaves.length → P (leaves.take (leftCount leaves.length)) →
      P (leaves.drop (leftCount leaves.length)) → P leaves) (leaves : List Bytes) : P leaves := by
  induction hn : leaves.length using Nat.strongRecOn generalizing leaves with
  | ind n ih =>
    match leaves, hn with
    | [], _ => exact nil
    | [b], _ => exact leaf b
    | a :: b :: rest, hn =>
      have hmany : 2 ≤ (a :: b :: rest).length := by simp
      obtain ⟨hcut, hleft, hright⟩ := cut_lengths hmany
      apply cut (a :: b :: rest) hmany
      · exact ih _ (by omega) _ rfl
      · exact ih _ (by omega) _ rfl

/-! ## Roots -/

theorem rootFrom_cut (h : 2 ≤ leaves.length) (fuel : Nat) :
    rootFrom (fuel + 1) leaves = innerHash (rootFrom fuel (leaves.take (leftCount leaves.length)))
      (rootFrom fuel (leaves.drop (leftCount leaves.length))) := by
  match leaves, h with
  | a :: b :: rest, _ => rfl

theorem rootFrom_eq (h : leaves.length ≤ fuel) : rootFrom fuel leaves = merkleRoot leaves := by
  suffices ∀ fuel', leaves.length ≤ fuel' → rootFrom fuel leaves = rootFrom fuel' leaves from
    this leaves.length (Nat.le_refl _)
  induction leaves using cut_induction generalizing fuel with
  | nil =>
    intro fuel' _
    cases fuel <;> cases fuel' <;> rfl
  | leaf b =>
    intro fuel' h'
    obtain ⟨fuel, rfl⟩ := Nat.exists_eq_add_of_le' h
    obtain ⟨fuel', rfl⟩ := Nat.exists_eq_add_of_le' h'
    rfl
  | cut leaves hmany ihleft ihright =>
    intro fuel' h'
    obtain ⟨hcut, hleft, hright⟩ := cut_lengths hmany
    obtain ⟨fuel, rfl⟩ := Nat.exists_eq_add_of_le' (show 1 ≤ fuel by omega)
    obtain ⟨fuel', rfl⟩ := Nat.exists_eq_add_of_le' (show 1 ≤ fuel' by omega)
    rw [rootFrom_cut hmany, rootFrom_cut hmany, ihleft (by omega) fuel' (by omega),
      ihright (by omega) fuel' (by omega)]

theorem merkleRoot_cut (h : 2 ≤ leaves.length) :
    merkleRoot leaves = innerHash (merkleRoot (leaves.take (leftCount leaves.length)))
      (merkleRoot (leaves.drop (leftCount leaves.length))) := by
  obtain ⟨hcut, hleft, hright⟩ := cut_lengths h
  rw [← rootFrom_eq (Nat.le_succ leaves.length), rootFrom_cut h, rootFrom_eq (by omega), rootFrom_eq (by omega)]

/-! ## Paths -/

theorem pathFrom_cut (h : 2 ≤ leaves.length) (fuel index : Nat) :
    pathFrom (fuel + 1) leaves index =
      if index < leftCount leaves.length then
        let path := pathFrom fuel (leaves.take (leftCount leaves.length)) index
        (path.1, path.2 ++ [merkleRoot (leaves.drop (leftCount leaves.length))])
      else
        let path := pathFrom fuel (leaves.drop (leftCount leaves.length)) (index - leftCount leaves.length)
        (path.1, path.2 ++ [merkleRoot (leaves.take (leftCount leaves.length))]) := by
  match leaves, h with
  | a :: b :: rest, _ => rfl

theorem climb_left (htotal : 2 ≤ total) (hindex : index < leftCount total) :
    climb leaf (aunt :: rest) index total = (climb leaf rest index (leftCount total)).map (innerHash · aunt) := by
  have := leftCount_lt htotal
  rw [climb, if_pos ⟨by omega, htotal⟩]
  exact if_pos hindex

theorem climb_right (htotal : 2 ≤ total) (hlt : index < total) (hindex : ¬ index < leftCount total) :
    climb leaf (aunt :: rest) index total =
      (climb leaf rest (index - leftCount total) (total - leftCount total)).map (innerHash aunt ·) := by
  rw [climb, if_pos ⟨hlt, htotal⟩]
  exact if_neg hindex

/-- **Paths.** The path to a leaf starts from its hash, and the climb along its aunts ends at the root. -/
theorem climb_pathFrom {b : Bytes} (hfuel : leaves.length ≤ fuel) (hb : leaves[index]? = some b) :
    (pathFrom fuel leaves index).1 = leafHash b ∧
      climb (leafHash b) (pathFrom fuel leaves index).2.reverse index leaves.length = some (merkleRoot leaves) := by
  induction leaves using cut_induction generalizing fuel index with
  | nil => simp at hb
  | leaf leaf =>
    obtain ⟨fuel, rfl⟩ := Nat.exists_eq_add_of_le' hfuel
    obtain ⟨rfl, rfl⟩ : leaf = b ∧ index = 0 := by simpa [List.getElem?_singleton, and_comm] using hb
    exact ⟨rfl, rfl⟩
  | cut leaves hmany ihleft ihright =>
    obtain ⟨hcut, hleft, hright⟩ := cut_lengths hmany
    obtain ⟨fuel, rfl⟩ := Nat.exists_eq_add_of_le' (show 1 ≤ fuel by omega)
    rw [pathFrom_cut hmany, merkleRoot_cut hmany]
    -- the aunt that the cut adds last is the one that the climb takes first
    by_cases hlt : index < leftCount leaves.length
    · have hb' : (leaves.take (leftCount leaves.length))[index]? = some b := by rwa [List.getElem?_take_of_lt hlt]
      obtain ⟨hleaf, hclimb⟩ := ihleft (show _ ≤ fuel by omega) hb'
      rw [hleft] at hclimb
      rw [if_pos hlt, List.reverse_append, List.reverse_singleton, List.singleton_append, climb_left hmany hlt,
        hclimb]
      exact ⟨hleaf, rfl⟩
    · have hindex : index < leaves.length := (List.getElem?_eq_some_iff.mp hb).1
      have hb' : (leaves.drop (leftCount leaves.length))[index - leftCount leaves.length]? = some b := by
        rwa [List.getElem?_drop, show leftCount leaves.length + (index - leftCount leaves.length) = index by omega]
      obtain ⟨hleaf, hclimb⟩ := ihright (show _ ≤ fuel by omega) hb'
      rw [hright] at hclimb
      rw [if_neg hlt, List.reverse_append, List.reverse_singleton, List.singleton_append,
        climb_right hmany hindex hlt, hclimb]
      exact ⟨hleaf, rfl⟩

/-! ## Proofs -/

namespace MerkleProof

theorem impliedRoot_eq_ok_iff {p : MerkleProof} {root : Hash} :
    p.impliedRoot = .ok root ↔
      p.index < p.total ∧ climb p.leafHash p.aunts.reverse p.index p.total = some root := by
  unfold impliedRoot checkIndex
  split
  · rename_i hindex
    cases hclimb : climb p.leafHash p.aunts.reverse p.index p.total with
    | none => simp [bind, Except.bind, throw, throwThe, MonadExceptOf.throw]
    | some implied => simp [hindex, bind, Except.bind, pure, Except.pure]
  · rename_i hindex
    simp [hindex, bind, Except.bind]

theorem verify_eq_ok_iff {p : MerkleProof} {root : Hash} {b : Bytes} :
    p.verify root b = .ok () ↔ p.leafHash = HeaderRelay.leafHash b ∧ p.impliedRoot = .ok root := by
  unfold verify
  by_cases hleaf : HeaderRelay.leafHash b = p.leafHash
  · cases himplied : p.impliedRoot with
    | error e => simp [hleaf, bind, Except.bind]
    | ok implied =>
      by_cases hroot : implied = root
      · simp [hleaf, hroot, bind, Except.bind, pure, Except.pure]
      · simp [hleaf, hroot, bind, Except.bind, throw, throwThe, MonadExceptOf.throw]
  · simp [hleaf, Ne.symm hleaf, bind, Except.bind, throw, throwThe, MonadExceptOf.throw]

end MerkleProof

theorem exists_prove {b : Bytes} (hb : leaves[index]? = some b) :
    ∃ p, prove leaves index = .ok p ∧ p.total = leaves.length ∧ p.index = index ∧ p.leafHash = leafHash b ∧
      p.impliedRoot = .ok (merkleRoot leaves) := by
  have hindex : index < leaves.length := (List.getElem?_eq_some_iff.mp hb).1
  obtain ⟨hleaf, hclimb⟩ := climb_pathFrom (Nat.le_refl leaves.length) hb
  refine ⟨_, if_pos hindex, rfl, rfl, hleaf, MerkleProof.impliedRoot_eq_ok_iff.mpr ⟨hindex, ?_⟩⟩
  rw [hleaf]
  exact hclimb

/-- **Proofs of leaves.** There is a proof of every index at which there is a leaf, and of no other; it implies the
root and verifies that leaf. The same holds among the results of a block. -/
theorem built_proofs_verify (leaves : List Bytes) (index : Nat) :
    (leaves.length ≤ index → prove leaves index = .error (.indexOutOfRange index leaves.length)) ∧
    (∀ h : index < leaves.length, ∃ p, prove leaves index = .ok p ∧
      p.total = leaves.length ∧ p.index = index ∧ p.leafHash = leafHash leaves[index] ∧
      p.impliedRoot = .ok (merkleRoot leaves) ∧ p.verify (merkleRoot leaves) leaves[index] = .ok ()) ∧
    ∀ (results : List TxResult) (h : index < results.length), ∃ p,
      proveResult results index = .ok (resultsRoot results, p) ∧
      p.verify (resultsRoot results) results[index].encode = .ok () := by
  refine ⟨fun hge => if_neg (Nat.not_lt.mpr hge), fun h => ?_, fun results h => ?_⟩
  · obtain ⟨p, hprove, htotal, hindex, hleaf, hroot⟩ := exists_prove (List.getElem?_eq_getElem h)
    exact ⟨p, hprove, htotal, hindex, hleaf, hroot, MerkleProof.verify_eq_ok_iff.mpr ⟨hleaf, hroot⟩⟩
  · have hencoded : (results.map TxResult.encode)[index]? = some results[index].encode := by
      rw [List.getElem?_map, List.getElem?_eq_getElem h, Option.map_some]
    obtain ⟨p, hprove, -, -, hleaf, hroot⟩ := exists_prove hencoded
    refine ⟨p, ?_, MerkleProof.verify_eq_ok_iff.mpr ⟨hleaf, hroot⟩⟩
    unfold proveResult
    rw [hprove]
    rfl

/-- Five leaves: the last stands alone on the right of the first cut. -/
def fiveLeaves : List Bytes := [[1], [2, 2], [], [1], [5]]

def twoResults : List TxResult := [⟨0, [7], "", "", 90, 80, ""⟩, ⟨3, [], "out of gas", "", 50, -1, "sdk"⟩]

theorem last_leaf_verifies :
    fiveLeaves.length ≤ 5 ∧ prove fiveLeaves 5 = .error (.indexOutOfRange 5 5) ∧
    (∃ h : 4 < fiveLeaves.length, ∃ p, prove fiveLeaves 4 = .ok p ∧
      p.verify (merkleRoot fiveLeaves) fiveLeaves[4] = .ok ()) ∧
    ∃ h : 1 < twoResults.length, ∃ p, proveResult twoResults 1 = .ok (resultsRoot twoResults, p) ∧
      p.verify (resultsRoot twoResults) twoResults[1].encode = .ok () := by
  have hlast : 4 < fiveLeaves.length := by decide
  have hbeyond : fiveLeaves.length ≤ 5 := by decide
  have hresult : 1 < twoResults.length := by decide
  obtain ⟨p, hprove, -, -, -, -, hverify⟩ := (built_proofs_verify fiveLeaves 4).2.1 hlast
  exact ⟨hbeyond, (built_proofs_verify fiveLeaves 5).1 hbeyond, ⟨hlast, p, hprove, hverify⟩, hresult,
    (built_proofs_verify fiveLeaves 1).2.2 twoResults hresult⟩

end HeaderRelay.Consensus
