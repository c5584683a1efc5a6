import HeaderRelay.Proofs.BitcoinTree
import HeaderRelay.Proofs.BoundedCalls
import HeaderRelay.Proofs.ConsensusTree
import HeaderRelay.Proofs.MissingBranch
import HeaderRelay.Sync.Proving

/-!
# When requests for proofs are answered

A request for a proof reads twice from a node and checks what it is told. What it comes to is settled by the two answers,
whatever they are: there is one exit for each read that fails and for each check, and one for the proof
(`TransactionProven`, `ResultProven`). A last check, that the proof which was built leads to the root, is always passed,
because every leaf of a tree has a proof that does.

A request is run step by step (`Request.Answers`, with a rule for each step).

Results: `transaction_request_answered`, `result_request_answered`.
-/
namespace HeaderRelay.Sync

open Peer (Call Handler)

variable {ρ α β : Type}

/-! ## Requests -/

/-- Run from `w`, the request comes to an answer that is as `P` says. -/
def Request.Answers (followed : Nat) (policy : Policy) (H : Handler ρ) (w : World ρ) (x : Request α)
    (P : Relayed α → Prop) : Prop :=
  ∃ r w', x.run.run followed policy H none w = (.done r, w') ∧ P r

namespace Request

variable {followed : Nat} {policy : Policy} {H : Handler ρ} {w w₁ : World ρ} {P : Relayed α → Prop}

theorem answers_pure {a : α} (h : P (.ok a)) : (pure a : Request α).Answers followed policy H w P := ⟨_, w, rfl, h⟩

theorem answers_throw {x : RelayError} (h : P (.error x)) : (throw x : Request α).Answers followed policy H w P :=
  ⟨_, w, rfl, h⟩

theorem answers_read {op : String} {c : Call} {f : c.Answer → Request α} {r : Relayed c.Answer}
    (h : policy.read followed op (H c) none w = (.done r, w₁))
    (hok : ∀ a, r = .ok a → (f a).Answers followed policy H w₁ P) (herror : ∀ x, r = .error x → P (.error x)) :
    (read op c >>= f).Answers followed policy H w P := by
  have hread : (Program.outcome (.read op) c).run followed policy H none w = (.done r, w₁) := Timed.bind_of_done h
  cases r with
  | error x => exact ⟨_, w₁, Program.run_andThen_of_done _ hread, herror x rfl⟩
  | ok a =>
    obtain ⟨r, w', hrun, hr⟩ := hok a rfl
    exact ⟨r, w', (Program.run_andThen_of_done _ hread).trans hrun, hr⟩

theorem answers_lift {r : Relayed β} {b : β} {f : β → Request α} (hr : r = .ok b)
    (h : (f b).Answers followed policy H w P) : (liftM r >>= f : Request α).Answers followed policy H w P := by
  subst hr
  exact h

theorem answers_lift_error {r : Relayed β} {x : RelayError} {f : β → Request α} (hr : r = .error x)
    (h : P (.error x)) : (liftM r >>= f : Request α).Answers followed policy H w P := by
  subst hr
  exact ⟨_, w, rfl, h⟩

theorem answers_passed {p : Prop} [Decidable p] {x y : Request α} (hp : ¬ p) (h : y.Answers followed policy H w P) :
    (if p then x else y).Answers followed policy H w P := by
  rwa [if_neg hp]

theorem answers_failed {p : Prop} [Decidable p] {x y : Request α} (hp : p) (h : x.Answers followed policy H w P) :
    (if p then x else y).Answers followed policy H w P := by
  rwa [if_pos hp]

end Request

/-! ## Transactions -/

section Transactions

variable {block txid : Hash} {header : Bitcoin.Header} {txids : List Hash}

/-- What a request for the proof of a transaction comes to, by what the node answers to it for the header and for the
list of transactions. The exits stand in the order in which they are tried. -/
inductive TransactionProven (block txid : Hash) :
    Relayed Bitcoin.Header → Relayed (List Hash) → Relayed Bitcoin.MerkleProof → Prop where
  | noHeader {x : RelayError} {rt : Relayed (List Hash)} : TransactionProven block txid (.error x) rt (.error x)
  | noList {header : Bitcoin.Header} {x : RelayError} : TransactionProven block txid (.ok header) (.error x) (.error x)
  | empty {header : Bitcoin.Header} : TransactionProven block txid (.ok header) (.ok []) (.error .emptyLeafSet)
  | otherRoot {header : Bitcoin.Header} {txids : List Hash} {root : Hash} : txids ≠ [] →
    Bitcoin.merkleRoot txids = .ok root → root ≠ header.merkleRoot →
    TransactionProven block txid (.ok header) (.ok txids)
      (.error (.inconsistent s!"transactions of block {block.display} do not hash to its merkle root"))
  | absent {header : Bitcoin.Header} {txids : List Hash} : txids ≠ [] →
    Bitcoin.merkleRoot txids = .ok header.merkleRoot → txid ∉ txids →
    TransactionProven block txid (.ok header) (.ok txids) (.error (.leafNotFound txid.hex))
  | proven {header : Bitcoin.Header} {txids : List Hash} {p : Bitcoin.MerkleProof} : txids ≠ [] →
    Bitcoin.merkleRoot txids = .ok header.merkleRoot → txid ∈ txids → p.leaf = txid →
    p.impliedRoot = .ok header.merkleRoot → TransactionProven block txid (.ok header) (.ok txids) (.ok p)

variable {followed : Nat} {policy : Policy} {H : Handler ρ} {w w₁ w₂ : World ρ} {rh : Relayed Bitcoin.Header}
  {rt : Relayed (List Hash)}

theorem TransactionProven.exists_ok_iff {r : Relayed Bitcoin.MerkleProof} (h : TransactionProven block txid rh rt r) :
    (∃ p, r = .ok p) ↔ ∃ header txids, rh = .ok header ∧ rt = .ok txids ∧ txids ≠ [] ∧
      Bitcoin.merkleRoot txids = .ok header.merkleRoot ∧ txid ∈ txids := by
  constructor
  · rintro ⟨p, rfl⟩
    cases h with
    | proven hne hroot hmem => exact ⟨_, _, rfl, rfl, hne, hroot, hmem⟩
  · rintro ⟨header, txids, rfl, rfl, hne, hroot, hmem⟩
    cases h with
    | empty => exact absurd rfl hne
    | otherRoot _ hroot' hother => exact absurd (Except.ok.inj (hroot'.symm.trans hroot)) hother
    | absent _ _ hnot => exact absurd hmem hnot
    | proven => exact ⟨_, rfl⟩

theorem transaction_proven
    (hheader : policy.read followed "btc.header" (H (.bitcoinNode (.header block))) none w = (.done rh, w₁))
    (htxids : ∀ header, rh = .ok header →
      policy.read followed "btc.block_txids" (H (.bitcoinNode (.blockTxids block))) none w₁ = (.done rt, w₂)) :
    (proveTransaction block txid).Answers followed policy H w (TransactionProven block txid rh rt) := by
  refine Request.answers_read hheader (fun (header : Bitcoin.Header) hrh => ?_) fun x hrh => ?_
  · refine Request.answers_read (htxids header hrh) (fun (txids : List Hash) hrt => ?_) fun x hrt => ?_
    · subst hrh hrt
      by_cases hempty : txids = []
      · subst hempty
        exact Request.answers_lift_error rfl .empty
      obtain ⟨tree, hbuild, hlayered⟩ := Bitcoin.exists_build hempty
      have hroot := Bitcoin.merkleRoot_of_build hbuild
      refine Request.answers_lift hbuild ?_
      by_cases hother : tree.root ≠ header.merkleRoot
      · exact Request.answers_failed hother (Request.answers_throw (.otherRoot hempty hroot hother))
      have hsame : tree.root = header.merkleRoot := not_not.mp hother
      refine Request.answers_passed hother ?_
      by_cases hmem : txid ∈ txids
      · refine Request.answers_lift (tree.prove_of_mem hlayered hmem) ?_
        have himplied := hlayered.impliedRoot_proofAt (List.getElem?_idxOf hmem)
        refine Request.answers_lift himplied (Request.answers_passed hother (Request.answers_pure ?_))
        rw [hsame] at hroot himplied
        exact .proven hempty hroot hmem rfl himplied
      · refine Request.answers_lift_error (tree.prove_of_not_mem hlayered hmem) ?_
        rw [hsame] at hroot
        exact .absent hempty hroot hmem
    · subst hrh hrt
      exact .noList
  · subst hrh
    exact .noHeader

/-- **Proofs of transactions.** A request is answered with a proof exactly if the node gives a header and a list that
hashes to its root and holds the transaction. The proof is one of the transaction and leads to that root. Every other
answer is the error of the first step that fails, and no proof is ever found not to lead to the root. -/
theorem transaction_request_answered
    (hheader : policy.read followed "btc.header" (H (.bitcoinNode (.header block))) none w = (.done rh, w₁))
    (htxids : ∀ header, rh = .ok header →
      policy.read followed "btc.block_txids" (H (.bitcoinNode (.blockTxids block))) none w₁ = (.done rt, w₂)) :
    ∃ r w', (proveTransaction block txid).run.run followed policy H none w = (.done r, w') ∧
      TransactionProven block txid rh rt r ∧
      ((∃ p, r = .ok p) ↔ ∃ header txids, rh = .ok header ∧ rt = .ok txids ∧ txids ≠ [] ∧
        Bitcoin.merkleRoot txids = .ok header.merkleRoot ∧ txid ∈ txids) ∧
      ∀ text, r = .error (.invalidProof text) → rh = .error (.invalidProof text) ∨ rt = .error (.invalidProof text) := by
  obtain ⟨r, w', hrun, hproven⟩ := transaction_proven hheader htxids
  refine ⟨r, w', hrun, hproven, hproven.exists_ok_iff, ?_⟩
  rintro text rfl
  cases hproven with
  | noHeader => exact .inl rfl
  | noList => exact .inr rfl

def repeatingNode : (c : Call) → Option (Relayed c.Answer)
  | .bitcoinNode (.header hash) =>
    some (.ok ⟨hash, .zero, (Bitcoin.merkleRoot Bitcoin.repeatedLeaves).toOption.getD .zero, []⟩)
  | .bitcoinNode (.blockTxids _) => some (.ok Bitcoin.repeatedLeaves)
  | _ => none

/-- A transaction that stands twice is proven. -/
theorem repeated_transaction_answered :
    ∃ p w', (proveTransaction (.replicate 7) (.replicate 2)).run.run 1 ⟨1000, 1, 10⟩ (Handler.scripted repeatingNode)
        none (World.start ()) = (.done (.ok p), w') ∧
      p.leaf = .replicate 2 ∧ p.impliedRoot = Bitcoin.merkleRoot Bitcoin.repeatedLeaves := by
  have hne : Bitcoin.repeatedLeaves ≠ [] := by decide
  have hmem : .replicate 2 ∈ Bitcoin.repeatedLeaves := by decide
  obtain ⟨tree, hbuild, -⟩ := Bitcoin.exists_build hne
  have hroot := Bitcoin.merkleRoot_of_build hbuild
  have hheader : (⟨1000, 1, 10⟩ : Policy).read 1 "btc.header"
      (Handler.scripted repeatingNode (.bitcoinNode (.header (.replicate 7)))) none (World.start ()) =
        (.done (.ok ⟨.replicate 7, .zero, (Bitcoin.merkleRoot Bitcoin.repeatedLeaves).toOption.getD .zero, []⟩),
          World.start ()) := rfl
  have htxids : (⟨1000, 1, 10⟩ : Policy).read 1 "btc.block_txids"
      (Handler.scripted repeatingNode (.bitcoinNode (.blockTxids (.replicate 7)))) none (World.start ()) =
        (.done (.ok Bitcoin.repeatedLeaves), World.start ()) := rfl
  obtain ⟨r, w', hrun, hproven, hiff, -⟩ :=
    @transaction_request_answered _ _ (.replicate 2) _ _ _ _ _ _ _ _ hheader fun _ _ => htxids
  obtain ⟨p, rfl⟩ := hiff.mpr ⟨_, _, rfl, rfl, hne, by rw [hroot]; rfl, hmem⟩
  refine ⟨p, w', hrun, ?_⟩
  cases hproven with
  | proven _ hheader _ hleaf himplied => exact ⟨hleaf, himplied.trans hheader.symm⟩

end Transactions

/-! ## Results -/

section Results

open Consensus (TxResult resultsRoot)

variable {height index : Nat} {followed : Nat} {policy : Policy} {H : Handler ρ} {w w₁ w₂ : World ρ}
  {rr : Relayed (List TxResult)} {rc : Relayed Consensus.Header}

/-- What a request for the proof of a result comes to, by what the node answers to it for the results and for the next
header. The exits stand in the order in which they are tried. -/
inductive ResultProven (height index : Nat) :
    Relayed (List TxResult) → Relayed Consensus.Header → Relayed (Bytes × Consensus.MerkleProof) → Prop where
  | noResults {x : RelayError} {rc : Relayed Consensus.Header} : ResultProven height index (.error x) rc (.error x)
  | noHeader {results : List TxResult} {x : RelayError} : ResultProven height index (.ok results) (.error x) (.error x)
  | beyond {results : List TxResult} {committing : Consensus.Header} : results.length ≤ index →
    ResultProven height index (.ok results) (.ok committing) (.error (.indexOutOfRange index results.length))
  | otherRoot {results : List TxResult} {committing : Consensus.Header} : index < results.length →
    resultsRoot results ≠ committing.lastResultsHash →
    ResultProven height index (.ok results) (.ok committing)
      (.error (.inconsistent s!"results of block {height} do not match the root committed at {height + 1}"))
  | proven {results : List TxResult} {committing : Consensus.Header} {result : TxResult} {p : Consensus.MerkleProof} :
    results[index]? = some result → resultsRoot results = committing.lastResultsHash → p.total = results.length →
    p.index = index → p.verify committing.lastResultsHash result.encode = .ok () →
    ResultProven height index (.ok results) (.ok committing) (.ok (result.encode, p))

theorem ResultProven.exists_ok_iff {r : Relayed (Bytes × Consensus.MerkleProof)}
    (h : ResultProven height index rr rc r) :
    (∃ a, r = .ok a) ↔ ∃ results committing, rr = .ok results ∧ rc = .ok committing ∧ index < results.length ∧
      resultsRoot results = committing.lastResultsHash := by
  constructor
  · rintro ⟨a, rfl⟩
    cases h with
    | proven hindex hroot => exact ⟨_, _, rfl, rfl, (List.getElem?_eq_some_iff.mp hindex).1, hroot⟩
  · rintro ⟨results, committing, rfl, rfl, hindex, hroot⟩
    cases h with
    | beyond hbeyond => exact absurd hindex (Nat.not_lt.mpr hbeyond)
    | otherRoot _ hother => exact absurd hroot hother
    | proven => exact ⟨_, rfl⟩

theorem exists_proveResult {results : List TxResult} {result : TxResult} (h : results[index]? = some result) :
    ∃ p, Consensus.proveResult results index = .ok (resultsRoot results, p) ∧ p.total = results.length ∧
      p.index = index ∧ p.verify (resultsRoot results) result.encode = .ok () := by
  have hencoded : (results.map TxResult.encode)[index]? = some result.encode := by rw [List.getElem?_map, h]; rfl
  obtain ⟨p, hprove, htotal, hindex, hleaf, hroot⟩ := Consensus.exists_prove hencoded
  refine ⟨p, ?_, htotal.trans (List.length_map _), hindex, Consensus.MerkleProof.verify_eq_ok_iff.mpr ⟨hleaf, hroot⟩⟩
  rw [Consensus.proveResult, hprove]
  rfl

theorem proveResult_beyond {results : List TxResult} (h : results.length ≤ index) :
    Consensus.proveResult results index = .error (.indexOutOfRange index results.length) := by
  have hbeyond : ¬ index < (results.map TxResult.encode).length := by
    rw [List.length_map]
    exact Nat.not_lt.mpr h
  rw [Consensus.proveResult, Consensus.prove, if_neg hbeyond, List.length_map]
  rfl

theorem verify_of_proveResult {results : List TxResult} {root : Hash} {p : Consensus.MerkleProof}
    (h : Consensus.proveResult results index = .ok (root, p)) :
    ∃ hindex : index < results.length, p.verify root results[index].encode = .ok () := by
  obtain hindex | hbeyond := Nat.lt_or_ge index results.length
  · obtain ⟨p', hprove, -, -, hverify⟩ := exists_proveResult (List.getElem?_eq_getElem hindex)
    cases hprove.symm.trans h
    exact ⟨hindex, hverify⟩
  · rw [proveResult_beyond hbeyond] at h
    cases h

theorem result_proven
    (hresults : policy.read followed "consensus.block_results" (H (.consensusNode (.blockResults height))) none w =
      (.done rr, w₁))
    (hheader : ∀ results, rr = .ok results →
      policy.read followed "consensus.header" (H (.consensusNode (.header (height + 1)))) none w₁ = (.done rc, w₂)) :
    (proveResultAt height index).Answers followed policy H w (ResultProven height index rr rc) := by
  refine Request.answers_read hresults (fun (results : List TxResult) hrr => ?_) fun x hrr => ?_
  · refine Request.answers_read (hheader results hrr) (fun (committing : Consensus.Header) hrc => ?_) fun x hrc => ?_
    · subst hrr hrc
      cases hindex : results[index]? with
      | none =>
        have hbeyond := List.getElem?_eq_none_iff.mp hindex
        exact Request.answers_lift_error (proveResult_beyond hbeyond) (.beyond hbeyond)
      | some result =>
        obtain ⟨p, hprove, htotal, hplace, hverify⟩ := exists_proveResult hindex
        refine Request.answers_lift hprove ?_
        by_cases hother : resultsRoot results ≠ committing.lastResultsHash
        · have hlt := (List.getElem?_eq_some_iff.mp hindex).1
          exact Request.answers_failed hother (Request.answers_throw (.otherRoot hlt hother))
        · have hsame : resultsRoot results = committing.lastResultsHash := not_not.mp hother
          refine Request.answers_passed hother ?_
          refine Request.answers_lift hverify (Request.answers_pure ?_)
          rw [hsame] at hverify
          exact .proven hindex hsame htotal hplace hverify
    · subst hrr hrc
      exact .noHeader
  · subst hrr
    exact .noResults

/-- **Proofs of results.** A request is answered with a proof exactly if the node gives results, one of which has the
index, and the next header commits to them. The answer is the committed form of that result, with a proof of it under
the root in that header. Whatever is proven among results is one of them and is verified, so neither its lookup nor the
last check fails. -/
theorem result_request_answered
    (hresults : policy.read followed "consensus.block_results" (H (.consensusNode (.blockResults height))) none w =
      (.done rr, w₁))
    (hheader : ∀ results, rr = .ok results →
      policy.read followed "consensus.header" (H (.consensusNode (.header (height + 1)))) none w₁ = (.done rc, w₂)) :
    ∃ r w', (proveResultAt height index).run.run followed policy H none w = (.done r, w') ∧
      ResultProven height index rr rc r ∧
      ((∃ a, r = .ok a) ↔ ∃ results committing, rr = .ok results ∧ rc = .ok committing ∧ index < results.length ∧
        resultsRoot results = committing.lastResultsHash) ∧
      ∀ results root p, Consensus.proveResult results index = .ok (root, p) →
        ∃ hindex : index < results.length, p.verify root results[index].encode = .ok () := by
  obtain ⟨r, w', hrun, hproven⟩ := result_proven hresults hheader
  exact ⟨r, w', hrun, hproven, hproven.exists_ok_iff, fun _ _ _ => verify_of_proveResult⟩

def committingNode : (c : Call) → Option (Relayed c.Answer)
  | .consensusNode (.blockResults _) => some (.ok Consensus.twoResults)
  | .consensusNode (.header height) => some (.ok ⟨height, .zero, .zero, .zero, resultsRoot Consensus.twoResults⟩)
  | _ => none

/-- The second result is proven. -/
theorem second_result_answered :
    ∃ result p w', (proveResultAt 4 1).run.run 1 ⟨1000, 1, 10⟩ (Handler.scripted committingNode) none (World.start ()) =
        (.done (.ok (TxResult.encode result, p)), w') ∧
      Consensus.twoResults[1]? = some result ∧ p.total = 2 ∧ p.index = 1 ∧
      p.verify (resultsRoot Consensus.twoResults) result.encode = .ok () := by
  have hresults : (⟨1000, 1, 10⟩ : Policy).read 1 "consensus.block_results"
      (Handler.scripted committingNode (.consensusNode (.blockResults 4))) none (World.start ()) =
        (.done (.ok Consensus.twoResults), World.start ()) := rfl
  have hheader : (⟨1000, 1, 10⟩ : Policy).read 1 "consensus.header"
      (Handler.scripted committingNode (.consensusNode (.header (4 + 1)))) none (World.start ()) =
        (.done (.ok ⟨5, .zero, .zero, .zero, resultsRoot Consensus.twoResults⟩), World.start ()) := rfl
  obtain ⟨r, w', hrun, hproven, hiff, -⟩ :=
    @result_request_answered _ 4 1 _ _ _ _ _ _ _ _ hresults fun _ _ => hheader
  obtain ⟨a, rfl⟩ := hiff.mpr ⟨_, _, rfl, rfl, by decide, rfl⟩
  cases hproven with
  | proven hindex _ htotal hplace hverify => exact ⟨_, _, w', hrun, hindex, htotal, hplace, hverify⟩

end Results

end HeaderRelay.Sync
