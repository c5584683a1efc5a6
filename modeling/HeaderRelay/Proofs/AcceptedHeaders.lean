import HeaderRelay.Proofs.BitcoinSubmissions
import HeaderRelay.Proofs.ConsensusSubmissions
import HeaderRelay.Proofs.HonestPeers
import HeaderRelay.Proofs.TaskMetrics

/-!
# The headers that contracts accept

Contracts keep a record of the submissions that they have taken (`Handler.Records`), also of those that seem to have
failed because their answers were lost. A cycle that ends well reports just the headers that it has added to the record
(`Cycle.Accounts`), in each of the engines, whatever the peers answer; the batched engine counts the headers that leave
its queue, so the light client has to answer with an entry for each. A cycle that fails reports nothing, and what it has
added is lost to the metrics: the metrics of a task count all that was accepted exactly if no failed cycle has had
anything accepted (`accepted_headers_counted`, `failed_cycle_uncounted`).
-/
namespace HeaderRelay

open Peer (Call Conduct Handler Exchange)
open Schedule (Strategy Span)
open Sync (Report)

variable {σ τ ρ α β : Type}

/-! ## Records of submissions -/

def Peer.Call.carried : Call → Nat
  | .bitcoinClient (.submitHeaders _ headers _) => headers.length
  | .consensusClient (.submitLightBlocks _ blocks) => blocks.length
  | .relayStore (.submitHashChain chain) => chain.length
  | _ => 0

def headerCount (calls : List Call) : Nat := total (calls.map Call.carried)

theorem headerCount_concat (calls : List Call) (c : Call) :
    headerCount (calls ++ [c]) = headerCount calls + c.carried := by
  simp [headerCount, total_append]

/-- What is attested has an entry for each block. -/
def Peer.Call.Entrywise : (c : Call) → Relayed c.Answer → Prop
  | .consensusClient (.verifyLightBlocks _ blocks), .ok (chain : List Consensus.ChainEntry) =>
    chain.length = blocks.length
  | _, _ => True

theorem Peer.Call.entrywise_of_submission {c : Call} (hc : c.isSubmission = true) (r : Relayed c.Answer) :
    c.Entrywise r := by
  unfold Entrywise
  split
  · cases hc
  · trivial

/-- Peers that answer as `gives` allows, with a record of the submissions that were taken. -/
abbrev Peer.Conduct.takers (gives : (c : Call) → Relayed c.Answer → Prop) : Conduct (Unit × List Call) :=
  (Conduct.stateless (fun _ _ => True) gives).recording

theorem Peer.Call.record_stays {c : Call} (hc : c.isSubmission = false) {r : Relayed c.Answer}
    {p p' : Unit × List Call} (h : p'.2 = p.2 ++ c.taken r) : p' = p := by
  rw [Call.taken_of_not_submission hc, List.append_nil] at h
  exact Prod.ext rfl h

/-- Contracts keep a record of the submissions that they take; one that fails may have been taken. -/
def Peer.Handler.Records (H : Handler τ) (taken : τ → List Call) : Prop :=
  (Conduct.takers fun _ _ => True).Governs H fun w p => taken w.peers = p.2

theorem Peer.Handler.Records.giving {H : Handler τ} {taken : τ → List Call} (hH : H.Records taken)
    {gives : (c : Call) → Relayed c.Answer → Prop}
    (hgives : ∀ {c deadline w r w'}, H c deadline w = (.done r, w') → gives c r)
    (hfree : ∀ {c} (r : Relayed c.Answer), c.isSubmission = true → gives c r) :
    (Conduct.takers gives).Governs H fun w p => taken w.peers = p.2 := by
  -- what a call has done, it has done with an answer of the kind, if it was a submission
  have heffect : ∀ {c : Call} {p p' : Unit × List Call}, (∃ r, (Conduct.takers fun _ _ => True).answers c p r p') →
      p' = p ∨ ∃ r, (Conduct.takers gives).answers c p r p' := by
    rintro c p p' ⟨r, -, hrecord⟩
    cases hsub : c.isSubmission with
    | true => exact .inr ⟨r, hfree r hsub, hrecord⟩
    | false => exact .inl (Call.record_stays hsub hrecord)
  refine { hH with done := ?_, unanswered := ?_ }
  · intro w p mode c deadline r w' hw hc h
    obtain ⟨p', hans, hw'⟩ := hH.done hw hc h
    refine ⟨p', ?_, hw'⟩
    obtain ⟨-, hrecord⟩ | ⟨hfaulty, hx, rfl | heff⟩ := hans
    · exact .inl ⟨hgives h, hrecord⟩
    · exact .inr ⟨hfaulty, hx, .inl rfl⟩
    · exact .inr ⟨hfaulty, hx, heffect heff⟩
  · intro w p mode c deadline w' hw hc h
    obtain ⟨p', rfl | heff, hw'⟩ := hH.unanswered hw hc h
    · exact ⟨p', .inl rfl, hw'⟩
    · exact ⟨p', heffect heff, hw'⟩

/-- The submissions that were answered well, by the exchanges on record. -/
def takenIn : List (Exchange ρ) → List Call
  | [] => []
  | e :: earlier => takenIn earlier ++
    match e.outcome with
    | .done r => e.call.taken r
    | _ => []

theorem Peer.Handler.records_recorded (H : Handler ρ) : H.recorded.Records fun p => takenIn p.2 := by
  refine ⟨?_, ?_, fun _ hw => hw, fun _ hw => hw, fun _ hw => hw, fun _ _ => rfl, fun _ _ _ => rfl,
    fun _ _ _ _ => rfl⟩
  · rintro w ⟨_, l⟩ mode c deadline r w' rfl - h
    obtain ⟨after, -, rfl⟩ := Handler.recorded_cases h
    exact ⟨((), takenIn w.record ++ c.taken r), .inl ⟨trivial, rfl⟩, rfl⟩
  · rintro w ⟨_, l⟩ mode c deadline w' rfl - h
    obtain ⟨after, -, rfl⟩ := Handler.recorded_cases h
    exact ⟨((), takenIn w.record), .inl rfl, List.append_nil _⟩

/-! ## Rules -/

section Rules

variable {gives : (c : Call) → Relayed c.Answer → Prop} {p : Unit × List Call} {s : σ}

theorem Program.Ensures.beside {P : Call → Prop} {x : Program α} {Q : α → Unit → Prop}
    (h : x.Ensures (Conduct.everyone.asking P) () Q) (hP : ∀ c, P c → c.isSubmission = false) :
    x.Ensures ((Conduct.takers gives).failing True) p fun a p' => Q a () ∧ p' = p := by
  induction x with
  | done a => exact ⟨h, rfl⟩
  | note ev next ih => exact ih h
  | ask mode c next ih =>
    obtain ⟨⟨-, hc⟩, hnext⟩ := h
    have hread : c.isSubmission = false := hP c hc
    refine ⟨⟨trivial, fun hsub => absurd hsub (by simp [hread])⟩, fun r p' hr => ?_⟩
    obtain rfl : p' = p := by
      obtain ⟨-, hrecord⟩ | ⟨-, -, rfl | ⟨r', -, hrecord⟩⟩ := hr
      · exact Call.record_stays hread hrecord
      · rfl
      · exact Call.record_stays hread hrecord
    exact ih r (hnext r () trivial)

/-- A part of a cycle that makes no submissions takes nothing away from the record, if it fails, and leaves it as it
is otherwise. -/
theorem Cycle.Ensures.beside {P : Call → Prop} {x : Cycle σ α} {ok : α → σ → Unit → Prop}
    {err : RelayError → σ → Unit → Prop} {ok' : α → σ → Unit × List Call → Prop}
    (h : x.Ensures (Conduct.everyone.asking P) s () ok err) (hP : ∀ c, P c → c.isSubmission = false)
    (hok : ∀ a s', ok a s' () → ok' a s' p) :
    x.Ensures ((Conduct.takers gives).failing True) s p ok' fun _ _ p' => headerCount p.2 ≤ headerCount p'.2 := by
  refine Program.Ensures.mono (Program.Ensures.beside h hP) ?_
  rintro ⟨y | a, s'⟩ _ ⟨hend, rfl⟩
  · exact Nat.le_refl _
  · exact hok a s' hend

theorem ensures_taker_read {op : String} {c : Call} (hc : c.isSubmission = false)
    {ok : c.Answer → σ → Unit × List Call → Prop} {err : RelayError → σ → Unit × List Call → Prop}
    (hok : ∀ a, gives c (.ok a) → ok a s p) (herr : ∀ x, err x s p) :
    (Cycle.read op c : Cycle σ c.Answer).Ensures ((Conduct.takers gives).failing True) s p ok err := by
  have hreads : (Conduct.takers gives).Reads c p False fun a => gives c (.ok a) := by
    refine ⟨fun _ => ⟨trivial, fun hsub => absurd hsub (by simp [hc])⟩, ?_⟩
    rintro (x | a) p' ⟨hgives, -⟩
    · exact not_false
    · exact hgives
  exact Cycle.ensures_read_failing hreads hok fun x _ => herr x

/-- A submission that ends well has been taken, and one that fails may have been. -/
theorem ensures_taker_submission {c : Call} (hc : c.isSubmission = true)
    {ok : Relayed c.Answer → σ → Unit × List Call → Prop} {err : RelayError → σ → Unit × List Call → Prop}
    (hok : ∀ a p', headerCount p'.2 = headerCount p.2 + c.carried → ok (.ok a) s p')
    (herr : ∀ x p', headerCount p.2 ≤ headerCount p'.2 → ok (.error x) s p') :
    (Cycle.outcome .submit c : Cycle σ (Relayed c.Answer)).Ensures ((Conduct.takers gives).failing True) s p
      ok err := by
  have htaken : ∀ {a : c.Answer} {p' : Unit × List Call}, p'.2 = p.2 ++ c.taken (.ok a) →
      headerCount p'.2 = headerCount p.2 + c.carried := by
    intro a p' hrecord
    rw [hrecord, Call.taken, if_pos hc, headerCount_concat]
  have hkept : ∀ {r : Relayed c.Answer} {p' : Unit × List Call}, p'.2 = p.2 ++ c.taken r →
      headerCount p.2 ≤ headerCount p'.2 := by
    intro r p' hrecord
    cases r with
    | ok a =>
      rw [htaken hrecord]
      exact Nat.le_add_right ..
    | error x => exact Nat.le_of_eq (by rw [hrecord, Call.taken, List.append_nil])
  refine Cycle.ensures_outcome.mpr ⟨⟨trivial, fun _ => rfl⟩, ?_⟩
  rintro (x | a) p' (⟨-, hrecord⟩ | ⟨-, ⟨y, hy⟩, rfl | ⟨r, -, hrecord⟩⟩)
  · exact herr x p' (hkept hrecord)
  · exact herr x p' (Nat.le_refl _)
  · exact herr x p' (hkept hrecord)
  · exact hok a p' (htaken hrecord)
  all_goals cases hy

theorem ensures_taker_call {c : Call} (hc : c.isSubmission = true)
    {ok : c.Answer → σ → Unit × List Call → Prop} {err : RelayError → σ → Unit × List Call → Prop}
    (hok : ∀ a p', headerCount p'.2 = headerCount p.2 + c.carried → ok a s p')
    (herr : ∀ x p', headerCount p.2 ≤ headerCount p'.2 → err x s p') :
    (Cycle.call .submit c : Cycle σ c.Answer).Ensures ((Conduct.takers gives).failing True) s p ok err := by
  have houtcome : (Cycle.outcome .submit c : Cycle σ (Relayed c.Answer)).Ensures
      ((Conduct.takers gives).failing True) s p (fun r s' p' => Cycle.ends ok err (r, s') p') err :=
    ensures_taker_submission hc hok herr
  obtain ⟨hatt, hans⟩ := Cycle.ensures_outcome.mp houtcome
  exact Cycle.ensures_call.mpr ⟨hatt, fun a => hans (.ok a), fun x => hans (.error x)⟩

end Rules

/-! ## Cycles that account for what they submit -/

/-- From `p` on as many headers were taken as `report'` has more than `report`. -/
def Adds (p : Unit × List Call) (report report' : Report) (p' : Unit × List Call) : Prop :=
  headerCount p'.2 + report.submitted = headerCount p.2 + report'.submitted

theorem Adds.trans {p p₁ p' : Unit × List Call} {report report₁ report' : Report} (h : Adds p report report₁ p₁)
    (h' : Adds p₁ report₁ report' p') : Adds p report report' p' := by
  unfold Adds at *
  omega

/-- A cycle that ends well reports the headers that were taken from it. -/
def Cycle.Accounts (gives : (c : Call) → Relayed c.Answer → Prop) (x : Cycle σ Report) : Prop :=
  ∀ s p, x.Ensures ((Conduct.takers gives).failing True) s p
    (fun report _ p' => headerCount p'.2 = headerCount p.2 + report.submitted)
    fun _ _ p' => headerCount p.2 ≤ headerCount p'.2

/-- How many headers the contracts have taken, in a world and an engine's state. -/
def acceptedBy (taken : τ → List Call) (s : World τ × σ) : Nat := headerCount (taken s.1.peers)

/-- **Timed cycles.** In time, too, such a cycle reports what was taken from it. -/
theorem Cycle.Accounts.reports {gives : (c : Call) → Relayed c.Answer → Prop} {x : Cycle σ Report}
    (hx : x.Accounts gives) {H : Handler τ} {taken : τ → List Call}
    (hH : (Conduct.takers gives).Governs H fun w p => taken w.peers = p.2) (name : String) (followed : Nat)
    (policy : Policy) : (Strategy.ofCycle name followed policy H x).Reports (acceptedBy taken) := by
  have hends : ∀ {start : Nat} {s : World τ × σ} {r : Relayed Report},
      ((Strategy.ofCycle name followed policy H x).cycle start s).1.ending = .finished r →
      ∃ s' w', ((Strategy.ofCycle name followed policy H x).cycle start s).2 = (w', s') ∧
        Cycle.ends (fun report _ p' => headerCount p'.2 = acceptedBy taken s + report.submitted)
          (fun _ _ p' => acceptedBy taken s ≤ headerCount p'.2) (r, s') ((), taken w'.peers) := by
    rintro start ⟨w, s⟩ r h
    dsimp only [Strategy.ofCycle] at h ⊢
    split at h
    · rename_i r' s' w' hrun
      cases h
      have hkept : taken ({ w with now := start } : World τ).peers = ((), taken w.peers).2 := rfl
      obtain ⟨⟨_, l⟩, hruns, rfl⟩ := hH.runs (hx s _) hkept hrun
      exact ⟨s', w', rfl, (hx s _).of_runs hruns⟩
    · cases h
  constructor
  · intro start s report h
    obtain ⟨s', w', hcycle, hend⟩ := hends h
    rw [hcycle]
    exact hend
  · intro start s e h
    obtain ⟨s', w', hcycle, hend⟩ := hends h
    rw [hcycle]
    exact hend

namespace Sync

variable {gives : (c : Call) → Relayed c.Answer → Prop} {p : Unit × List Call}

/-! ### The Bitcoin engine -/

namespace Bitcoin

variable {config : Config} {s : State}

theorem adds_submitAll {batches : List (Batch HeaderRelay.Bitcoin.Header)} {gas : Option Nat} {report : Report} :
    (submitAll config batches gas report : Cycle State Report).Ensures ((Conduct.takers gives).failing True) s p
      (fun report' _ p' => Adds p report report' p') fun _ _ p' => headerCount p.2 ≤ headerCount p'.2 := by
  induction batches generalizing gas report p with
  | nil => exact rfl
  | cons b rest ih =>
    refine Cycle.ensures_bind.mpr (ensures_taker_submission rfl (fun r p₁ htaken => ?_) fun x p₁ hkept => hkept)
    have hone : Adds p report ⟨report.engine, report.submitted + b.headers.length, report.batches + 1,
        report.checkedHeight⟩ p₁ := by
      have hcarried : headerCount p₁.2 = headerCount p.2 + b.headers.length := htaken
      simp only [Adds, hcarried]
      omega
    refine Cycle.ensures_bind.mpr (Cycle.ensures_log.mpr (Cycle.Ensures.mono ih ?_ ?_))
    · exact fun report' _ p' hrest => hone.trans hrest
    · intro x _ p' hkept
      have hmore : headerCount p.2 ≤ headerCount p₁.2 := by
        rw [htaken]
        exact Nat.le_add_right ..
      exact Nat.le_trans hmore hkept

theorem everyone_findGap :
    (findGap config : Cycle State (Option Gap)).Ensures (Conduct.everyone.asking fun c => c.isSubmission = false) s ()
      (fun _ _ _ => True) fun _ _ _ => True :=
  Cycle.Ensures.mono (walked_findGap.asking fun _ _ _ h => h) (fun _ _ _ _ => trivial) fun _ _ _ _ => trivial

theorem accounts_runCycle : (runCycle config).Accounts gives := by
  intro s p
  refine Cycle.ensures_bind.mpr (Cycle.ensures_log.mpr (Cycle.ensures_bind.mpr
    (everyone_findGap.beside (fun _ h => h) fun found s _ => ?_)))
  cases found with
  | none => exact rfl
  | some gap =>
    refine Cycle.ensures_bind.mpr ?_
    cases hbatches : batchesOf gap.headers gap.tipHeight config.batchSize with
    | error x => exact Nat.le_refl _
    | ok batches =>
      refine Cycle.ensures_bind.mpr (everyone_firstGas.beside (fun _ h => h.1) fun gas s _ => ?_)
      refine Cycle.ensures_bind.mpr (Cycle.ensures_get.mpr (Cycle.ensures_bind.mpr ?_))
      exact Cycle.Ensures.mono adds_submitAll (fun _ _ _ hadds => hadds) fun _ _ _ h => h

end Bitcoin

/-! ### The sequential engine -/

namespace Sequential

open Consensus (Header LightBlock)

variable {s : State Header}

theorem everyone_lightBlockOf {header : Header} :
    (lightBlockOf header : Step LightBlock).Ensures (Conduct.everyone.asking fun c => c.isSubmission = false) s ()
      (fun _ s' _ => s' = s) fun _ _ _ => True :=
  Cycle.Ensures.mono (ensures_lightBlockOf_reads (fun _ _ => ⟨trivial, rfl⟩) fun _ _ => ⟨trivial, rfl⟩)
    (fun _ _ _ h => h.1.1) fun _ _ _ _ => trivial

theorem ensures_submitHeader_taken {height : Nat} {header last : Header} :
    (submitHeader height header last).Ensures ((Conduct.takers gives).failing True) s p
      (fun _ _ p' => headerCount p'.2 = headerCount p.2 + 1) fun _ _ p' => headerCount p.2 ≤ headerCount p'.2 := by
  refine Cycle.ensures_bind.mpr (everyone_lightBlockOf.beside (fun _ h => h) fun block s _ => ?_)
  exact Cycle.ensures_bind.mpr (ensures_taker_call rfl (fun response p' htaken => htaken) fun x p' hkept => hkept)

theorem adds_examine {count height : Nat} {last : Header} {report : Report} :
    (examine count height last report).Ensures ((Conduct.takers gives).failing True) s p
      (fun report' _ p' => Adds p report report' p') fun _ _ p' => headerCount p.2 ≤ headerCount p'.2 := by
  induction count generalizing height last report s p with
  | zero => exact rfl
  | succ count ih =>
    refine Cycle.ensures_bind.mpr (ensures_taker_read rfl (fun header _ => ?_) fun _ => Nat.le_refl _)
    refine Cycle.ensures_bind.mpr (Cycle.ensures_get.mpr (Cycle.ensures_ite (fun _ => ?_) fun _ => ih))
    refine Cycle.ensures_bind.mpr (Cycle.Ensures.mono ensures_submitHeader_taken ?_ fun _ _ _ h => h)
    intro _ s₁ p₁ htaken
    refine Cycle.Ensures.mono ih (fun report' _ p' hrest => ?_) fun x _ p' hkept => ?_
    · refine Adds.trans ?_ hrest
      simp only [Adds, htaken]
      omega
    · exact Nat.le_trans (htaken ▸ Nat.le_add_right ..) hkept

theorem accounts_runCycle : runCycle.Accounts gives := by
  intro s p
  refine Cycle.ensures_bind.mpr (everyone_trustedHeader.beside (fun _ h => h.1) fun last s _ => ?_)
  refine Cycle.ensures_bind.mpr (ensures_taker_read rfl (fun (top : Nat) _ => ?_) fun _ => Nat.le_refl _)
  refine Cycle.ensures_bind.mpr (ensures_taker_read rfl (fun best _ => ?_) fun _ => Nat.le_refl _)
  refine Cycle.ensures_bind.mpr (Cycle.ensures_bind.mpr (Cycle.ensures_bind.mpr (Cycle.ensures_bind.mpr ?_)))
  exact Cycle.Ensures.mono adds_examine (fun _ _ _ hadds => hadds) fun _ _ _ h => h

end Sequential

/-! ### The batched engine -/

namespace Batched

open Consensus (Header LightBlock ChainEntry)

variable {s : State Header} {size : Nat}

/-- As many entries are taken as headers leave the queue, if each block is attested by one. -/
theorem ensures_sendBatch_taken {prev : Header} :
    (sendBatch size prev).Ensures ((Conduct.takers Call.Entrywise).failing True) s p
      (fun _ s' p' => headerCount p'.2 = headerCount p.2 + (s.pending.length - s'.pending.length))
      fun _ _ p' => headerCount p.2 ≤ headerCount p'.2 := by
  have hreads : (lightBlocksOf (s.pending.take size)).Ensures
      (Conduct.everyone.asking fun c => c.isSubmission = false) s () _ _ :=
    ensures_lightBlocksOf_reads (fun _ _ => ⟨trivial, rfl⟩) fun _ _ => ⟨trivial, rfl⟩
  refine Cycle.ensures_bind.mpr (Cycle.ensures_get.mpr (Cycle.ensures_bind.mpr
    (hreads.beside (fun _ h => h) fun blocks s' hread => ?_)))
  obtain ⟨⟨hstays, -⟩, hblocks⟩ := hread
  obtain rfl : s = s' := hstays.symm
  refine Cycle.ensures_bind.mpr (ensures_taker_read rfl (fun chain hchain => ?_) fun _ => Nat.le_refl _)
  have hlength : (show List ChainEntry from chain).length = (s.pending.take size).length := by
    rw [← hblocks, List.length_map]
    exact hchain
  dsimp only
  split
  · refine Cycle.ensures_ite (fun _ => Nat.le_refl _) fun _ => ?_
    refine Cycle.ensures_bind.mpr (ensures_taker_submission rfl (fun response p' htaken => ?_) fun x p' hkept => hkept)
    have hentries : headerCount p'.2 = headerCount p.2 + (s.pending.take size).length := hlength ▸ htaken
    show headerCount p'.2 = headerCount p.2 + (s.pending.length - (s.pending.drop (s.pending.take size).length).length)
    rw [hentries, List.length_drop, Nat.sub_sub_self (List.length_take_le' ..)]
  · exact Nat.le_refl _

theorem adds_sendBatches {count : Nat} {prev : Header} {report : Report} :
    (sendBatches size count prev report).Ensures ((Conduct.takers Call.Entrywise).failing True) s p
      (fun report' _ p' => Adds p report report' p') fun _ _ p' => headerCount p.2 ≤ headerCount p'.2 := by
  induction count generalizing prev report s p with
  | zero => exact rfl
  | succ count ih =>
    refine Cycle.ensures_bind.mpr (Cycle.ensures_get.mpr (Cycle.ensures_bind.mpr
      (Cycle.Ensures.mono ensures_sendBatch_taken ?_ fun _ _ _ h => h)))
    intro tip s₁ p₁ htaken
    refine Cycle.ensures_bind.mpr (Cycle.ensures_get.mpr (Cycle.ensures_bind.mpr (Cycle.ensures_modify.mpr ?_)))
    refine Cycle.Ensures.mono ih (fun report' _ p' hrest => ?_) fun x _ p' hkept => ?_
    · refine Adds.trans ?_ hrest
      simp only [Adds, htaken]
      omega
    · exact Nat.le_trans (htaken ▸ Nat.le_add_right ..) hkept

theorem accounts_runCycle {batchSize : Nat} : (runCycle batchSize).Accounts Call.Entrywise := by
  intro s p
  have hprepares : ∀ c, Prepares c → c.isSubmission = false := fun _ h => h.1
  refine Cycle.ensures_bind.mpr (everyone_storedHeader.beside hprepares fun relayBest s _ => ?_)
  refine Cycle.ensures_bind.mpr (everyone_dropStored.beside hprepares fun _ s _ => ?_)
  refine Cycle.ensures_bind.mpr (ensures_taker_read rfl (fun (top : Nat) _ => ?_) fun _ => Nat.le_refl _)
  refine Cycle.ensures_bind.mpr (ensures_taker_read rfl (fun best _ => ?_) fun _ => Nat.le_refl _)
  refine Cycle.ensures_bind.mpr (Cycle.ensures_bind.mpr (Cycle.ensures_bind.mpr (Cycle.ensures_bind.mpr ?_)))
  refine everyone_readHeaders.beside hprepares fun examined s _ => ?_
  refine Cycle.ensures_bind.mpr (everyone_enqueue.beside hprepares fun _ s _ => ?_)
  refine Cycle.ensures_bind.mpr (Cycle.ensures_bind.mpr (Cycle.ensures_bind.mpr ?_))
  exact Cycle.Ensures.mono adds_sendBatches (fun _ _ _ hadds => hadds) fun _ _ _ h => h

end Batched

/-! ## Tasks -/

/-- **Tasks.** In every run of a task with one of the engines, whoever the peers are and whatever fails: every cycle
that has come to an end is counted once, by its outcome, and the headers that are counted are those that the contracts
have taken, but for those that they took in failed cycles. So all are counted exactly if no failed cycle has had
anything taken. For the batched engine, the light client answers with an entry for each block. -/
theorem accepted_headers_counted {H : Handler τ} {taken : τ → List Call} (hH : H.Records taken) (followed : Nat)
    (policy : Policy) :
    (∀ config, (Strategy.ofCycle Bitcoin.engine followed policy H (Bitcoin.runCycle config)).Counts
      (acceptedBy taken)) ∧
    (Strategy.ofCycle Sequential.engine followed policy H Sequential.runCycle).Counts (acceptedBy taken) ∧
    ((∀ c deadline w r w', H c deadline w = (.done r, w') → c.Entrywise r) → ∀ batchSize,
      (Strategy.ofCycle Batched.engine followed policy H (Batched.runCycle batchSize)).Counts (acceptedBy taken)) := by
  refine ⟨fun config => ?_, ?_, fun hentrywise batchSize => ?_⟩
  · exact (Bitcoin.accounts_runCycle.reports hH _ followed policy).counts
  · exact (Sequential.accounts_runCycle.reports hH _ followed policy).counts
  · have hgoverns := hH.giving (fun h => hentrywise _ _ _ _ _ h) fun r hsub => Call.entrywise_of_submission hsub r
    exact (Batched.accounts_runCycle.reports hgoverns _ followed policy).counts

/-! ## A cycle that is interrupted -/

/-- Contracts that trust the header at height 1, verify and take everything, and a node at height 12 that has the
headers which `serves` says. -/
def partialPeers (serves : Nat → Bool) : (c : Call) → Option (Relayed c.Answer)
  | .consensusNode .latestHeight => some (.ok (12 : Nat))
  | .consensusNode (.header height) =>
    some (if serves height then .ok (plainChain height) else .error (.invalidMessage "no such block"))
  | .consensusNode (.headerByHash _) => some (.ok (plainChain 1))
  | .consensusNode (.commit height) => some (.ok (⟨height, 0, (plainChain height).hash, []⟩ : Consensus.Commit))
  | .consensusNode (.validatorSet _) => some (.ok (⟨[]⟩ : Consensus.ValidatorSet))
  | .consensusClient .bestCommittedHash => some (.ok (plainChain 1).hash)
  | .consensusClient .currentHeight => some (.ok (1 : Nat))
  | .consensusClient (.submitLightBlocks ..) => some (.ok (⟨"", 0, "", 0, 0⟩ : Channel.Response))
  | .consensusClient (.verifyLightBlocks _ blocks) => some (.ok (blocks.map fun b => b.header.entry))
  | .relayStore .bestHeight => some (.ok (1 : Nat))
  | .relayStore .bestHash => some (.ok (plainChain 1).hash)
  | .relayStore (.submitHashChain _) => some (.ok (⟨"", 0, "", 0, 0⟩ : Channel.Response))
  | _ => none

theorem entrywise_partialPeers {serves : Nat → Bool} {c : Call} {r : Relayed c.Answer}
    (h : partialPeers serves c = some r) : c.Entrywise r := by
  unfold Call.Entrywise
  split
  · cases h
    exact List.length_map ..
  · trivial

/-- A world of these peers with a record of the calls, and an engine. -/
abbrev PartialState : Type := World (Unit × List (Exchange Unit)) × State Consensus.Header

/-- A task of an engine against these peers, with its first cycle at time zero. -/
def partialTask (name : String) (x : Cycle (State Consensus.Header) Report) (serves : Nat → Bool) :
    Schedule.Task PartialState where
  strategy := .ofCycle name 3 ⟨1000, 3, 10⟩ (Handler.scripted (partialPeers serves)).recorded x
  state := (.start ((), []), State.fresh 5)
  delay := 1000
  start := .first
  flag := .lowered

def takenSoFar : PartialState → Nat := acceptedBy fun p => takenIn p.2

/-- The first cycles against a node that has all headers are counted with the two headers that were taken in each. -/
theorem full_cycles_counted :
    ((partialTask Sequential.engine Sequential.runCycle fun _ => true).Counted takenSoFar ⟨1, 0⟩ ∧
      (partialTask Batched.engine (Batched.runCycle 2) fun _ => true).Counted takenSoFar ⟨1, 0⟩) ∧
    ((partialTask Sequential.engine Sequential.runCycle fun _ => true).metrics ⟨1, 0⟩).headers Sequential.engine = 2 ∧
    ((partialTask Batched.engine (Batched.runCycle 2) fun _ => true).metrics ⟨1, 0⟩).headers Batched.engine = 2 ∧
    takenSoFar ((partialTask Batched.engine (Batched.runCycle 2) fun _ => true).stateAt ⟨1, 0⟩) = 2 := by
  obtain ⟨-, hsequential, hbatched⟩ := accepted_headers_counted
    (Handler.scripted (partialPeers fun _ => true)).records_recorded 3 ⟨1000, 3, 10⟩
  refine ⟨⟨hsequential _ _ _ _ _, hbatched ?_ 2 _ _ _ _ _⟩, by decide +kernel, by decide +kernel, by decide +kernel⟩
  intro c deadline w r w' h
  obtain ⟨after, hanswered, -⟩ := Handler.recorded_cases h
  exact entrywise_partialPeers (Handler.scripted_done hanswered)

/-- **A cycle that fails.** The node does not have the header at height 8: when the sequential engine's cycle ends with
this error, the contract has taken the block at height 6, and the metrics do not count it. -/
theorem failed_cycle_uncounted :
    let task := partialTask Sequential.engine Sequential.runCycle (· ≠ 8)
    (task.metrics ⟨1, 0⟩).cycles Sequential.engine false = 1 ∧
      (task.metrics ⟨1, 0⟩).headers Sequential.engine = 0 ∧
      takenSoFar task.state = 0 ∧ takenSoFar (task.stateAt ⟨1, 0⟩) = 1 := by
  decide +kernel

end Sync

end HeaderRelay
