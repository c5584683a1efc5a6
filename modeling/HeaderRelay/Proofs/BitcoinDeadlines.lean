import HeaderRelay.Proofs.BitcoinSync
import HeaderRelay.Proofs.BoundedCalls

/-!
# Cycles that wait

Every call of a Bitcoin cycle has a deadline but one: the last submission's gas is asked for directly, once there is
something to submit and no fixed gas for it (`AsksGas`). A cycle therefore comes to its end unless that call is never
answered, and a peer that never answers it holds the cycle for ever (`cycle_returns_iff`).
-/
namespace HeaderRelay.Sync.Bitcoin

open HeaderRelay.Bitcoin (Header)
open Peer (Call Conduct Handler Exchange)

variable {σ τ : Type} {config : Config}

/-! ## Calls without a deadline -/

/-- A cycle may come to ask for the gas of the last submission. -/
def AsksGas (config : Config) : Prop := config.gasLimit = none ∧ 0 < config.batchSize ∧ 0 < config.maxWalkBack

def cycleAsks (config : Config) (mode : Mode) (c : Call) : Prop :=
  mode = .direct → c = .bitcoinClient .lastSubmissionGas ∧ AsksGas config

theorem cycleAsks_read {op : String} {c : Call} : cycleAsks config (.read op) c := by
  intro h
  cases h

theorem cycleAsks_submit {c : Call} : cycleAsks config .submit c := by
  intro h
  cases h

theorem asks_read {s : τ} {op : String} {c : Call} {ok : c.Answer → τ → Unit → Prop}
    {err : RelayError → τ → Unit → Prop} (hok : ∀ a, ok a s ()) (herr : ∀ x, err x s ()) :
    (Cycle.read op c : Cycle τ c.Answer).Ensures (.anyone (cycleAsks config)) s () ok err :=
  Cycle.ensures_read.mpr ⟨cycleAsks_read, fun a _ _ => hok a, fun x _ _ => herr x⟩

theorem walkEnd_of_first {cursor contractBest : Hash} {height contractHeight : Nat} {held : Option Hash}
    {stop : WalkEnd} (hne : cursor ≠ contractBest)
    (h : walkEnd cursor height 0 contractBest contractHeight held = some stop) : stop = .alreadyHeld :=
  (stop_eq_alreadyHeld_iff (fun _ => hne) h).mpr rfl

/-- A step of a walk has something to submit only where it has gone before. -/
theorem asks_walk_step {ends : Ends} {s : τ} {height : Nat} {cursor : Hash} {trail : Trail Header}
    (hfirst : trail.size = 0 → cursor ≠ ends.contractBest) (hsize : trail.size ≤ ends.maxWalkBack)
    (hnext : trail.size < ends.maxWalkBack → ∀ (header : Header) below, height = below + 1 →
      (walk ends below header.prevHash (trail.push header) : Cycle τ (Option Gap)).Ensures
        (.anyone (cycleAsks config)) s () (fun found _ _ => found.isSome → 0 < ends.maxWalkBack) fun _ _ _ => True) :
    (walk ends height cursor trail : Cycle τ (Option Gap)).Ensures (.anyone (cycleAsks config)) s ()
      (fun found _ _ => found.isSome → 0 < ends.maxWalkBack) fun _ _ _ => True := by
  have hheld : (contractAt ends height : Cycle τ (Option Hash)).Ensures (.anyone (cycleAsks config)) s ()
      (fun _ s' _ => s' = s) fun _ _ _ => True :=
    Cycle.ensures_ite (fun _ => asks_read (fun _ => rfl) fun _ => trivial) fun _ => rfl
  unfold walk
  refine Cycle.ensures_bind.mpr (Cycle.Ensures.mono hheld (fun held s₁ _ hs => ?_) fun _ _ _ h => h)
  subst hs
  cases hend : walkEnd cursor height trail.size ends.contractBest ends.contractHeight held with
  | none =>
    refine Cycle.ensures_ite (fun _ => trivial) fun hmax => ?_
    refine Cycle.ensures_bind.mpr (asks_read (fun (header : Header) => ?_) fun _ => trivial)
    cases height with
    | zero => trivial
    | succ below => exact hnext (Nat.not_le.mp hmax) header below rfl
  | some stop =>
    by_cases hzero : trail.size = 0
    · rw [hzero] at hend
      obtain rfl := walkEnd_of_first (hfirst hzero) hend
      intro h
      cases h
    · have hroom : 0 < ends.maxWalkBack := Nat.lt_of_lt_of_le (Nat.pos_of_ne_zero hzero) hsize
      cases stop with
      | alreadyHeld | linearExtension | forkConvergence => exact fun _ => hroom

theorem asks_walk {ends : Ends} {s : τ} {height : Nat} {cursor : Hash} {trail : Trail Header}
    (hfirst : trail.size = 0 → cursor ≠ ends.contractBest) (hsize : trail.size ≤ ends.maxWalkBack) :
    (walk ends height cursor trail : Cycle τ (Option Gap)).Ensures (.anyone (cycleAsks config)) s ()
      (fun found _ _ => found.isSome → 0 < ends.maxWalkBack) fun _ _ _ => True := by
  induction height generalizing cursor trail with
  | zero => exact asks_walk_step hfirst hsize fun _ _ _ h => nomatch h
  | succ below ih =>
    refine asks_walk_step hfirst hsize fun hlt header below' hbelow => ?_
    obtain rfl : below = below' := Nat.succ.inj hbelow
    exact ih (fun h => nomatch h) hlt

theorem asks_findGap {s : τ} :
    (findGap config : Cycle τ (Option Gap)).Ensures (.anyone (cycleAsks config)) s ()
      (fun found _ _ => found.isSome → 0 < config.maxWalkBack) fun _ _ _ => True := by
  refine Cycle.ensures_bind.mpr (asks_read (fun (contractBest : Hash) => ?_) fun _ => trivial)
  refine Cycle.ensures_bind.mpr (asks_read (fun contractHeight => ?_) fun _ => trivial)
  refine Cycle.ensures_bind.mpr (asks_read (fun (chainBest : Hash) => ?_) fun _ => trivial)
  refine Cycle.ensures_ite (fun _ h => by cases h) fun hne => ?_
  refine Cycle.ensures_bind.mpr (asks_read (fun chainHeight => ?_) fun _ => trivial)
  exact asks_walk (fun _ => hne) (Nat.zero_le _)

theorem asks_submitAll {s : State} {batches : List (Batch Header)} {gas : Option Nat} {report : Report} :
    (submitAll config batches gas report : Cycle State Report).Ensures (.anyone (cycleAsks config)) s ()
      (fun _ _ _ => True) fun _ _ _ => True := by
  induction batches generalizing gas report with
  | nil => trivial
  | cons b rest ih =>
    refine Cycle.ensures_bind.mpr (Cycle.ensures_outcome.mpr ⟨cycleAsks_submit, fun r _ _ => ?_⟩)
    cases r with
    | error x => trivial
    | ok r => exact ih

theorem asks_closeGap {s : State} {found : Option Gap} (hfound : found.isSome → 0 < config.maxWalkBack) :
    (closeGap config found).Ensures (.anyone (cycleAsks config)) s () (fun _ _ _ => True) fun _ _ _ => True := by
  cases found with
  | none => trivial
  | some g =>
    refine Cycle.ensures_bind.mpr ?_
    by_cases hbatch : config.batchSize = 0
    · rw [batchesOf, checkBatchSize, if_pos hbatch]
      trivial
    · rw [batchesOf, checkBatchSize, if_neg hbatch]
      have hgas : (firstGas config : Cycle State (Option Nat)).Ensures (.anyone (cycleAsks config)) s ()
          (fun _ s' _ => s' = s) fun _ _ _ => True := by
        refine Cycle.ensures_ite (fun _ => rfl) fun hnone => ?_
        have hasks : AsksGas config :=
          ⟨by simpa using hnone, Nat.pos_of_ne_zero hbatch, hfound rfl⟩
        refine Cycle.ensures_bind.mpr (Cycle.ensures_outcome.mpr ⟨fun _ => ⟨rfl, hasks⟩, fun r _ _ => ?_⟩)
        cases r with
        | error x => rfl
        | ok used => rfl
      refine Cycle.ensures_bind.mpr (Cycle.Ensures.mono hgas (fun gas s₁ _ _ => ?_) fun _ _ _ h => h)
      exact Cycle.ensures_bind.mpr (Cycle.ensures_get.mpr (Cycle.ensures_bind.mpr
        (Cycle.Ensures.mono asks_submitAll (fun _ _ _ _ => trivial) fun _ _ _ h => h)))

theorem asks_runCycle {s : State} :
    (runCycle config).Ensures (.anyone (cycleAsks config)) s () (fun _ _ _ => True) fun _ _ _ => True := by
  rw [runCycle_eq]
  refine Cycle.ensures_bind.mpr (Cycle.ensures_log.mpr (Cycle.ensures_bind.mpr ?_))
  exact Cycle.Ensures.mono asks_findGap (fun found _ _ hfound => asks_closeGap hfound) fun _ _ _ h => h

/-! ## Cycles -/

/-- The gas of the last submission was asked for and is not answered. -/
def GasStuck (record : List (Exchange σ)) : Prop :=
  ∃ e ∈ record, e.call = .bitcoinClient .lastSubmissionGas ∧ e.Stuck

/-- Whoever the peers are, if they answer each call at once or late, fail or never answer, and never ask for a pause,
a cycle in time comes to its end. -/
def AlwaysReturns (followed : Nat) (policy : Policy) (config : Config) : Prop :=
  ∀ (σ : Type) (H : Handler σ), H.Punctual → H.Unlimited →
    ∀ (s : State) (w : World (σ × List (Exchange σ))), w.record = [] →
      ∃ r w', ((runCycle config).start s).run followed policy H.recorded none w = (.done r, w')

/-- A cycle ends unless it waits for the gas of the last submission, which is its only call without a deadline. -/
theorem exists_cycle {H : Handler σ} (hH : H.Punctual) (hlimit : H.Unlimited) {followed : Nat} {policy : Policy}
    (hfollowed : policy.attempts ≤ followed) (config : Config) (s : State) {w : World (σ × List (Exchange σ))}
    (hw : w.record = []) :
    ∃ o w', ((runCycle config).start s).run followed policy H.recorded none w = (o, w') ∧
      (∀ e ∈ w'.record, e.Bounded policy.timeout ∨
        e.deadline = none ∧ e.call = .bitcoinClient .lastSubmissionGas ∧ AsksGas config) ∧
      (o = .unanswered ∧ GasStuck w'.record ∨ (∃ r, o = .done r) ∧ ¬ GasStuck w'.record) := by
  cases hrun : ((runCycle config).start s).run followed policy H.recorded none w with
  | mk o w' =>
    obtain ⟨new, hnew, hbounded, hend⟩ :=
      Program.run_recorded hH hlimit hfollowed (fun _ _ => trivial) asks_runCycle hrun
    rw [hw, List.append_nil] at hnew
    subst hnew
    refine ⟨o, w', rfl, fun e he => (hbounded e he).imp_right fun h => ⟨h.1, h.2 rfl⟩, ?_⟩
    obtain ⟨⟨r, ho, -⟩, hfree⟩ | ⟨ho, e, he, hstuck⟩ := hend
    · exact .inr ⟨⟨r, ho⟩, fun hgas => hgas.elim fun e h => hfree e h.1 h.2.2⟩
    · obtain hown | ⟨-, hdirect⟩ := hbounded e he
      · exact absurd hstuck hown.not_stuck
      · exact .inl ⟨ho, e, he, (hdirect rfl).1, hstuck⟩

/-! ## Peers that hold a cycle -/

def silentHeader : Header := ⟨.replicate 2, .replicate 1, .zero, []⟩

/-- A node that is one header ahead of its contract, and a contract that never tells the gas of its last
submission. -/
def silentPeers : (c : Call) → Option (Relayed c.Answer)
  | .bitcoinNode .bestBlockHash => some (.ok (Hash.replicate 2))
  | .bitcoinNode (.headerHeight _) => some (.ok (1 : Nat))
  | .bitcoinNode (.header _) => some (.ok silentHeader)
  | .bitcoinClient .bestHeaderHash => some (.ok (Hash.replicate 1))
  | .bitcoinClient .bestHeight => some (.ok (0 : Nat))
  | .bitcoinClient (.headerHashAt _) => some (.ok (some (Hash.replicate 1)))
  | .bitcoinClient .lastSubmissionGas => none
  | _ => some (.error (.invalidMessage "not a call of a cycle"))

theorem final_silentPeers {c : Call} {r : Relayed c.Answer} (h : silentPeers c = some r) : r.Final := by
  unfold silentPeers at h
  split at h <;> cases h <;> intro x hx <;> cases hx
  rfl

/-- What the silent contract is asked for, it is asked for directly. -/
abbrev silentConduct : Conduct Unit :=
  .stateless (fun mode c => silentPeers c = none → mode = .direct) fun c r => silentPeers c = some r

theorem silent_read {s : τ} {op : String} {c : Call} {a : c.Answer} {ok : c.Answer → τ → Unit → Prop}
    {err : RelayError → τ → Unit → Prop} (hc : silentPeers c = some (.ok a)) (hok : ok a s ()) :
    (Cycle.read op c : Cycle τ c.Answer).Ensures silentConduct s () ok err := by
  refine Cycle.ensures_read.mpr ⟨fun hnone => ?_, fun a' _ ha' => ?_, fun x _ hx => ?_⟩
  · cases hc.symm.trans hnone
  · cases hc.symm.trans ha'
    exact hok
  · cases hc.symm.trans hx

theorem silent_walk {s : τ} {max : Nat} (hmax : 0 < max) :
    (walk ⟨.replicate 1, 0, 1, max⟩ 1 (.replicate 2) .empty : Cycle τ (Option Gap)).Ensures silentConduct s ()
      (fun found s' _ => s' = s ∧ found = some ⟨0, [silentHeader]⟩) fun _ _ _ => False := by
  have habove : (contractAt ⟨.replicate 1, 0, 1, max⟩ 1 : Cycle τ (Option Hash)).Ensures silentConduct s ()
      (fun held s' _ => s' = s ∧ held = none) fun _ _ _ => False :=
    Cycle.ensures_ite (fun h => nomatch h) fun _ => ⟨rfl, rfl⟩
  have hheld : (contractAt ⟨.replicate 1, 0, 1, max⟩ 0 : Cycle τ (Option Hash)).Ensures silentConduct s ()
      (fun held s' _ => s' = s ∧ held = some (.replicate 1)) fun _ _ _ => False :=
    Cycle.ensures_ite (fun _ => silent_read (c := .bitcoinClient (.headerHashAt 0)) rfl ⟨rfl, rfl⟩)
      fun h => absurd h (by simp)
  have hgoes : walkEnd (.replicate 2) 1 0 (.replicate 1) 0 none = none := by decide
  have hmeets : walkEnd (.replicate 1) 0 1 (.replicate 1) 0 (some (.replicate 1)) = some .linearExtension := by decide
  -- from the header at height 1 to its parent, which is the contract's best
  unfold walk
  refine Cycle.ensures_bind.mpr (Cycle.Ensures.mono habove (fun held s₁ _ h => ?_) fun _ _ _ h => h)
  obtain ⟨rfl, rfl⟩ := h
  simp only [Trail.size_empty, hgoes]
  refine Cycle.ensures_ite (fun h => absurd h (Nat.not_le.mpr hmax)) fun _ => ?_
  refine Cycle.ensures_bind.mpr (silent_read (c := .bitcoinNode (.header (.replicate 2))) rfl ?_)
  unfold walk
  refine Cycle.ensures_bind.mpr (Cycle.Ensures.mono hheld (fun held s₁ _ h => ?_) fun _ _ _ h => h)
  obtain ⟨rfl, rfl⟩ := h
  simp only [Trail.size_push, Trail.size_empty, Nat.zero_add, silentHeader, hmeets]
  exact ⟨rfl, rfl⟩

theorem silent_findGap {s : τ} (hmax : 0 < config.maxWalkBack) :
    (findGap config : Cycle τ (Option Gap)).Ensures silentConduct s ()
      (fun found s' _ => s' = s ∧ found = some ⟨0, [silentHeader]⟩) fun _ _ _ => False := by
  have hne : Hash.replicate 2 ≠ Hash.replicate 1 := by decide
  refine Cycle.ensures_bind.mpr (silent_read (c := .bitcoinClient .bestHeaderHash) rfl ?_)
  refine Cycle.ensures_bind.mpr (silent_read (c := .bitcoinClient .bestHeight) rfl ?_)
  refine Cycle.ensures_bind.mpr (silent_read (c := .bitcoinNode .bestBlockHash) rfl ?_)
  refine Cycle.ensures_ite (fun heq => absurd heq hne) fun _ => ?_
  refine Cycle.ensures_bind.mpr (silent_read (c := .bitcoinNode (.headerHeight _)) rfl ?_)
  exact silent_walk hmax

theorem silent_runCycle {s : State} (h : AsksGas config) :
    (runCycle config).Ensures silentConduct s () (fun _ _ _ => False) fun _ _ _ => False := by
  obtain ⟨hgas, hbatch, hmax⟩ := h
  rw [runCycle_eq]
  refine Cycle.ensures_bind.mpr (Cycle.ensures_log.mpr (Cycle.ensures_bind.mpr ?_))
  refine Cycle.Ensures.mono (silent_findGap hmax) (fun found s₁ _ h => ?_) fun _ _ _ h => h
  obtain ⟨rfl, rfl⟩ := h
  refine Cycle.ensures_bind.mpr ?_
  rw [batchesOf, checkBatchSize, if_neg (Nat.pos_iff_ne_zero.mp hbatch)]
  refine Cycle.ensures_bind.mpr (Cycle.ensures_ite (fun hsome => ?_) fun _ => ?_)
  · rw [hgas] at hsome
    cases hsome
  · exact Cycle.ensures_bind.mpr (Cycle.ensures_outcome.mpr ⟨fun _ => rfl, fun r _ hr => by cases hr⟩)

theorem alwaysReturns_iff {followed : Nat} {policy : Policy} (hfollowed : policy.attempts ≤ followed) :
    AlwaysReturns followed policy config ↔ ¬ AsksGas config := by
  constructor
  · intro h hasks
    obtain ⟨r, w', hrun⟩ := h Unit (.scripted silentPeers) Handler.punctual_scripted
      (Handler.unlimited_scripted final_silentPeers) ⟨0⟩ ⟨0, [], 0, ((), [])⟩ rfl
    have hgives : ∀ {mode : Mode} {c : Call} {w r w'}, (silentPeers c = none → mode = .direct) →
        mode.carry followed policy ((Handler.scripted silentPeers).recorded c) none w = (.done r, w') →
        silentPeers c = some r := fun hc h => Handler.carry_scripted final_silentPeers hc h
    have hsilent : (runCycle config).Ensures silentConduct ⟨0⟩ () _ _ := silent_runCycle hasks
    obtain ⟨new, -, -, ⟨⟨a, ha, hnever⟩, -⟩ | ⟨ho, -⟩⟩ := Program.run_recorded Handler.punctual_scripted
      (Handler.unlimited_scripted final_silentPeers) hfollowed hgives hsilent hrun
    · obtain ⟨a | x, s⟩ := a <;> exact hnever
    · cases ho
  · intro hnot σ H hH hlimit s w hw
    obtain ⟨o, w', hrun, hbounded, ⟨-, e, he, -, hstuck⟩ | ⟨⟨r, rfl⟩, -⟩⟩ :=
      exists_cycle hH hlimit hfollowed config s hw
    · obtain hown | ⟨-, -, hasks⟩ := hbounded e he
      · exact absurd hstuck hown.not_stuck
      · exact absurd hasks hnot
    · exact ⟨r, w', hrun⟩

/-- **Cycles.** All calls of a cycle have a deadline of their own, but for the one that asks for the gas of the last
submission; the cycle ends exactly if that call, should it be made, is answered. And whoever the peers are, every
cycle ends exactly if the call is never made: because the gas is fixed, or because nothing is ever submitted. -/
theorem cycle_returns_iff {followed : Nat} {policy : Policy} (hfollowed : policy.attempts ≤ followed) :
    (∀ (σ : Type) (H : Handler σ), H.Punctual → H.Unlimited →
      ∀ (s : State) (w : World (σ × List (Exchange σ))), w.record = [] →
        ∃ o w', ((runCycle config).start s).run followed policy H.recorded none w = (o, w') ∧
          ((∃ r, o = .done r) ↔ ¬ GasStuck w'.record) ∧
          ∀ e ∈ w'.record, e.Bounded policy.timeout ∨
            e.deadline = none ∧ e.call = .bitcoinClient .lastSubmissionGas) ∧
    (AlwaysReturns followed policy config ↔
      config.gasLimit.isSome ∨ config.batchSize = 0 ∨ config.maxWalkBack = 0) := by
  refine ⟨fun σ H hH hlimit s w hw => ?_, ?_⟩
  · obtain ⟨o, w', hrun, hbounded, hend⟩ := exists_cycle hH hlimit hfollowed config s hw
    refine ⟨o, w', hrun, ?_, fun e he => (hbounded e he).imp_right fun h => ⟨h.1, h.2.1⟩⟩
    obtain ⟨rfl, hstuck⟩ | ⟨hdone, hfree⟩ := hend
    · simp [hstuck]
    · exact ⟨fun _ => hfree, fun _ => hdone⟩
  · rw [alwaysReturns_iff hfollowed, AsksGas]
    cases config.gasLimit with
    | none => simp; omega
    | some gas => simp

/-- With a fixed gas every cycle ends, and without one it may not. -/
theorem fixed_gas_returns :
    AlwaysReturns 2 ⟨1000, 2, 10⟩ ⟨3, 50, ⟨0⟩, some 200000⟩ ∧ ¬ AlwaysReturns 2 ⟨1000, 2, 10⟩ ⟨3, 50, ⟨0⟩, none⟩ := by
  have hfollowed : (⟨1000, 2, 10⟩ : Policy).attempts ≤ 2 := by decide
  rw [(cycle_returns_iff hfollowed).2, (cycle_returns_iff hfollowed).2]
  decide

/-- The cycle of an engine whose contract never tells the gas of its last submission has a header to submit, and
waits for ever. -/
theorem silent_contract_holds_cycle : ¬ AlwaysReturns 2 ⟨1000, 2, 10⟩ ⟨3, 50, ⟨0⟩, none⟩ := by
  intro h
  obtain ⟨r, w', hrun⟩ := h Unit (.scripted silentPeers) Handler.punctual_scripted
    (Handler.unlimited_scripted final_silentPeers) ⟨0⟩ ⟨0, [], 0, ((), [])⟩ rfl
  have hwaits : (((runCycle ⟨3, 50, ⟨0⟩, none⟩).start ⟨0⟩).run 2 ⟨1000, 2, 10⟩
      (Handler.scripted silentPeers).recorded none ⟨0, [], 0, ((), [])⟩).1.isUnanswered = true := by decide +kernel
  rw [hrun] at hwaits
  cases hwaits

end HeaderRelay.Sync.Bitcoin
