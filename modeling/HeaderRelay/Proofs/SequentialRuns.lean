import HeaderRelay.Proofs.SequentialSync

/-!
# Aborted cycles of the sequential engine

A cycle that fails leaves the light client with the first of the heights that it had selected, and the engine
with a checked height that has not moved. The next cycle therefore starts above what the light client trusts,
and what it selects completes the selection (`dueBelow_resume`). So cycles that fail anywhere, whether or not
the submission that failed was taken, and a last one that does not, submit together what a single selection
submits (`aborted_cycles_lose_nothing`).
-/
namespace HeaderRelay.Sync.Sequential

open Consensus (Header Commit ValidatorSet LightBlock)
open Peer (Call Conduct)

/-! ## A node with one commit and one validator set per height -/

/-- The answers of a node that has one commit and one validator set for each height. -/
def ownAnswers (commit : Nat → Commit) (validators : Nat → ValidatorSet) :
    (c : Call) → Relayed c.Answer → Prop
  | .consensusNode (.commit height), r => ∀ a, r = .ok a → a = commit height
  | .consensusNode (.validatorSet height), r => ∀ a, r = .ok a → a = validators height
  | _, _ => True

def fixedPeers (chain : Nat → Header) (knows : Nat → Prop) (top : Nat) (commit : Nat → Commit)
    (validators : Nat → ValidatorSet) : Conduct ConsensusPeers :=
  (consensusPeers chain knows (· = top)).giving (ownAnswers commit validators)

/-- The submissions of headers one by one, each with its own commit and validator set and after the header
before it. -/
def submissionsOf (commit : Nat → Commit) (validators : Nat → ValidatorSet) :
    (prev : Header) → List Header → List Call
  | _, [] => []
  | prev, h :: rest =>
    .consensusClient (.submitLightBlocks prev [⟨⟨h, commit h.height⟩, validators h.height⟩]) ::
      submissionsOf commit validators h rest

variable {chain : Nat → Header} {knows : Nat → Prop} {m top t : Nat} {commit : Nat → Commit}
  {validators : Nat → ValidatorSet} {s : State Header} {e₀ : ConsensusPeers}
  {p p' : ConsensusPeers × List Call}

theorem Own.eq (hheight : ∀ h, (chain h).height = h) {height : Nat} {b : LightBlock}
    (h : Own chain (ownAnswers commit validators) height b) :
    b = ⟨⟨chain height, commit (chain height).height⟩, validators (chain height).height⟩ := by
  obtain ⟨⟨header, votes⟩, set⟩ := b
  obtain ⟨hheader, hcommit, hvalidators⟩ := h
  obtain rfl : header = chain height := hheader
  obtain rfl : votes = commit height := hcommit votes rfl
  obtain rfl : set = validators height := hvalidators set rfl
  rw [hheight]

theorem Accepts.record (hheight : ∀ h, (chain h).height = h) {last : Nat} {heights : List Nat}
    (h : Accepts chain (ownAnswers commit validators) last heights p p') :
    p'.2 = p.2 ++ submissionsOf commit validators (chain last) (heights.map chain) := by
  induction heights generalizing last p with
  | nil =>
    obtain rfl : p' = p := h
    exact (List.append_nil _).symm
  | cons height heights ih =>
    obtain ⟨b, hb, h⟩ := h
    rw [ih h, hb.eq hheight, List.append_assoc]
    rfl

/-! ## Cycles that fail -/

/-- Between cycles of which all have failed, the light client has accepted the first of the heights that are
due, and the engine has not moved its checked height. -/
structure Halfway (chain : Nat → Header) (own : (c : Call) → Relayed c.Answer → Prop) (m top t : Nat)
    (e₀ : ConsensusPeers) (s : State Header) (p : ConsensusPeers × List Call) : Prop where
  remembers : Remembers chain m 0 s
  accepted : ∃ accepted, accepted <+: dueBelow chain m top t ∧ Accepts chain own t accepted (e₀, []) p

theorem last_of_prefix_dueBelow {accepted : List Nat} (htop : t ≤ top)
    (h : accepted <+: dueBelow chain m top t) :
    t ≤ accepted.getLast?.getD t ∧ accepted.getLast?.getD t ≤ top := by
  cases hlast : accepted.getLast? with
  | none => exact ⟨Nat.le_refl t, htop⟩
  | some x =>
    have hmem := (due_sublist _ t).subset (h.subset (List.mem_of_getLast? hlast))
    have := List.mem_range'_1.mp hmem
    simp only [Option.getD_some]
    omega

/-- A cycle from there accepts the rest of what is due, or some of it. -/
theorem ensures_cycle_of_halfway {own : (c : Call) → Relayed c.Answer → Prop}
    (hheight : ∀ h, (chain h).height = h) (htop : t ≤ top) (hknows : ∀ h, t ≤ h → h ≤ top → knows h)
    (hdistinct : ∀ a b, knows a → knows b → (chain a).hash = (chain b).hash → a = b)
    (htrusted : e₀.client.trusted = chain t) (h : Halfway chain own m top t e₀ s p) :
    runCycle.Ensures ((recordedPeers chain knows (· = top) own (· < top)).failing True) s p
      (fun _ s' p' => s'.checkedHeight = top ∧ Accepts chain own t (dueBelow chain m top t) (e₀, []) p')
      fun _ s' p' => Halfway chain own m top t e₀ s' p' := by
  obtain ⟨hs, accepted, hprefix, haccepted⟩ := h
  obtain ⟨hlow, hhigh⟩ := last_of_prefix_dueBelow htop hprefix
  have hresume := dueBelow_resume hprefix
  have hlast : p.1.client.trusted = chain (accepted.getLast?.getD t) := by
    rw [haccepted.peers]
    exact (ConsensusPeers.client_acceptAll chain e₀ accepted t htrusted).2
  have hlastKnown := hknows _ hlow hhigh
  refine Cycle.Ensures.mono (ensures_recordedCycle hheight hs hlast hlastKnown
    (fun h hh hhash => hdistinct h _ hh hlastKnown hhash) ?_ ?_) ?_ ?_
  · intro top' htop'
    obtain rfl : top' = top := htop'
    exact ⟨hknows top' htop (Nat.le_refl _), fun h hlo hhi => hknows h (by omega) hhi⟩
  · intro top' h htop' hlt
    obtain rfl : top' = top := htop'
    exact hlt
  · intro report s' p' hend
    obtain ⟨top', sel, rfl, hsel, haccepts, hs', -⟩ := hend
    rw [Nat.zero_max] at hsel hs'
    refine ⟨hs'.checked, ?_⟩
    rw [hresume, dueBelow, ← hsel]
    exact haccepted.append haccepts
  · intro x s' p' hend
    obtain ⟨-, hs', rfl | ⟨top', more, rfl, hmore, haccepts⟩⟩ := hend
    · exact ⟨hs', accepted, hprefix, haccepted⟩
    · rw [Nat.zero_max] at hmore
      refine ⟨hs', accepted ++ more, ?_, haccepted.append haccepts⟩
      rw [hresume]
      exact List.prefix_append_right_inj accepted |>.mpr hmore

/-- **Aborted cycles.** Cycles of a fresh engine that fail, at whatever call, leave the checked height where it
was, and none asks for a commit at the network height or above. With a last one that ends well the light
client has accepted what the rule selects in one go from the headers above the trusted one and below the
network height: each header once, in order, after the one before it and with its own commit and validator
set. -/
theorem aborted_cycles_lose_nothing (hheight : ∀ h, (chain h).height = h) (htop : t ≤ top)
    (hknows : ∀ h, t ≤ h → h ≤ top → knows h)
    (hdistinct : ∀ a b, knows a → knows b → (chain a).hash = (chain b).hash → a = b)
    (htrusted : e₀.client.trusted = chain t)
    (h : Cycle.Aborted ((fixedPeers chain knows top commit validators).recording.failing True) runCycle
      (State.fresh m) (e₀, []) s p) :
    s.checkedHeight = 0 ∧
      runCycle.Asks ((fixedPeers chain knows top commit validators).recording.failing True)
        (commitsAt (· < top)) s p ∧
      ∀ report s' p',
        (runCycle.start s).Runs ((fixedPeers chain knows top commit validators).recording.failing True) p
          (.ok report, s') p' →
        ∃ selected, selected = dueHeaders m ((List.range' (t + 1) (top - (t + 1))).map chain) (chain t) ∧
          p'.2 = submissionsOf commit validators (chain t) selected ∧
          p'.1.client.submissions = e₀.client.submissions ++ selected.map (fun h => [h.height]) ∧
          s'.checkedHeight = top := by
  have hcycle : ∀ s p, Halfway chain (ownAnswers commit validators) m top t e₀ s p → _ := fun s p =>
    ensures_cycle_of_halfway hheight htop hknows hdistinct htrusted
  have hhalf : Halfway chain (ownAnswers commit validators) m top t e₀ s p :=
    h.keeps ⟨Remembers.fresh chain m, [], List.nil_prefix, rfl⟩ fun s p hp => (hcycle s p hp).of_asking
  refine ⟨hhalf.remembers.checked, ?_, ?_⟩
  · exact Cycle.Ensures.mono (hcycle s p hhalf) (fun _ _ _ _ => trivial) fun _ _ _ _ => trivial
  intro report s' p' hrun
  obtain ⟨hchecked, haccepts⟩ := (hcycle s p hhalf).of_asking.of_runs hrun
  refine ⟨_, rfl, ?_, ?_, hchecked⟩
  · rw [dueHeaders_map]
    exact haccepts.record hheight
  · rw [haccepts.peers, (ConsensusPeers.client_acceptAll chain e₀ _ t htrusted).1, dueHeaders_map]
    congr 1
    simp only [dueBelow, List.map_map]
    exact List.map_congr_left fun h _ => congrArg ([·]) (hheight h).symm

/-! ## The simulated node -/

def servedCommit (h : Header) : Commit :=
  ⟨h.height, 0, h.hash, [⟨h.validatorsHash.bytes.take 20, h.hash.bytes, h.height⟩]⟩

def servedValidators (h : Header) : ValidatorSet :=
  ⟨[⟨h.validatorsHash.bytes.take 20, h.validatorsHash.bytes, 10⟩]⟩

theorem ownAnswers_of_serve (hheight : ∀ h, (chain h).height = h) {low : Nat} {n n' : Sim.Network}
    {c : Call} {r : Relayed c.Answer} (hn : HonestPeers chain low top n e₀) (h : n.serve c = (some r, n')) :
    ownAnswers (fun h => servedCommit (chain h)) (fun h => servedValidators (chain h)) c r := by
  have hheader : ∀ height x, n.consensusNode.headerAt height = .ok x → x = chain height := by
    intro height x hx
    have hserved := (hn.node.headerAt hheight height).1
    rw [hx] at hserved
    exact hserved
  cases c with
  | consensusNode c =>
    cases c with
    | commit height =>
      intro a ha
      have h : n.consensusNode.commit height = r := Option.some.inj (congrArg Prod.fst h)
      rw [ha, Sim.ConsensusNode.commit] at h
      cases hx : n.consensusNode.headerAt height with
      | error x => rw [hx] at h; cases h
      | ok x =>
        cases hy : n.consensusNode.headerAt (height + 1) with
        | error y => rw [hx, hy] at h; cases h
        | ok y =>
          rw [hx, hy] at h
          obtain rfl := hheader height x hx
          cases h
          simp only [servedCommit, hheight]
          rfl
    | validatorSet height =>
      intro a ha
      have h : n.consensusNode.validatorSet height = r := Option.some.inj (congrArg Prod.fst h)
      rw [ha, Sim.ConsensusNode.validatorSet] at h
      cases hx : n.consensusNode.headerAt height with
      | error x => rw [hx] at h; cases h
      | ok x =>
        rw [hx] at h
        obtain rfl := hheader height x hx
        cases h
        rfl
    | _ => exact trivial
  | _ => exact trivial

def servedPeers (chain : Nat → Header) (low top : Nat) : Conduct ConsensusPeers :=
  fixedPeers chain (fun h => low ≤ h ∧ h ≤ top) top (fun h => servedCommit (chain h))
    fun h => servedValidators (chain h)

theorem governs_servedPeers (hheight : ∀ h, (chain h).height = h) (low top : Nat) :
    (servedPeers chain low top).Governs Sim.Network.handler
      fun w e => HonestPeers chain low top w.peers e := by
  refine ((embodies_consensusPeers hheight).giving (ownAnswers_of_serve hheight)).governs ?_ ?_ ?_
  · intro e op seconds
    simp [Conduct.giving, consensusPeers, ConsensusPeers.hear, queuedHeight?, Retry.pausing]
  · intro e op attempts x
    simp [Conduct.giving, consensusPeers, ConsensusPeers.hear, queuedHeight?, Retry.exhausted]
  · intro e op attempt delay x
    simp [Conduct.giving, consensusPeers, ConsensusPeers.hear, queuedHeight?, Retry.failed]

/-- At network height 7 and with a largest gap of 2, the answer to the submission of height 3 is lost. The
cycle after that starts above 3 and submits 5. -/
theorem lost_answer_not_repeated :
    ∃ s p report s' p',
      Cycle.Aborted ((servedPeers plainChain 1 7).recording.failing True) runCycle (State.fresh 2)
        (⟨.trusting (plainChain 1), .holding (plainChain 1).entry, []⟩, []) s p ∧
      p.1.client.submissions = [[3]] ∧ s.checkedHeight = 0 ∧
      (runCycle.start s).Runs ((servedPeers plainChain 1 7).recording.failing True) p (.ok report, s') p' ∧
      p'.2 = submissionsOf (fun h => servedCommit (plainChain h)) (fun h => servedValidators (plainChain h))
        (plainChain 1) [plainChain 3, plainChain 5] ∧
      p'.1.client.submissions = [[3], [5]] ∧ s'.checkedHeight = 7 := by
  have hpeers : HonestPeers plainChain 1 7 (grow plainChain 7 plainPeers)
      ⟨.trusting (plainChain 1), .holding (plainChain 1).entry, []⟩ :=
    ⟨(plainPeers_honest []).toSided.grow (fun _ => rfl) (by decide), rfl⟩
  have hdistinct : ∀ a b, 1 ≤ a ∧ a ≤ 7 → 1 ≤ b ∧ b ≤ 7 → (plainChain a).hash = (plainChain b).hash → a = b :=
    fun a b ha hb h => plainChain_distinct (by omega) (by omega) h
  have hleft : (Sim.Network.lostThenSound 1 ⟨10, 1, 1⟩ runCycle (State.fresh 2)
      (World.start (grow plainChain 7 plainPeers))).map
        (fun q => q.1.2.peers.consensusClient.submissions) = some [[3]] := by decide +kernel
  obtain ⟨⟨⟨s, w⟩, s', w'⟩, hrun, hsubmissions⟩ := Option.map_eq_some_iff.mp hleft
  have hgoverns : (servedPeers plainChain 1 7).Governs Sim.Network.handler _ :=
    governs_servedPeers (fun _ => rfl) 1 7
  obtain ⟨p, report, p', haborted, hw, hsound, hw'⟩ := hgoverns.lostThenSound
    (I := Halfway plainChain _ 2 7 1 ⟨.trusting (plainChain 1), .holding (plainChain 1).entry, []⟩)
    ⟨Remembers.fresh plainChain 2, [], List.nil_prefix, rfl⟩
    (fun s p hp => Cycle.Ensures.mono (ensures_cycle_of_halfway (fun _ => rfl) (by decide)
      (fun h hlo hhi => ⟨hlo, hhi⟩) hdistinct rfl hp).of_asking (fun _ _ _ _ => trivial) fun _ _ _ h => h)
    hpeers hrun
  obtain ⟨hchecked, -, hresumed⟩ := aborted_cycles_lose_nothing (fun _ => rfl) (by decide)
    (fun h hlo hhi => ⟨hlo, hhi⟩) hdistinct rfl haborted
  obtain ⟨selected, hselected, hrecord, hall, hdone⟩ := hresumed report s' p' hsound
  have hdue : dueHeaders 2 ((List.range' (1 + 1) (7 - (1 + 1))).map plainChain) (plainChain 1) =
      [plainChain 3, plainChain 5] := by decide
  rw [hdue] at hselected
  subst hselected
  obtain ⟨verifications, hclient⟩ := hw.client
  rw [hclient] at hsubmissions
  exact ⟨s, p, report, s', p', haborted, hsubmissions, hchecked, hsound, hrecord, hall, hdone⟩

end HeaderRelay.Sync.Sequential
