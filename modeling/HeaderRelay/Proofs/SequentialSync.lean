import HeaderRelay.Proofs.HonestPeers
import HeaderRelay.Proofs.Recording
import HeaderRelay.Proofs.Selection
import HeaderRelay.Sync.Sequential

/-!
# What the sequential engine submits

Between cycles the engine remembers the height checked last and, if it is one of the chain, the header that
the light client trusts (`Remembers`). A cycle examines the heights above both, up to and without the
network height, and submits what the rule selects one header at a time; the network height is then checked,
and so never examined.

Results:
* `ensures_examine`, `ensures_recordedCycle`: what the light client accepts in one cycle (`Accepts`), on a
  good or on a bad connection; a failure leaves it with the first of what was selected. The light blocks are
  read off the record of the submissions; `ensures_runCycle` is the same without the record.
* `exists_cyclesAt`: cycles while the chain grows accept what the rule selects from the heights `examined`.
* `timely_cycles_iff`: whether they keep the largest gap.
-/
namespace HeaderRelay.Sync

open Consensus (Header LightBlock)
open Peer (Call Conduct)

/-! ## Acceptance -/

def ConsensusPeers.accept (chain : Nat → Header) (e : ConsensusPeers) (height : Nat) : ConsensusPeers :=
  { e with client :=
    { e.client with submissions := e.client.submissions ++ [[height]], trusted := chain height } }

def ConsensusPeers.acceptAll (chain : Nat → Header) (e : ConsensusPeers) (heights : List Nat) :
    ConsensusPeers :=
  heights.foldl (accept chain) e

theorem ConsensusPeers.client_acceptAll (chain : Nat → Header) (e : ConsensusPeers) (heights : List Nat)
    (t : Nat) (ht : e.client.trusted = chain t) :
    (e.acceptAll chain heights).client.submissions = e.client.submissions ++ heights.map ([·]) ∧
      (e.acceptAll chain heights).client.trusted = chain (heights.getLast?.getD t) := by
  induction heights generalizing e t with
  | nil => exact ⟨(List.append_nil _).symm, ht⟩
  | cons h heights ih =>
    obtain ⟨hsub, htrusted⟩ := ih (e.accept chain h) h rfl
    refine ⟨?_, ?_⟩
    · show ((e.accept chain h).acceptAll chain heights).client.submissions = _
      rw [hsub]
      simp [accept]
    · show ((e.accept chain h).acceptAll chain heights).client.trusted = _
      rw [htrusted, List.getLast?_cons]
      rfl

theorem ConsensusPeers.acceptAll_append (chain : Nat → Header) (e : ConsensusPeers) (xs ys : List Nat) :
    e.acceptAll chain (xs ++ ys) = (e.acceptAll chain xs).acceptAll chain ys := List.foldl_append

namespace Sequential

variable {chain : Nat → Header} {knows tops : Nat → Prop} {faulty : Prop} {s : State Header}
  {e : ConsensusPeers}

/-- What the engine keeps between cycles over `chain`: a remembered header is the chain's. -/
structure Remembers (chain : Nat → Header) (maxInterval checked : Nat) (s : State Header) : Prop where
  maxInterval : s.maxInterval = maxInterval
  checked : s.checkedHeight = checked
  contractBest : ∀ b, s.contractBest = some b → b = chain b.height

theorem Remembers.fresh (chain : Nat → Header) (maxInterval : Nat) :
    Remembers chain maxInterval 0 (State.fresh maxInterval) := ⟨rfl, rfl, by rintro b ⟨⟩⟩

theorem Remembers.withBest {m checked height : Nat} (h : Remembers chain m checked s)
    (hheight : ∀ h, (chain h).height = h) :
    Remembers chain m checked { s with contractBest := some (chain height) } :=
  ⟨h.maxInterval, h.checked, by rintro b ⟨⟩; rw [hheight]⟩

/-! ## The peers on record -/

def commitsAt (asks : Nat → Prop) : Call → Prop
  | .consensusNode (.commit height) => asks height
  | _ => True

/-- The peers on record. The node's answers are moreover among `own`, and it is asked for commits at the
heights of `asks` only. -/
def recordedPeers (chain : Nat → Header) (knows tops : Nat → Prop)
    (own : (c : Call) → Relayed c.Answer → Prop) (asks : Nat → Prop) :
    Conduct (ConsensusPeers × List Call) :=
  ((consensusPeers chain knows tops).giving own).recording.asking (commitsAt asks)

/-- A light block of the header at a height, with a commit and a validator set of the node's. -/
structure Own (chain : Nat → Header) (own : (c : Call) → Relayed c.Answer → Prop) (height : Nat)
    (b : LightBlock) : Prop where
  header : b.header = chain height
  commit : own (.consensusNode (.commit height)) (.ok b.signedHeader.commit)
  validators : own (.consensusNode (.validatorSet height)) (.ok b.validatorSet)

/-- The light client has accepted the headers at some heights, one by one, each after the one before it and
the first after that at `last`. -/
def Accepts (chain : Nat → Header) (own : (c : Call) → Relayed c.Answer → Prop) :
    (last : Nat) → (heights : List Nat) → (p p' : ConsensusPeers × List Call) → Prop
  | _, [], p, p' => p' = p
  | last, height :: heights, p, p' =>
    ∃ b, Own chain own height b ∧
      Accepts chain own height heights
        (p.1.accept chain height, p.2 ++ [.consensusClient (.submitLightBlocks (chain last) [b])]) p'

variable {own : (c : Call) → Relayed c.Answer → Prop} {asks : Nat → Prop}
  {p p' p'' : ConsensusPeers × List Call}

theorem Accepts.peers {last : Nat} {heights : List Nat} (h : Accepts chain own last heights p p') :
    p'.1 = p.1.acceptAll chain heights := by
  induction heights generalizing last p with
  | nil => exact congrArg Prod.fst h
  | cons height heights ih =>
    obtain ⟨b, -, h⟩ := h
    exact ih h

theorem Accepts.append {last : Nat} {xs ys : List Nat} (h : Accepts chain own last xs p p')
    (h' : Accepts chain own (xs.getLast?.getD last) ys p' p'') : Accepts chain own last (xs ++ ys) p p'' := by
  induction xs generalizing last p with
  | nil =>
    obtain rfl : p' = p := h
    exact h'
  | cons x xs ih =>
    obtain ⟨b, hb, h⟩ := h
    rw [List.getLast?_cons, Option.getD_some] at h'
    exact ⟨b, hb, ih h h'⟩

theorem reads_recordedNode {c : Peer.ConsensusNode} {able : Prop} {good : c.Answer → Prop}
    (hc : ∀ op, (consensusPeers chain knows tops).attends (.read op) (.consensusNode c))
    (hasks : ∀ height, c = .commit height → asks height)
    (h : ∀ r, honestAnswer chain knows tops c r → r.Served able good) :
    (recordedPeers chain knows tops own asks).Reads (.consensusNode c) p able
      fun a => good a ∧ own (.consensusNode c) (.ok a) := by
  refine ((reads_node hc h).giving.recording rfl p.2).asking ?_
  cases c with
  | commit height => exact hasks height rfl
  | _ => exact trivial

theorem reads_recordedClient {c : Peer.ConsensusClient} {a : c.Answer}
    (hc : ∀ op, (consensusPeers chain knows tops).attends (.read op) (.consensusClient c))
    (hread : (Call.consensusClient c).isSubmission = false)
    (ha : ∀ r k', clientAnswer p.1.client c r k' → r = .ok a) :
    (recordedPeers chain knows tops own asks).Reads (.consensusClient c) p True (· = a) := by
  have hgiven : ((consensusPeers chain knows tops).giving own).Reads _ p.1 _ _ := (reads_client hc ha).giving
  exact ((hgiven.recording hread p.2).asking trivial).mono fun a h => h.1

theorem ensures_recordedHeader {σ : Type} {s : σ} {height : Nat}
    {ok : Header → σ → ConsensusPeers × List Call → Prop} {err : RelayError → σ → ConsensusPeers × List Call → Prop}
    (hknows : knows height) (hok : ok (chain height) s p) (herr : ∀ x, faulty → err x s p) :
    (readHeader height).Ensures ((recordedPeers chain knows tops own asks).failing faulty) s p ok err := by
  refine Cycle.ensures_read_failing (reads_recordedNode (fun _ => trivial) (fun _ h => nomatch h) fun _ h => h)
    ?_ fun x h => ?_
  · intro a ha
    rw [ha.1]
    exact hok
  · exact herr x (h.resolve_right (absurd hknows))

theorem ensures_recordedLog {σ : Type} {s : σ} {engine message : String} {level : Log.Level}
    {fields : List (String × Json)} {ok : Unit → σ → ConsensusPeers × List Call → Prop}
    {err : RelayError → σ → ConsensusPeers × List Call → Prop} (hmessage : message ≠ "Header queued")
    (hok : ok () s p) :
    (Cycle.log (Log.ofEngine engine level message fields) : Cycle σ Unit).Ensures
      ((recordedPeers chain knows tops own asks).failing faulty) s p ok err := by
  rw [Cycle.ensures_log]
  show ok () s (p.1.hear _, p.2)
  rwa [ConsensusPeers.hear_ofEngine hmessage]

/-! ## One cycle -/

theorem ensures_trustedHeader {m checked t : Nat} (hheight : ∀ h, (chain h).height = h)
    (hs : Remembers chain m checked s) (ht : p.1.client.trusted = chain t) (hknows : knows t)
    (hdistinct : ∀ h, knows h → (chain h).hash = (chain t).hash → h = t) :
    trustedHeader.Ensures ((recordedPeers chain knows tops own asks).failing faulty) s p
      (fun last s' p' => last = chain t ∧ Remembers chain m checked s' ∧ p' = p)
      fun _ s' p' => faulty ∧ Remembers chain m checked s' ∧ p' = p := by
  have herr : ∀ x : RelayError, faulty ∨ ¬ True → faulty ∧ Remembers chain m checked s ∧ p = p :=
    fun _ h => ⟨h.resolve_right (absurd trivial), hs, rfl⟩
  refine Cycle.ensures_bind.mpr (Cycle.ensures_read_failing (c := .consensusClient .bestCommittedHash)
    (reads_recordedClient (fun _ => trivial) rfl fun _ _ h => (Prod.mk.inj h).1.symm) ?_ herr)
  intro hash hhash
  obtain rfl := hhash
  refine Cycle.ensures_bind.mpr (Cycle.ensures_read_failing (c := .consensusClient .currentHeight)
    (reads_recordedClient (fun _ => trivial) rfl fun _ _ h => (Prod.mk.inj h).1.symm) ?_ herr)
  intro height hcurrent
  obtain rfl := hcurrent
  rw [ht, hheight]
  refine Cycle.ensures_bind.mpr (Cycle.ensures_get.mpr ?_)
  split
  · rename_i known hknown
    obtain ⟨hbest, hsame⟩ := Option.filter_eq_some_iff.mp hknown
    have hsame := of_decide_eq_true hsame
    have hchain := hs.contractBest known hbest
    rw [hsame.2] at hchain
    exact ⟨hchain, hs, rfl⟩
  · refine Cycle.ensures_bind.mpr (Cycle.ensures_read_failing
      (c := .consensusNode (.headerByHash (chain t).hash))
      (reads_recordedNode (fun _ => trivial) (fun _ h => nomatch h) fun _ h => h) ?_ fun x h => ?_)
    · intro header hheader
      obtain ⟨⟨h, hh, hhash, rfl⟩, -⟩ := hheader
      obtain rfl := hdistinct h hh hhash
      refine Cycle.ensures_ite (fun hne => absurd (hheight h) hne) fun _ => ?_
      exact ⟨rfl, hs.withBest hheight, rfl⟩
    · exact ⟨h.resolve_right (absurd ⟨t, hknows, rfl⟩), hs, rfl⟩

/-- A header that follows the trusted one is accepted; if the connection is bad, that may look like a
failure. -/
theorem ensures_submitHeader {m checked height t : Nat} (hheight : ∀ h, (chain h).height = h)
    (hs : Remembers chain m checked s) (ht : p.1.client.trusted = chain t)
    (hknows : knows height ∧ knows (height + 1)) (hasks : asks height) :
    (submitHeader height (chain height) (chain t)).Ensures
      ((recordedPeers chain knows tops own asks).failing faulty) s p
      (fun _ s' p' => Remembers chain m checked s' ∧ Accepts chain own t [height] p p')
      fun _ s' p' => faulty ∧ Remembers chain m checked s' ∧
        (p' = p ∨ Accepts chain own t [height] p p') := by
  refine Cycle.ensures_bind.mpr (ensures_lightBlockOf_of_reads
    (reads_recordedNode (fun _ => trivial) ?_ fun _ h => h)
    (reads_recordedNode (fun _ => trivial) (fun _ h => nomatch h) fun _ h => h) ?_ ?_ ?_
    fun x hf => ⟨hf, hs, .inl rfl⟩)
  · rw [hheight]
    intro height' h
    cases h
    exact hasks
  · rw [hheight]
    exact fun commit hc => hc.1
  · rw [hheight]
    exact ⟨hknows, hknows.1⟩
  rw [hheight]
  intro commit validators hcommit hvalidators
  have hown : Own chain own height ⟨⟨chain height, commit⟩, validators⟩ := ⟨rfl, hcommit.2, hvalidators.2⟩
  generalize (⟨⟨chain height, commit⟩, validators⟩ : LightBlock) = b at hown
  have hsubmit : ∀ r p', (recordedPeers chain knows tops own asks).answers
      (.consensusClient (.submitLightBlocks (chain t) [b])) p r p' →
        (∃ a, r = .ok a) ∧ Accepts chain own t [height] p p' := by
    intro r p' h
    obtain ⟨⟨⟨k', hk, hpeers⟩, -⟩, hrecord⟩ := h
    have hk : p.1.client.submit (chain t) [b] = (r, k') := hk
    rw [Sim.ConsensusClient.submit, ht, if_neg (fun hne => hne rfl)] at hk
    cases hk
    refine ⟨⟨_, rfl⟩, b, hown, Prod.ext ?_ hrecord⟩
    rw [hpeers]
    simp [ConsensusPeers.accept, hown.header, LightBlock.height, hheight]
  refine Cycle.ensures_bind.mpr (Cycle.ensures_call_failing.mpr
    ⟨Cycle.ensures_call.mpr ⟨⟨⟨rfl, fun _ => rfl⟩, trivial⟩, ?_, ?_⟩, ?_⟩)
  · intro a p' h
    exact Cycle.ensures_bind.mpr (ensures_recordedLog (by decide) ⟨hs.withBest hheight, (hsubmit _ p' h).2⟩)
  · intro x p' h
    obtain ⟨⟨a, ha⟩, -⟩ := hsubmit _ p' h
    cases ha
  · intro hf _ x
    exact ⟨⟨hf, hs, .inl rfl⟩, fun r p' h => ⟨hf, hs, .inr (hsubmit r p' h).2⟩⟩

/-- **Examination.** What the rule selects from the heights examined is accepted, and counted; a failure
leaves the first of it accepted. -/
theorem ensures_examine {m checked count height t : Nat} {report : Report}
    (hheight : ∀ h, (chain h).height = h)
    (hs : Remembers chain m checked s) (ht : p.1.client.trusted = chain t)
    (hknows : ∀ h, height ≤ h → h < height + count → (knows h ∧ knows (h + 1)) ∧ asks h) :
    (examine count height (chain t) report).Ensures
      ((recordedPeers chain knows tops own asks).failing faulty) s p
      (fun r s' p' => Remembers chain m checked s' ∧
        Accepts chain own t (due chain m (List.range' height count) t) p p' ∧
        r = { report with submitted := report.submitted + (due chain m (List.range' height count) t).length,
                          batches := report.batches + (due chain m (List.range' height count) t).length })
      fun _ s' p' => faulty ∧ Remembers chain m checked s' ∧
        ∃ accepted, accepted <+: due chain m (List.range' height count) t ∧
          Accepts chain own t accepted p p' := by
  induction count generalizing height t report s p with
  | zero => exact ⟨hs, rfl, rfl⟩
  | succ count ih =>
    have hfirst := hknows height (Nat.le_refl _) (by omega)
    refine Cycle.ensures_bind.mpr (ensures_recordedHeader hfirst.1.1 ?_ fun x hf =>
      ⟨hf, hs, [], List.nil_prefix, rfl⟩)
    refine Cycle.ensures_bind.mpr (Cycle.ensures_get.mpr ?_)
    have hrest : ∀ h, height + 1 ≤ h → h < height + 1 + count → (knows h ∧ knows (h + 1)) ∧ asks h :=
      fun h hlo hhi => hknows h (by omega) (by omega)
    rw [List.range'_succ, due, hs.maxInterval]
    refine Cycle.ensures_ite (fun hdue => ?_) fun hdue => ?_
    · rw [if_pos hdue]
      refine Cycle.ensures_bind.mpr (Cycle.Ensures.mono
        (ensures_submitHeader hheight hs ht hfirst.1 hfirst.2) ?_ ?_)
      · intro _ s₁ p₁ h₁
        obtain ⟨hs₁, hfirst⟩ := h₁
        have ht₁ : p₁.1.client.trusted = chain height := by rw [hfirst.peers]; rfl
        refine Cycle.Ensures.mono (ih hs₁ ht₁ hrest) ?_ ?_
        · intro r s' p' h'
          obtain ⟨hs', haccepts, rfl⟩ := h'
          refine ⟨hs', hfirst.append haccepts, ?_⟩
          simp only [List.length_cons, Report.mk.injEq, true_and, and_true]
          omega
        · intro x s' p' h'
          obtain ⟨hf, hs', accepted, hprefix, haccepts⟩ := h'
          exact ⟨hf, hs', height :: accepted, List.cons_prefix_cons.mpr ⟨rfl, hprefix⟩,
            hfirst.append haccepts⟩
      · intro x s' p' h'
        obtain ⟨hf, hs', rfl | haccepts⟩ := h'
        · exact ⟨hf, hs', [], List.nil_prefix, rfl⟩
        · exact ⟨hf, hs', [height], List.cons_prefix_cons.mpr ⟨rfl, List.nil_prefix⟩, haccepts⟩
    · rw [if_neg hdue]
      exact ih hs ht hrest

/-- **One cycle on record.** It examines the heights above the trusted header and the checked height, up to
and without the network height, which becomes the checked height. -/
theorem ensures_recordedCycle {m checked t : Nat} (hheight : ∀ h, (chain h).height = h)
    (hs : Remembers chain m checked s) (ht : p.1.client.trusted = chain t) (hknows : knows t)
    (hdistinct : ∀ h, knows h → (chain h).hash = (chain t).hash → h = t)
    (htops : ∀ top, tops top → knows top ∧ ∀ h, t ≤ h → h ≤ top → knows h)
    (hasks : ∀ top h, tops top → h < top → asks h) :
    runCycle.Ensures ((recordedPeers chain knows tops own asks).failing faulty) s p
      (fun r s' p' => ∃ top sel, tops top ∧
        sel = due chain m (List.range' (max checked t + 1) (top - (max checked t + 1))) t ∧
        Accepts chain own t sel p p' ∧ Remembers chain m (max checked top) s' ∧
        r = ⟨engine, sel.length, sel.length, max checked top⟩)
      fun _ s' p' => faulty ∧ Remembers chain m checked s' ∧ (p' = p ∨ ∃ top accepted, tops top ∧
        accepted <+: due chain m (List.range' (max checked t + 1) (top - (max checked t + 1))) t ∧
        Accepts chain own t accepted p p') := by
  refine Cycle.ensures_bind.mpr (Cycle.Ensures.mono (ensures_trustedHeader hheight hs ht hknows hdistinct) ?_
    fun x s' p' h => ⟨h.1, h.2.1, .inl h.2.2⟩)
  intro last s₀ p₀ h₀
  obtain ⟨rfl, hs, rfl⟩ := h₀
  refine Cycle.ensures_bind.mpr (Cycle.ensures_read_failing (c := .consensusNode .latestHeight)
    (reads_recordedNode (fun _ => trivial) (fun _ h => nomatch h) fun _ h => h) ?_
    fun x h => ⟨h.resolve_right (absurd trivial), hs, .inl rfl⟩)
  intro (top : Nat) htop
  have htop := htop.1
  obtain ⟨htopknown, hbelow⟩ := htops top htop
  refine Cycle.ensures_bind.mpr (ensures_recordedHeader htopknown ?_ fun x hf => ⟨hf, hs, .inl rfl⟩)
  refine Cycle.ensures_bind.mpr (Cycle.ensures_modify.mpr (Cycle.ensures_bind.mpr (Cycle.ensures_get.mpr
    (Cycle.ensures_bind.mpr (ensures_recordedLog (by decide) (Cycle.ensures_bind.mpr ?_))))))
  have hs₁ : Remembers chain m checked { s₀ with networkBest := some (chain top) } :=
    ⟨hs.maxInterval, hs.checked, hs.contractBest⟩
  have hstart : max s₀.checkedHeight (chain t).height + 1 = max checked t + 1 := by rw [hheight, hs.checked]
  show Cycle.Ensures _ (examine (top - (max s₀.checkedHeight (chain t).height + 1))
    (max s₀.checkedHeight (chain t).height + 1) (chain t) (Report.idle engine s₀.checkedHeight)) _ p₀ _ _
  rw [hstart]
  refine Cycle.Ensures.mono (ensures_examine hheight hs₁ ht fun h hlo hhi =>
    ⟨⟨hbelow h (by omega) (by omega), hbelow (h + 1) (by omega) (by omega)⟩,
      hasks top h htop (by omega)⟩) ?_ ?_
  · intro report s₂ p₂ h₂
    obtain ⟨hs₂, haccepts, rfl⟩ := h₂
    refine Cycle.ensures_bind.mpr (Cycle.ensures_modify.mpr (Cycle.ensures_bind.mpr (Cycle.ensures_get.mpr
      (Cycle.ensures_bind.mpr (ensures_recordedLog (by decide)
        (Cycle.ensures_bind.mpr (ensures_recordedLog (by decide) ?_)))))))
    refine ⟨top, _, htop, rfl, haccepts, ⟨hs₂.maxInterval, ?_, hs₂.contractBest⟩, ?_⟩
    · show max s₂.checkedHeight top = _
      rw [hs₂.checked]
    · show Report.mk _ _ _ (max s₂.checkedHeight top) = _
      rw [hs₂.checked]
      simp [Report.idle]
  · intro x s₂ p₂ h₂
    obtain ⟨hf, hs₂, accepted, hprefix, haccepts⟩ := h₂
    exact ⟨hf, hs₂, .inr ⟨top, accepted, htop, hprefix, haccepts⟩⟩

/-- **One cycle.** -/
theorem ensures_runCycle {m checked t : Nat} (hheight : ∀ h, (chain h).height = h)
    (hs : Remembers chain m checked s) (ht : e.client.trusted = chain t) (hknows : knows t)
    (hdistinct : ∀ h, knows h → (chain h).hash = (chain t).hash → h = t)
    (htops : ∀ top, tops top → knows top ∧ ∀ h, t ≤ h → h ≤ top → knows h) :
    runCycle.Ensures ((consensusPeers chain knows tops).failing faulty) s e
      (fun r s' e' => ∃ top sel, tops top ∧
        sel = due chain m (List.range' (max checked t + 1) (top - (max checked t + 1))) t ∧
        e' = e.acceptAll chain sel ∧ Remembers chain m (max checked top) s' ∧
        r = ⟨engine, sel.length, sel.length, max checked top⟩)
      fun _ s' e' => faulty ∧ Remembers chain m checked s' ∧ (e' = e ∨ ∃ top accepted, tops top ∧
        accepted <+: due chain m (List.range' (max checked t + 1) (top - (max checked t + 1))) t ∧
        e' = e.acceptAll chain accepted) := by
  have hrecorded : runCycle.Ensures ((recordedPeers chain knows tops (fun _ _ => True) fun _ => True).failing
      faulty) s (e, []) _ _ :=
    ensures_recordedCycle hheight hs ht hknows hdistinct htops fun _ _ _ _ => trivial
  have hplain := hrecorded.of_asking.of_recording
  rw [Conduct.giving_true] at hplain
  refine Cycle.Ensures.mono hplain (fun report s' e' h => ?_) fun x s' e' h => ?_
  · obtain ⟨l, top, sel, htop, hsel, haccepts, hs', hreport⟩ := h
    exact ⟨top, sel, htop, hsel, haccepts.peers, hs', hreport⟩
  · obtain ⟨l, hf, hs', hp | ⟨top, accepted, htop, hprefix, haccepts⟩⟩ := h
    · exact ⟨hf, hs', .inl (congrArg Prod.fst hp)⟩
    · exact ⟨hf, hs', .inr ⟨top, accepted, htop, hprefix, haccepts.peers⟩⟩

/-! ## Runs -/

/-- **Runs.** Cycles at some network heights submit what the rule selects from the heights examined. -/
theorem exists_cyclesAt {low top checked m t followed : Nat} {tops : List Nat} (hf : 0 < followed)
    (policy : Policy) (hheight : ∀ h, (chain h).height = h)
    (hdistinct : ∀ a b, low ≤ a → a ≤ lastTop top tops → low ≤ b → b ≤ lastTop top tops →
      (chain a).hash = (chain b).hash → a = b)
    (htops : (top :: tops).Pairwise (· ≤ ·)) (hlow : low ≤ t) (htop : max checked t ≤ top)
    (hs : Remembers chain m checked s) (ht : e.client.trusted = chain t) {w : World Sim.Network}
    (hw : HonestPeers chain low top w.peers e) :
    ∃ s' w', cyclesAt followed policy runCycle chain tops s w = some (s', w') ∧
      HonestPeers chain low (lastTop top tops) w'.peers
        (e.acceptAll chain (due chain m (examined (max checked t) tops) t)) := by
  induction tops generalizing top checked t s e w with
  | nil => exact ⟨s, w, rfl, hw⟩
  | cons top' tops ih =>
    obtain ⟨hle, htops'⟩ := List.pairwise_cons.mp htops
    have hle := hle top' List.mem_cons_self
    rw [lastTop_cons] at hdistinct ⊢
    have hlast := (le_lastTop htops').1
    have hcycle : runCycle.Ensures
        ((consensusPeers chain (fun h => low ≤ h ∧ h ≤ top') (· = top')).failing False) s e _ _ :=
      ensures_runCycle hheight hs ht ⟨hlow, by omega⟩
        (fun h hh hhash => hdistinct h t hh.1 (by omega) hlow (by omega) hhash)
        (by rintro _ rfl; exact ⟨⟨by omega, Nat.le_refl _⟩, fun h hlo hhi => ⟨by omega, hhi⟩⟩)
    rw [Conduct.failing_false] at hcycle
    obtain ⟨report, s₁, e₁, w₁, ⟨top', sel, rfl, hsel, rfl, hs₁, -⟩, hw₁, hcycles⟩ :=
      exists_cyclesAt_cons hf policy hheight hw hle
        (Cycle.Ensures.mono hcycle (fun _ _ _ h => h) fun _ _ _ h => h.1)
    have hlast₁ : t ≤ sel.getLast?.getD t ∧ sel.getLast?.getD t ≤ top' := by
      rw [hsel]
      exact last_due_range chain m (Nat.le_max_right _ _) (Nat.le_trans htop hle)
    -- the heights that are left for the cycles after this one start above its network height
    have hmax : max (max checked top') (sel.getLast?.getD t) = top' := by omega
    obtain ⟨s', w', hcycles', hw'⟩ := ih hdistinct htops' (by omega) (by omega) hs₁
      (ConsensusPeers.client_acceptAll chain e sel t ht).2 hw₁
    refine ⟨s', w', hcycles.trans hcycles', ?_⟩
    rw [examined, due_append, ConsensusPeers.acceptAll_append, ← hsel]
    rw [hmax] at hw'
    exact hw'

/-- **Largest gap.** Cycles of a fresh engine at network heights `tops`, while the chain grows, keep the
largest gap exactly if none of them but the last was at the height at which a header was due by its
distance alone: that height is left out. -/
theorem timely_cycles_iff {low top t m followed : Nat} (hf : 0 < followed) (policy : Policy)
    (hheight : ∀ h, (chain h).height = h) (hm : 0 < m) (tops : List Nat)
    (hdistinct : ∀ a b, low ≤ a → a ≤ lastTop top tops → low ≤ b → b ≤ lastTop top tops →
      (chain a).hash = (chain b).hash → a = b)
    (htops : (top :: tops).Pairwise (· ≤ ·)) (hlow : low ≤ t) (htop : t ≤ top) (w : World Sim.Network)
    (hquiet : w.peers.Quiet) (hnode : Serves chain low top w.peers.consensusNode)
    (htrusted : w.peers.consensusClient.trusted = chain t) :
    ∃ s' w' accepted, cyclesAt followed policy runCycle chain tops (State.fresh m) w = some (s', w') ∧
      w'.peers.consensusClient.submissions = w.peers.consensusClient.submissions ++ accepted.map ([·]) ∧
      (Timely m t accepted (lastTop t tops) ↔
        ∀ a ∈ t :: accepted, a + m ∈ tops → a + m < lastTop t tops → ∃ b ∈ accepted, a < b ∧ b < a + m) := by
  have hw : HonestPeers chain low top w.peers ⟨w.peers.consensusClient, w.peers.relayStore, []⟩ :=
    ⟨⟨hnode, ⟨w.peers.consensusClient.verifications, rfl⟩, rfl⟩, hquiet⟩
  obtain ⟨s', w', hcycles, hw'⟩ := exists_cyclesAt hf policy hheight hdistinct htops hlow (by omega)
    (Remembers.fresh chain m) htrusted hw
  rw [Nat.zero_max] at hw'
  obtain ⟨verifications, hclient⟩ := hw'.client
  refine ⟨s', w', due chain m (examined t tops) t, hcycles, ?_, ?_⟩
  · rw [hclient]
    exact (ConsensusPeers.client_acceptAll chain _ _ t htrusted).1
  have hfrom : (t :: tops).Pairwise (· ≤ ·) := by
    refine List.pairwise_cons.mpr ⟨fun h hh => ?_, (List.pairwise_cons.mp htops).2⟩
    exact Nat.le_trans htop ((List.pairwise_cons.mp htops).1 h hh)
  have hrun := examined_ascending hfrom
  rw [timely_due_iff hheight hm hrun fun h hh => ((mem_examined hfrom).mp hh).2.1]
  refine forall₂_congr fun a ha => ?_
  have hta : t ≤ a := by
    rcases List.mem_cons.mp ha with rfl | ha
    · exact Nat.le_refl _
    · exact Nat.le_of_lt ((mem_examined hfrom).mp ((due_sublist _ _).subset ha)).1
  rw [mem_examined hfrom]
  constructor
  · intro h hmem hlt
    exact (h hlt).resolve_left fun hex => hex.2.2 hmem
  · intro h hlt
    by_cases hmem : a + m ∈ tops
    · exact .inr (h hmem hlt)
    · exact .inl ⟨by omega, hlt, hmem⟩

/-- Cycles at 5 and 12 after height 1 accept 6 and 11, which keeps a largest gap of 5. -/
theorem plain_cycles_timely :
    ∃ s' w', cyclesAt 1 ⟨10, 1, 1⟩ runCycle plainChain [5, 12] (State.fresh 5) (World.start plainPeers) =
        some (s', w') ∧
      w'.peers.consensusClient.submissions = [[6], [11]] ∧ Timely 5 1 [6, 11] 12 := by
  obtain ⟨s', w', accepted, hcycles, hsub, htimely⟩ :=
    timely_cycles_iff Nat.one_pos ⟨10, 1, 1⟩ (fun _ => rfl) (m := 5) (by decide) [5, 12]
      (fun a b _ ha _ hb h => plainChain_distinct (Nat.lt_of_le_of_lt ha (by decide))
        (Nat.lt_of_le_of_lt hb (by decide)) h)
      (by decide) (Nat.le_refl 1) (Nat.le_refl 1) (World.start plainPeers) rfl (plainPeers_honest []).node rfl
  have hrun : (cyclesAt 1 ⟨10, 1, 1⟩ runCycle plainChain [5, 12] (State.fresh 5) (World.start plainPeers)).map
      (fun p => p.2.peers.consensusClient.submissions) = some [[6], [11]] := by decide +kernel
  rw [hcycles] at hrun
  have hsub' := Option.some.inj hrun
  obtain rfl : accepted = [6, 11] := by
    have hflat := congrArg List.flatten (hsub.symm.trans hsub')
    rwa [show (World.start plainPeers).peers.consensusClient.submissions = [] from rfl, List.nil_append,
      ← List.flatMap_def, List.flatMap_singleton'] at hflat
  exact ⟨s', w', hcycles, hsub', htimely.mpr (by decide)⟩

/-- **The gap grows.** A cycle at 6, where the header after height 1 is due, and one at 12 accept 7 alone,
6 heights above. -/
theorem plain_cycles_not_timely :
    ∃ s' w', cyclesAt 1 ⟨10, 1, 1⟩ runCycle plainChain [6, 12] (State.fresh 5) (World.start plainPeers) =
        some (s', w') ∧
      w'.peers.consensusClient.submissions = [[7]] ∧ ¬ Timely 5 1 [7] 12 := by
  have hrun : (cyclesAt 1 ⟨10, 1, 1⟩ runCycle plainChain [6, 12] (State.fresh 5) (World.start plainPeers)).map
      (fun p => p.2.peers.consensusClient.submissions) = some [[7]] := by decide +kernel
  obtain ⟨⟨s', w'⟩, hcycles, hsub⟩ := Option.map_eq_some_iff.mp hrun
  exact ⟨s', w', hcycles, hsub, by simp [Timely]⟩

end Sequential

end HeaderRelay.Sync
