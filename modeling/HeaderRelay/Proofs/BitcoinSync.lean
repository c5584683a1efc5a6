import HeaderRelay.Proofs.BitcoinWalk

/-!
# What a cycle of the Bitcoin engine does

A cycle closes the gap that its walk has found, batch by batch. What the contract takes is on record, so that a
cycle that fails shows how far it came.

Results:
* `ensures_submitAll`: batch after batch, the contract takes the first headers of the gap; a failure leaves
  it with those of the batches that it took.
* `ensures_recordedCycle`, `ensures_runCycle`: what a cycle does with what it finds, with and without the record.
* `cycle_catches_up`: on the simulated network without faults, a cycle that ends well leaves the contract at
  the node's best header (`CaughtUp`), with the headers of the gap and the batches counted, or finds that it
  was there and leaves it as it is; the cycle after it is idle.
-/
namespace HeaderRelay.Sync.Bitcoin

open HeaderRelay.Bitcoin (Header)
open Peer (Call Conduct)

variable {σ : Type} {node : Sim.BitcoinNode} {k : Sim.BitcoinClient} {faulty : Prop} {s : σ}
  {p p' p'' : Sim.BitcoinClient × List Call}

/-! ## What is on record -/

def takenHeaders (calls : List Call) : List Header :=
  calls.flatMap fun
    | .bitcoinClient (.submitHeaders _ headers _) => headers
    | _ => []

theorem takenHeaders_append (xs ys : List Call) : takenHeaders (xs ++ ys) = takenHeaders xs ++ takenHeaders ys :=
  List.flatMap_append

/-- The contract has taken the headers above `tip`, on record. -/
structure Brought (p : Sim.BitcoinClient × List Call) (tip : Nat) (headers : List Header)
    (p' : Sim.BitcoinClient × List Call) : Prop where
  took : p.1.Took tip headers p'.1
  record : takenHeaders p'.2 = takenHeaders p.2 ++ headers
  refused : p'.1.refused = p.1.refused

/-- The contract holds what it held, and has taken nothing. -/
structure Stayed (p p' : Sim.BitcoinClient × List Call) : Prop where
  entries : p'.1.entries = p.1.entries
  record : takenHeaders p'.2 = takenHeaders p.2
  refused : p'.1.refused = p.1.refused

/-- How far a cycle that failed may have brought the contract. -/
def PartlyBrought (p : Sim.BitcoinClient × List Call) (tip : Nat) (headers : List Header)
    (p' : Sim.BitcoinClient × List Call) : Prop :=
  Stayed p p' ∨ ∃ taken rest, headers = taken ++ rest ∧ taken ≠ [] ∧ Brought p tip taken p'

/-- Why a submission may fail, or look as if it had. -/
def Hindered (faulty : Prop) (k : Sim.BitcoinClient) (tip : Nat) (headers : List Header) : Prop :=
  faulty ∨ k.refused ≠ none ∨ Sim.BitcoinClient.links (k.heldAt tip) headers = false

theorem Brought.append {tip : Nat} {xs ys : List Header} (hxs : xs ≠ []) (h : Brought p tip xs p')
    (h' : Brought p' (tip + xs.length) ys p'') : Brought p tip (xs ++ ys) p'' where
  took := h.took.append hxs h'.took
  record := by rw [h'.record, h.record, List.append_assoc]
  refused := h'.refused.trans h.refused

theorem Stayed.trans (h : Stayed p p') (h' : Stayed p' p'') : Stayed p p'' :=
  ⟨h'.entries.trans h.entries, h'.record.trans h.record, h'.refused.trans h.refused⟩

theorem Stayed.brought {tip : Nat} {xs : List Header} (h : Stayed p p') (h' : Brought p' tip xs p'') :
    Brought p tip xs p'' where
  took := h'.took.congr h.entries.symm rfl
  record := h'.record.trans (by rw [h.record])
  refused := h'.refused.trans h.refused

theorem Brought.stayed {tip : Nat} {xs : List Header} (h : Brought p tip xs p') (h' : Stayed p' p'') :
    Brought p tip xs p'' where
  took := ⟨h.took.links, h'.entries.trans h.took.entries⟩
  record := h'.record.trans h.record
  refused := h'.refused.trans h.refused

theorem PartlyBrought.append {tip : Nat} {xs ys : List Header} (hxs : xs ≠ []) (h : Brought p tip xs p')
    (h' : PartlyBrought p' (tip + xs.length) ys p'') : PartlyBrought p tip (xs ++ ys) p'' := by
  obtain hstayed | ⟨taken, rest, htaken, hne, hbrought⟩ := h'
  · exact .inr ⟨xs, ys, rfl, hxs, h.stayed hstayed⟩
  · refine .inr ⟨xs ++ taken, rest, ?_, by simp [hxs], h.append hxs hbrought⟩
    rw [htaken, List.append_assoc]

theorem Hindered.of_first {tip : Nat} {xs ys : List Header} (hxs : xs ≠ []) (h : Hindered faulty k tip xs) :
    Hindered faulty k tip (xs ++ ys) := by
  refine h.imp id fun h => h.imp id fun hlinks => ?_
  rw [Sim.BitcoinClient.links_append (List.getLast?_eq_some_getLast hxs), hlinks, Bool.false_and]

theorem Hindered.of_rest {tip : Nat} {xs ys : List Header} (hxs : xs ≠ []) (hfirst : Brought p tip xs p')
    (h : Hindered faulty p'.1 (tip + xs.length) ys) : Hindered faulty p.1 tip (xs ++ ys) := by
  refine h.imp id fun h => h.imp (fun hrefused => ?_) fun hlinks => ?_
  · rwa [hfirst.refused] at hrefused
  · rwa [hfirst.took.links_append hxs]

/-! ## Submissions -/

/-- The gas of the first batch is found without touching the contract, and without failing. -/
theorem ensures_firstGas {config : Config} :
    (firstGas config).Ensures ((bitcoinReads node).failing faulty) s k
      (fun _ s' k' => s' = s ∧ k' = k) fun _ _ _ => False := by
  refine Cycle.ensures_ite (fun _ => ⟨rfl, rfl⟩) fun _ => ?_
  refine Cycle.ensures_bind.mpr (Cycle.ensures_outcome.mpr ⟨⟨trivial, rfl⟩, fun r k' h => ?_⟩)
  have hread : ((bitcoinReads node).failing faulty).attends (.read "gas history")
      (.bitcoinClient .lastSubmissionGas) := ⟨trivial, rfl⟩
  have hk : k' = k := Conduct.reads _ hread h
  cases r with
  | ok used => exact ⟨rfl, hk⟩
  | error x => exact ⟨rfl, hk⟩

def batchCount (n size : Nat) : Nat := (n + size - 1) / size

theorem batchCount_of_le {n size : Nat} (hn : 0 < n) (hle : n ≤ size) : batchCount n size = 1 :=
  Nat.div_eq_of_lt_le (by omega) (by omega)

theorem batchCount_of_lt {n size : Nat} (hsize : 0 < size) (hlt : size < n) :
    batchCount n size = batchCount (n - size) size + 1 := by
  have h : n + size - 1 = (n - size + size - 1) + size := by omega
  rw [batchCount, batchCount, h, Nat.add_div_right _ hsize]

def Partly (k : Sim.BitcoinClient) (tip : Nat) (headers : List Header) (k' : Sim.BitcoinClient) : Prop :=
  k'.entries = k.entries ∨ ∃ taken rest, headers = taken ++ rest ∧ taken ≠ [] ∧ k.Took tip taken k'

theorem PartlyBrought.partly {tip : Nat} {headers : List Header} (h : PartlyBrought p tip headers p') :
    Partly p.1 tip headers p'.1 :=
  h.imp Stayed.entries fun ⟨taken, rest, htaken, hne, hbrought⟩ => ⟨taken, rest, htaken, hne, hbrought.took⟩

theorem ensures_submit {tip : Nat} {headers : List Header} {gas : Option Nat}
    {ok : Relayed Channel.Response → σ → Sim.BitcoinClient × List Call → Prop}
    {err : RelayError → σ → Sim.BitcoinClient × List Call → Prop}
    (hok : ∀ r p', Brought p tip headers p' → ok (.ok r) s p')
    (herr : ∀ x p', Stayed p p' ∨ Brought p tip headers p' → Hindered faulty p.1 tip headers →
      ok (.error x) s p') :
    (Cycle.outcome .submit (.bitcoinClient (.submitHeaders tip headers gas)) :
      Cycle σ (Relayed Channel.Response)).Ensures ((bitcoinPeers node).recording.failing faulty) s p ok err := by
  have hserve : ∀ r p', (bitcoinPeers node).recording.answers
      (.bitcoinClient (.submitHeaders tip headers gas)) p r p' →
        (∃ a, r = .ok a ∧ Brought p tip headers p') ∨
          ∃ x, r = .error x ∧ Stayed p p' ∧ (p.1.refused ≠ none ∨
            Sim.BitcoinClient.links (p.1.heldAt tip) headers = false) := by
    intro r p' h
    obtain ⟨hsubmit, hrecord⟩ := h
    have hsubmit : p.1.submit tip headers gas = (r, p'.1) := hsubmit
    cases r with
    | ok a =>
      refine .inl ⟨a, rfl, Sim.BitcoinClient.took_of_submit hsubmit, ?_,
        Sim.BitcoinClient.refused_of_submit hsubmit⟩
      rw [hrecord, takenHeaders_append]
      simp [Call.taken, Call.isSubmission, takenHeaders]
    | error x =>
      refine .inr ⟨x, rfl, ⟨Sim.BitcoinClient.entries_of_submit hsubmit, ?_,
        Sim.BitcoinClient.refused_of_submit hsubmit⟩, ?_⟩
      · rw [hrecord]
        simp [Call.taken]
      · by_cases hrefused : p.1.refused = none
        · exact .inr (Sim.BitcoinClient.links_of_refused hrefused hsubmit)
        · exact .inl hrefused
  refine Cycle.ensures_outcome.mpr ⟨⟨rfl, fun _ => rfl⟩, fun r p' h => ?_⟩
  obtain h | ⟨hf, ⟨x, rfl⟩, h⟩ := h
  · obtain ⟨a, rfl, hbrought⟩ | ⟨x, rfl, hstayed, hwhy⟩ := hserve r p' h
    · exact hok a p' hbrought
    · exact herr x p' (.inl hstayed) (.inr hwhy)
  · refine herr x p' ?_ (.inl hf)
    obtain rfl | ⟨r, h⟩ := h
    · exact .inl ⟨rfl, rfl, rfl⟩
    · obtain ⟨a, -, hbrought⟩ | ⟨y, -, hstayed, -⟩ := hserve r p' h
      · exact .inr hbrought
      · exact .inl hstayed

/-- **Batches.** The batches of some headers together do what one submission of all would do, and are
counted; what a failure leaves is what some of the first headers would do. -/
theorem ensures_submitAll {config : Config} {size fuel tip : Nat} {headers : List Header} {gas : Option Nat}
    {report : Report} (hsize : 0 < size) (hne : headers ≠ []) (hfuel : headers.length ≤ fuel) :
    (submitAll config (batchesFrom size fuel headers tip) gas report).Ensures
      ((bitcoinPeers node).recording.failing faulty) s p
      (fun r s' p' => s' = s ∧ Brought p tip headers p' ∧
        r = { report with submitted := report.submitted + headers.length,
                          batches := report.batches + batchCount headers.length size })
      fun _ s' p' => s' = s ∧ PartlyBrought p tip headers p' ∧ Hindered faulty p.1 tip headers := by
  induction fuel generalizing headers tip gas report p with
  | zero => exact absurd (List.eq_nil_of_length_eq_zero (by omega)) hne
  | succ fuel ih =>
    have hpos := List.length_pos_iff.mpr hne
    have hsplit : headers = headers.take size ++ headers.drop size := (List.take_append_drop ..).symm
    have hchunk : headers.take size ≠ [] := by
      rw [ne_eq, List.take_eq_nil_iff]
      intro h
      rcases h with h | h
      · omega
      · exact hne h
    have hbatches : batchesFrom size (fuel + 1) headers tip = ⟨tip, headers.take size⟩ ::
        batchesFrom size fuel (headers.drop size) (tip + (headers.take size).length) := by
      rw [batchesFrom, if_neg]
      simpa using hne
    rw [hbatches]
    refine Cycle.ensures_bind.mpr (ensures_submit ?_ ?_)
    · intro r p₁ h₁
      refine Cycle.ensures_bind.mpr (Cycle.ensures_log.mpr ?_)
      by_cases hrest : headers.drop size = []
      · have hle : headers.length ≤ size := List.drop_eq_nil_iff.mp hrest
        rw [hrest, List.append_nil] at hsplit
        rw [hrest, ← hsplit, batchCount_of_le hpos hle]
        rw [← hsplit] at h₁
        cases fuel <;> exact ⟨rfl, h₁, rfl⟩
      · have hlt : size < headers.length := by
          rw [List.drop_eq_nil_iff] at hrest
          omega
        have hlen : (headers.take size).length = size := List.length_take_of_le (by omega)
        have hdrop : (headers.drop size).length = headers.length - size := List.length_drop
        refine Cycle.Ensures.mono (ih hrest (by omega)) ?_ ?_
        · intro r s' p' h
          obtain ⟨rfl, h₂, rfl⟩ := h
          refine ⟨rfl, ?_, ?_⟩
          · rw [hsplit]
            exact h₁.append hchunk h₂
          · rw [hlen, hdrop, batchCount_of_lt hsize hlt]
            simp only [Report.mk.injEq, true_and, and_true]
            omega
        · intro x s' p' h
          obtain ⟨rfl, hpart, hwhy⟩ := h
          rw [hsplit]
          exact ⟨rfl, .append hchunk h₁ hpart, .of_rest hchunk h₁ hwhy⟩
    · intro x p₁ h₁ hwhy
      refine Cycle.ensures_bind.mpr (Cycle.ensures_log.mpr ⟨rfl, ?_, ?_⟩)
      · rcases h₁ with h₁ | h₁
        · exact .inl h₁
        · exact .inr ⟨_, _, hsplit, hchunk, h₁⟩
      · rw [hsplit]
        exact .of_first hchunk hwhy

/-! ## One cycle -/

/-- What a cycle that finds `g` does when it ends well. -/
def Follows (config : Config) (k : Sim.BitcoinClient) (s : State) (g : Option Gap) (report : Report)
    (s' : State) (k' : Sim.BitcoinClient) : Prop :=
  match g with
  | none => report = .idle engine s.checkedHeight ∧ s' = s ∧ k' = k
  | some g =>
    report = ⟨engine, g.headers.length, batchCount g.headers.length config.batchSize, g.target⟩ ∧
      s' = ⟨g.target⟩ ∧ k.Took g.tipHeight g.headers k'

/-- What is on record when a cycle that found `g` ends well. -/
def Closed (config : Config) (p : Sim.BitcoinClient × List Call) (g : Option Gap)
    (p' : Sim.BitcoinClient × List Call) : Prop :=
  match g with
  | none => p' = p
  | some g => 0 < config.batchSize ∧ Brought p g.tipHeight g.headers p'

/-- What is on record when a cycle fails to close a gap. -/
def Broken (faulty : Prop) (config : Config) (p : Sim.BitcoinClient × List Call) (g : Gap)
    (p' : Sim.BitcoinClient × List Call) : Prop :=
  config.batchSize = 0 ∧ Stayed p p' ∨
    0 < config.batchSize ∧ PartlyBrought p g.tipHeight g.headers p' ∧
      Hindered faulty p.1 g.tipHeight g.headers

theorem Broken.partlyBrought {config : Config} {g : Gap} (h : Broken faulty config p g p') :
    PartlyBrought p g.tipHeight g.headers p' := by
  rcases h with ⟨-, h⟩ | ⟨-, h, -⟩
  · exact .inl h
  · exact h

def closeGap (config : Config) : Option Gap → Cycle State Report
  | none => do
    Cycle.log (Log.ofEngine engine .info "Contract already at chain best" [])
    return Report.idle engine (← get).checkedHeight
  | some delta => do
    let batches ← Cycle.ofRelayed (batchesOf delta.headers delta.tipHeight config.batchSize)
    let gas ← firstGas config
    let report ← submitAll config batches gas (Report.idle engine (← get).checkedHeight)
    set (State.mk delta.target)
    Cycle.log (Log.ofEngine engine .info "Sync cycle finished"
      [("submitted", .nat report.submitted), ("batches", .nat report.batches), ("height", .nat delta.target)])
    return { report with checkedHeight := delta.target }

theorem runCycle_eq (config : Config) :
    runCycle config =
      Cycle.log (Log.ofEngine engine .info "Sync cycle started" []) >>= fun _ =>
        findGap config >>= closeGap config := rfl

theorem ensures_closeGap {config : Config} {s : State} (found : Option Gap)
    (hne : ∀ g, found = some g → g.headers ≠ []) :
    (closeGap config found).Ensures ((bitcoinPeers node).recording.failing faulty) s p
      (fun report s' p' => Follows config p.1 s found report s' p'.1 ∧ Closed config p found p')
      fun _ s' p' => s' = s ∧ ∃ g, found = some g ∧ Broken faulty config p g p' := by
  cases found with
  | none => exact ⟨⟨rfl, rfl, rfl⟩, rfl⟩
  | some g =>
    refine Cycle.ensures_bind.mpr ?_
    by_cases hsize : config.batchSize = 0
    · rw [batchesOf, checkBatchSize, if_pos hsize]
      exact ⟨rfl, g, rfl, .inl ⟨hsize, rfl, rfl, rfl⟩⟩
    · rw [batchesOf, checkBatchSize, if_neg hsize]
      have hgas : (firstGas config).Ensures ((bitcoinPeers node).recording.failing faulty) s p _ _ :=
        ensures_firstGas.on_record
      refine Cycle.ensures_bind.mpr (Cycle.Ensures.mono hgas (fun gas s₁ p₁ h => ?_) fun _ _ _ h => h.1.elim)
      obtain ⟨⟨rfl, hk⟩, hl⟩ := h
      obtain rfl : p₁ = p := Prod.ext hk hl
      refine Cycle.ensures_bind.mpr (Cycle.ensures_get.mpr (Cycle.ensures_bind.mpr ?_))
      refine Cycle.Ensures.mono
        (ensures_submitAll (Nat.pos_of_ne_zero hsize) (hne g rfl) (Nat.le_refl _)) ?_ ?_
      · intro r s' p' h
        obtain ⟨rfl, hbrought, rfl⟩ := h
        refine ⟨⟨?_, rfl, hbrought.took⟩, Nat.pos_of_ne_zero hsize, hbrought⟩
        simp [Report.idle]
      · intro x s' p' h
        exact ⟨h.1, g, rfl, .inr ⟨Nat.pos_of_ne_zero hsize, h.2⟩⟩

/-- **One cycle on record.** It closes the gap that it finds. -/
theorem ensures_recordedCycle {config : Config} {s : State} {P : Option Gap → Prop} {E : Prop}
    (hgap : (findGap config).Ensures ((bitcoinReads node).failing faulty) s p.1
      (fun g s' k' => s' = s ∧ k' = p.1 ∧ P g) fun _ s' k' => s' = s ∧ k' = p.1 ∧ E)
    (hne : ∀ g, P (some g) → g.headers ≠ []) :
    (runCycle config).Ensures ((bitcoinPeers node).recording.failing faulty) s p
      (fun report s' p' => ∃ g, P g ∧ Follows config p.1 s g report s' p'.1 ∧ Closed config p g p')
      fun _ s' p' => s' = s ∧ (E ∧ p' = p ∨ ∃ g, P (some g) ∧ Broken faulty config p g p') := by
  rw [runCycle_eq]
  have hfind : (findGap config).Ensures ((bitcoinPeers node).recording.failing faulty) s p _ _ :=
    hgap.on_record
  refine Cycle.ensures_bind.mpr (Cycle.ensures_log.mpr (Cycle.ensures_bind.mpr
    (Cycle.Ensures.mono hfind (fun found s₁ p₁ h => ?_) fun x s₁ p₁ h => ?_)))
  · obtain ⟨⟨rfl, hk, hP⟩, hl⟩ := h
    obtain rfl : p₁ = p := Prod.ext hk hl
    refine Cycle.Ensures.mono (ensures_closeGap found fun g hg => hne g (hg ▸ hP)) ?_ ?_
    · intro report s' p' h
      exact ⟨found, hP, h⟩
    · intro x s' p' h
      obtain ⟨rfl, g, rfl, hbroken⟩ := h
      exact ⟨rfl, .inr ⟨g, hP, hbroken⟩⟩
  · obtain ⟨⟨rfl, hk, hE⟩, hl⟩ := h
    exact ⟨rfl, .inl ⟨hE, Prod.ext hk hl⟩⟩

theorem ensures_runCycle {config : Config} {s : State} {P : Option Gap → Prop}
    (hgap : (findGap config).Ensures ((bitcoinPeers node).failing faulty) s k
      (fun g s' k' => s' = s ∧ k' = k ∧ P g) fun _ s' k' => s' = s ∧ k' = k)
    (hne : ∀ g, P (some g) → g.headers ≠ []) :
    (runCycle config).Ensures ((bitcoinPeers node).failing faulty) s k
      (fun report s' k' => ∃ g, P g ∧ Follows config k s g report s' k')
      fun _ s' k' => s' = s ∧ (k' = k ∨ ∃ g, P (some g) ∧ Partly k g.tipHeight g.headers k') := by
  rw [runCycle_eq]
  refine Cycle.ensures_bind.mpr (Cycle.ensures_log.mpr (Cycle.ensures_bind.mpr ?_))
  refine Cycle.Ensures.mono hgap ?_ fun x s' k' h => ⟨h.1, .inl h.2⟩
  intro found s₁ k₁ h
  obtain ⟨rfl, rfl, hP⟩ := h
  have hclose : (closeGap config found).Ensures ((bitcoinPeers node).recording.failing faulty) s₁ (k₁, []) _ _ :=
    ensures_closeGap found fun g hg => hne g (hg ▸ hP)
  refine Cycle.Ensures.mono hclose.of_recording (fun report s' k' h => ?_) fun x s' k' h => ?_
  · obtain ⟨l, hfollows, -⟩ := h
    exact ⟨found, hP, hfollows⟩
  · obtain ⟨l, rfl, g, rfl, hbroken⟩ := h
    exact ⟨rfl, .inr ⟨g, hP, hbroken.partlyBrought.partly⟩⟩

/-! ## Simulated peers -/

/-- The network's node is `node` and answers, its contract is `k`, and no fault is waiting. -/
structure Peers (node : Sim.BitcoinNode) (n : Sim.Network) (k : Sim.BitcoinClient) : Prop where
  quiet : n.Quiet
  running : node.stalled = false
  node : ∃ fetches, n.bitcoinNode = { node with headerFetches := fetches }
  client : n.bitcoinClient = k

theorem final_known {α : Type} (hash : Hash) (a : Option α) : (Sim.BitcoinNode.known hash a).Final := by
  intro x hx
  cases a <;> cases hx
  rfl

theorem final_serve (k : Sim.BitcoinClient) (c : Peer.BitcoinClient) : (k.serve c).1.Final := by
  intro x hx
  cases c with
  | submitHeaders tip headers gas =>
    simp only [Sim.BitcoinClient.serve, Sim.BitcoinClient.submit] at hx
    split at hx
    · cases hx
      rfl
    split at hx <;> cases hx
    rfl
  | _ => cases hx

theorem serve_running (hrun : node.stalled = false) (fetches : Nat) (c : Peer.BitcoinNode) :
    ∃ r fetches', ({ node with headerFetches := fetches } : Sim.BitcoinNode).serve c =
        (some r, { node with headerFetches := fetches' }) ∧ r.Final ∧ (node.serve c).1 = some r := by
  cases c with
  | bestBlockHash => exact ⟨.ok node.best, fetches, rfl, by rintro x ⟨⟩, rfl⟩
  | header hash =>
    refine ⟨Sim.BitcoinNode.known hash (node.header? hash), fetches + 1, ?_, final_known _ _, ?_⟩ <;>
      simp [Sim.BitcoinNode.serve, hrun] <;> rfl
  | headerHeight hash => exact ⟨_, fetches, rfl, final_known _ _, rfl⟩
  | blockTxids hash =>
    refine ⟨Sim.BitcoinNode.known hash (node.txids.lookup hash), fetches, ?_, final_known _ _, ?_⟩ <;>
      simp [Sim.BitcoinNode.serve, hrun]

theorem embodies_peers (node : Sim.BitcoinNode) : (bitcoinPeers node).Embodies (Peers node) where
  quiet h := h.quiet
  noted _ _ h := ⟨h.quiet, h.running, h.node, h.client⟩
  hears h := h
  serves {n k mode c} h hc := by
    obtain ⟨hquiet, hrun, ⟨fetches, hnode⟩, hclient⟩ := h
    cases c with
    | bitcoinNode c =>
      obtain ⟨r, fetches', hs, hfinal, hans⟩ := serve_running hrun fetches c
      refine ⟨r, { n with bitcoinNode := { node with headerFetches := fetches' } }, k, ?_, hfinal,
        ⟨hans, rfl⟩, hquiet, hrun, ⟨fetches', rfl⟩, hclient⟩
      simp only [Sim.Network.serve, hnode, hs]
      rfl
    | bitcoinClient c =>
      refine ⟨(k.serve c).1, { n with bitcoinClient := (k.serve c).2 }, (k.serve c).2, ?_, final_serve k c,
        rfl, hquiet, hrun, ⟨fetches, hnode⟩, rfl⟩
      simp only [Sim.Network.serve, hclient]
    | _ => exact hc.elim

theorem bitcoinPeers_determined (hrun : node.stalled = false) (mode : Mode) (c : Call) (k : Sim.BitcoinClient)
    (hc : (bitcoinPeers node).attends mode c) :
    ∃ r k₁, (bitcoinPeers node).answers c k r k₁ ∧
      ∀ r' k', (bitcoinPeers node).answers c k r' k' → r' = r ∧ k' = k₁ := by
  cases c with
  | bitcoinNode c =>
    obtain ⟨r, -, -, -, hans⟩ := serve_running hrun node.headerFetches c
    refine ⟨r, k, ⟨hans, rfl⟩, ?_⟩
    rintro r' k' ⟨h, rfl⟩
    exact ⟨Option.some.inj (h.symm.trans hans), rfl⟩
  | bitcoinClient c =>
    refine ⟨(k.serve c).1, (k.serve c).2, rfl, ?_⟩
    intro r' k' h
    have h : k.serve c = (r', k') := h
    rw [h]
    exact ⟨rfl, rfl⟩
  | _ => exact hc.elim

/-! ## Catching up -/

/-- The contract `k'` is the contract `k` brought to the node's best header over the gap `g`. -/
structure CaughtUp (node : Sim.BitcoinNode) (g : Gap) (k k' : Sim.BitcoinClient) : Prop where
  /-- The headers lead from what the contract holds to the node's best. -/
  leads : ∃ parent, k.heldAt g.tipHeight = some parent ∧ node.Leads parent g.headers node.best
  nonempty : g.headers ≠ []
  kept : ∀ height ≤ g.tipHeight, k'.heldAt height = k.heldAt height
  added : ∀ i (h : i < g.headers.length), k'.heldAt (g.tipHeight + 1 + i) = some g.headers[i].hash
  nothingAbove : ∀ height, g.tipHeight + g.headers.length < height → k'.heldAt height = none
  tip : k'.tip = (g.tipHeight + g.headers.length, node.best)
  height : node.height? node.best = some (g.tipHeight + g.headers.length)

theorem CaughtUp.of_took {g : Gap} {k k' : Sim.BitcoinClient} (hg : Closes node g)
    (ht : k.Took g.tipHeight g.headers k') : CaughtUp node g k k' := by
  obtain ⟨tip, headers⟩ := g
  obtain ⟨hne, hheight, parent, hleads⟩ := hg
  obtain ⟨x, hx, hbest⟩ := hleads.getLast? hne
  refine ⟨?_, hne, fun height h => ?_, fun i h => ?_, fun height h => ?_, ?_, hheight⟩
  · cases headers with
    | nil => exact absurd rfl hne
    | cons a rest => exact ⟨a.prevHash, ht.parent, rfl, hleads.2⟩
  · rw [ht.heldAt, if_pos h]
  · simp [ht.heldAt, show ¬ tip + 1 + i ≤ tip by omega, show tip + 1 + i - (tip + 1) = i by omega, h]
  · have hnew : ¬ height ≤ tip ∧ headers.length ≤ height - (tip + 1) := by
      simp only at h
      omega
    rw [ht.heldAt, if_neg hnew.1, List.getElem?_eq_none hnew.2]
    rfl
  · rw [ht.tip hx, hbest]

theorem exists_idle_cycle {followed : Nat} (hf : 0 < followed) (policy : Policy) {config : Config} {s : State}
    {w : World Sim.Network} (hw : Peers node w.peers k)
    (hgap : (findGap config).Ensures (bitcoinPeers node) s k
      (fun g s' k' => s' = s ∧ k' = k ∧ g = none) fun _ _ _ => False) :
    ∃ w', Sim.Network.cycle followed policy (runCycle config) s w =
        (.done (.ok (.idle engine s.checkedHeight), s), w') ∧ w'.peers.bitcoinClient = k := by
  have hrun : (runCycle config).Ensures (bitcoinPeers node) s k
      (fun report s' k' => report = .idle engine s.checkedHeight ∧ s' = s ∧ k' = k) fun _ _ _ => False := by
    refine Cycle.ensures_bind.mpr (Cycle.ensures_log.mpr (Cycle.ensures_bind.mpr ?_))
    refine Cycle.Ensures.mono hgap ?_ fun _ _ _ h => h
    rintro g s' k' ⟨rfl, rfl, rfl⟩
    exact ⟨rfl, rfl, rfl⟩
  obtain ⟨r, s', k', w', hcycle, hend, hw', -⟩ := (embodies_peers node).cycle hf policy hrun hw
  cases r with
  | error x => exact hend.elim
  | ok report =>
    obtain ⟨rfl, rfl, rfl⟩ := hend
    exact ⟨w', hcycle, hw'.client⟩

/-- **Catching up.** When a cycle ends well, the contract held the node's best header and is unchanged, or
it has been brought there over the gap that the cycle found, batch by batch; and the next cycle has nothing
to do. -/
theorem cycle_catches_up {followed : Nat} (hf : 0 < followed) (policy : Policy) (config : Config) (s : State)
    (w : World Sim.Network) (hquiet : w.peers.Quiet) (hrun : w.peers.bitcoinNode.stalled = false) :
    ∃ r s' w', Sim.Network.cycle followed policy (runCycle config) s w = (.done (r, s'), w') ∧
      ∀ report, r = .ok report →
        (∃ gap w₀, Sim.Network.cycle followed policy (findGap config) s w = (.done (.ok gap, s), w₀) ∧
          match gap with
          | none =>
            (w.peers.bitcoinClient.tip.2 = w.peers.bitcoinNode.best ∨
              ∃ height, w.peers.bitcoinNode.height? w.peers.bitcoinNode.best = some height ∧
                w.peers.bitcoinClient.heldAt height = some w.peers.bitcoinNode.best) ∧
            w'.peers.bitcoinClient = w.peers.bitcoinClient ∧ report = .idle engine s.checkedHeight
          | some g =>
            CaughtUp w.peers.bitcoinNode g w.peers.bitcoinClient w'.peers.bitcoinClient ∧
            report = ⟨engine, g.headers.length, batchCount g.headers.length config.batchSize, g.target⟩) ∧
        ∃ w'', Sim.Network.cycle followed policy (runCycle config) s' w' =
            (.done (.ok (.idle engine s'.checkedHeight), s'), w'') ∧
          w''.peers.bitcoinClient = w'.peers.bitcoinClient := by
  have hw : Peers w.peers.bitcoinNode w.peers w.peers.bitcoinClient := ⟨hquiet, hrun, ⟨_, rfl⟩, rfl⟩
  generalize w.peers.bitcoinNode = node at hw hrun ⊢
  generalize w.peers.bitcoinClient = k at hw ⊢
  have hfind : (findGap config).Ensures ((bitcoinPeers node).failing False) s k _ _ := ensures_findGap
  rw [Conduct.failing_false] at hfind
  -- the walk has one result, which the cycle finds again
  obtain ⟨⟨found, s₀⟩, k₀, hfound, honly⟩ :=
    Program.Ensures.exists_unique (bitcoinPeers_determined hrun) hfind
  have hgap : (findGap config).Ensures (bitcoinPeers node) s k
      (fun g s' k' => s' = s ∧ k' = k ∧ found = .ok g ∧ Missing node k g) fun _ s' k' => s' = s ∧ k' = k := by
    refine Program.Ensures.mono honly ?_
    rintro ⟨r, s'⟩ k' ⟨hr, rfl⟩
    cases hr
    cases found with
    | error x => exact hfound
    | ok g => exact ⟨hfound.1, hfound.2.1, rfl, hfound.2.2⟩
  rw [← (bitcoinPeers node).failing_false] at hgap
  have hcycle := ensures_runCycle hgap fun g hg => hg.2.nonempty
  rw [Conduct.failing_false] at hgap hcycle
  obtain ⟨r, s', k', w', hrun', hend, hw', -⟩ := (embodies_peers node).cycle hf policy hcycle hw
  refine ⟨r, s', w', hrun', ?_⟩
  rintro report rfl
  obtain ⟨gap, ⟨rfl, hmissing⟩, hfollows⟩ := hend
  obtain ⟨rfl, rfl, -⟩ := hfound
  obtain ⟨_, _, w₀, hrun₀, ⟨rfl, rfl⟩, -, -⟩ := (embodies_peers node).run hf policy honly hw
  obtain rfl := hw'.client
  cases gap with
  | none =>
    obtain ⟨rfl, rfl, hk⟩ := hfollows
    refine ⟨⟨none, w₀, hrun₀, hmissing, hk, rfl⟩, ?_⟩
    rw [hk] at hw' ⊢
    refine exists_idle_cycle hf policy hw' (Program.Ensures.mono honly ?_)
    rintro _ _ ⟨rfl, rfl⟩
    exact ⟨rfl, rfl, rfl⟩
  | some g =>
    obtain ⟨rfl, rfl, htook⟩ := hfollows
    have hcaught := CaughtUp.of_took hmissing htook
    refine ⟨⟨some g, w₀, hrun₀, hcaught, rfl⟩, ?_⟩
    exact exists_idle_cycle hf policy hw' (ensures_findGap_of_tip (by rw [hcaught.tip]))

def branch : List Header :=
  [⟨.replicate 2, .replicate 1, .zero, []⟩, ⟨.replicate 3, .replicate 2, .zero, []⟩]

/-- A node on that branch, from height 7 on, and a contract whose best header is on another. -/
def forkedPeers : Sim.Network :=
  { (default : Sim.Network) with
    bitcoinNode := ⟨branch.zip [8, 9], [], .replicate 1, .replicate 3, 0, false⟩
    bitcoinClient := .holding 7 [.replicate 1, .replicate 9] }

/-- A cycle in batches of one header replaces the contract's best header by the branch. -/
theorem forked_peers_catch_up :
    ∃ s' w', Sim.Network.cycle 1 ⟨10, 1, 1⟩ (runCycle ⟨1, 5, ⟨0⟩, some 3⟩) ⟨0⟩ (World.start forkedPeers) =
        (.done (.ok ⟨engine, 2, 2, 9⟩, s'), w') ∧
      CaughtUp forkedPeers.bitcoinNode ⟨7, branch⟩ forkedPeers.bitcoinClient w'.peers.bitcoinClient := by
  obtain ⟨r, s', w', hrun, h⟩ :=
    cycle_catches_up Nat.one_pos ⟨10, 1, 1⟩ ⟨1, 5, ⟨0⟩, some 3⟩ ⟨0⟩ (World.start forkedPeers) rfl rfl
  have hok : (Sim.Network.cycle 1 ⟨10, 1, 1⟩ (runCycle ⟨1, 5, ⟨0⟩, some 3⟩) ⟨0⟩
      (World.start forkedPeers)).1.success? = some (⟨engine, 2, 2, 9⟩, ⟨9⟩) := by decide +kernel
  have hgap : (Sim.Network.cycle 1 ⟨10, 1, 1⟩ (findGap ⟨1, 5, ⟨0⟩, some 3⟩) (⟨0⟩ : State)
      (World.start forkedPeers)).1.success? = some (some ⟨7, branch⟩, ⟨0⟩) := by decide +kernel
  rw [hrun, Outcome.success?_eq_some] at hok
  cases hok
  obtain ⟨⟨gap, w₀, hfound, hcaught⟩, -⟩ := h _ rfl
  rw [hfound] at hgap
  cases hgap
  exact ⟨_, w', hrun, hcaught.1⟩

end HeaderRelay.Sync.Bitcoin
