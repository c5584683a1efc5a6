import HeaderRelay.Proofs.ConsensusPeers
import HeaderRelay.Proofs.Selection
import HeaderRelay.Sync.Batched

/-!
# What the batched engine queues and appends

The heights queued so far fall into those that the relay has and those that wait. `Tracks` says so of a state
of the engine and of its peers, and is the invariant of every step: pruning, queueing and flushing each move
the border between the two, and a submission whose answer is lost leaves headers in the queue that the relay
has (`stale`).

Results:
* `ensures_dropStored`, `ensures_enqueue`, `ensures_sendBatch`: what the phases of a cycle do to the queue and
  to the relay, on a good or on a bad connection.
* `ensures_sendFull`: all full batches go to the relay.
* `ensures_runCycle`: a cycle that ends well queues the `selection` and drains the queue from the front
  (`Done`); a cycle that fails keeps the invariant.
-/
namespace HeaderRelay

open Consensus (Header LightBlock ChainEntry)
open Peer (Call Conduct)

/-! ## The relay -/

namespace Sim.RelayStore

theorem best_of_entries {a b : RelayStore} {xs : List ChainEntry} (h : b.entries = a.entries ++ xs) :
    b.best = xs.getLast?.getD a.best := by
  have hlast := congrArg List.getLast? h
  rw [entries, List.getLast?_reverse, List.getLast?_append, entries, List.getLast?_reverse] at hlast
  cases hxs : xs.getLast? <;> rw [hxs] at hlast <;> exact Option.some.inj hlast

theorem entries_foldl_push (a : RelayStore) (xs : List ChainEntry) :
    (xs.foldl push a).entries = a.entries ++ xs := by
  induction xs generalizing a with
  | nil => exact (List.append_nil _).symm
  | cons x xs ih =>
    rw [List.foldl_cons, ih]
    simp [entries, push]

theorem submit_of_lt {a : RelayStore} {x : ChainEntry} (h : a.best.height < x.height) (xs : List ChainEntry) :
    (∃ r, (a.submit (x :: xs)).1 = .ok r) ∧ (a.submit (x :: xs)).2.entries = a.entries ++ (x :: xs) := by
  simp only [submit, List.head?_cons, if_neg (Nat.not_le.mpr h)]
  exact ⟨⟨_, rfl⟩, entries_foldl_push a (x :: xs)⟩

end Sim.RelayStore

namespace Sync.Batched

/-! ## What the engine keeps -/

/-- The queue and the relay against the heights queued so far: `stored` of them are with the relay, whose
entries before were `start`; `rest` are not, and wait in the queue behind `stale`, which the relay has but
the engine does not know of. -/
structure Tracks (chain : Nat → Header) (maxInterval checked : Nat) (start : Sim.RelayStore)
    (stored stale rest : List Nat) (s : State Header) (e : ConsensusPeers) : Prop where
  maxInterval : s.maxInterval = maxInterval
  checked : s.checkedHeight = checked
  contractBest : ∀ b, s.contractBest = some b → b = chain b.height
  queued : e.queued = stored ++ rest
  ascending : (start.best.height :: e.queued).Pairwise (· < ·)
  seen : s.lastSeenHeight = e.queued.getLast?.getD 0
  entries : e.store.entries = start.entries ++ stored.map fun h => (chain h).entry
  pending : s.pending = (stale ++ rest).map chain
  stale : stale <:+ stored

variable {chain : Nat → Header} {knows tops : Nat → Prop} {faulty : Prop} {m checked : Nat}
  {start : Sim.RelayStore}
  {stored stale rest : List Nat} {s : State Header} {e : ConsensusPeers}

theorem Tracks.fresh (chain : Nat → Header) (maxInterval : Nat) (client : Sim.ConsensusClient)
    (start : Sim.RelayStore) :
    Tracks chain maxInterval 0 start [] [] [] (State.fresh maxInterval) ⟨client, start, []⟩ where
  maxInterval := rfl
  checked := rfl
  contractBest := by rintro b ⟨⟩
  queued := rfl
  ascending := List.pairwise_singleton _ _
  seen := rfl
  entries := (List.append_nil _).symm
  pending := rfl
  stale := List.suffix_rfl

namespace Tracks

theorem withBest {height : Nat} (h : Tracks chain m checked start stored stale rest s e)
    (hheight : ∀ h, (chain h).height = h) :
    Tracks chain m checked start stored stale rest { s with contractBest := some (chain height) } e :=
  { h with contractBest := by rintro b ⟨⟩; rw [hheight] }

theorem bestHeight (h : Tracks chain m checked start stored stale rest s e)
    (hheight : ∀ h, (chain h).height = h) :
    e.store.best.height = stored.getLast?.getD start.best.height := by
  rw [Sim.RelayStore.best_of_entries h.entries, List.getLast?_map]
  cases stored.getLast? with
  | none => rfl
  | some x => exact hheight x

/-- What the relay has is not above its best height, and what waits is. -/
theorem between (h : Tracks chain m checked start stored stale rest s e)
    (hheight : ∀ h, (chain h).height = h) :
    (∀ a ∈ stored, a ≤ e.store.best.height) ∧ ∀ b ∈ rest, e.store.best.height < b := by
  have hasc := h.ascending
  rw [h.queued, ← List.cons_append] at hasc
  obtain ⟨hstored, -, hcross⟩ := List.pairwise_append.mp hasc
  rw [h.bestHeight hheight]
  cases hlast : stored.getLast? with
  | none =>
    obtain rfl := List.getLast?_eq_none_iff.mp hlast
    exact ⟨by simp, fun b hb => hcross _ List.mem_cons_self b hb⟩
  | some x =>
    obtain ⟨init, rfl⟩ := List.getLast?_eq_some_iff.mp hlast
    refine ⟨fun a ha => ?_, fun b hb => hcross x (by simp) b hb⟩
    rw [← List.cons_append] at hstored
    rcases List.mem_append.mp ha with ha | ha
    · exact Nat.le_of_lt ((List.pairwise_append.mp hstored).2.2 a (List.mem_cons_of_mem _ ha) x (by simp))
    · exact Nat.le_of_eq (List.mem_singleton.mp ha)

end Tracks

/-! ## The phases of a cycle -/

theorem ensures_storedHeader (hheight : ∀ h, (chain h).height = h)
    (h : Tracks chain m checked start stored stale rest s e) (hknows : knows e.store.best.height)
    (hhash : ¬ faulty → (chain e.store.best.height).hash = e.store.best.hash) :
    storedHeader.Ensures ((consensusPeers chain knows tops).failing faulty) s e
      (fun header s' e' => header = chain e.store.best.height ∧
        Tracks chain m checked start stored stale rest s' e' ∧ s'.pending = s.pending ∧ e' = e)
      fun _ s' e' => faulty ∧ Tracks chain m checked start stored stale rest s' e' := by
  refine Cycle.ensures_bind.mpr (Cycle.ensures_read_failing (c := .relayStore .bestHeight)
    (reads_store (fun _ => trivial) rfl) ?_
    fun _ hf => ⟨hf.resolve_right (absurd trivial), h⟩)
  rintro _ rfl
  refine Cycle.ensures_bind.mpr (Cycle.ensures_get.mpr ?_)
  split
  · rename_i known hknown
    obtain ⟨hbest, hsame⟩ := Option.filter_eq_some_iff.mp hknown
    have hchain := h.contractBest known hbest
    rw [of_decide_eq_true hsame] at hchain
    exact ⟨hchain, h, rfl, rfl⟩
  · refine Cycle.ensures_bind.mpr (Cycle.ensures_read_failing (c := .relayStore .bestHash)
      (reads_store (fun _ => trivial) rfl) ?_
      fun _ hf => ⟨hf.resolve_right (absurd trivial), h⟩)
    rintro _ rfl
    refine Cycle.ensures_bind.mpr (ensures_readHeader hknows ?_ fun _ hf => ⟨hf, h⟩)
    refine Cycle.ensures_ite (fun hne => ⟨?_, h⟩) fun _ => ⟨rfl, h.withBest hheight, rfl, rfl⟩
    by_cases hf : faulty
    · exact hf
    · exact absurd (hhash hf) hne

theorem dropWhile_map (hheight : ∀ h, (chain h).height = h) {b : Nat} {xs ys : List Nat}
    (hxs : ∀ x ∈ xs, x ≤ b) (hys : ∀ y ∈ ys, b < y) :
    ((xs ++ ys).map chain).dropWhile (fun h => h.height ≤ b) = ys.map chain := by
  induction xs with
  | nil =>
    cases ys with
    | nil => rfl
    | cons y ys =>
      have hy := hys y List.mem_cons_self
      rw [List.nil_append, List.map_cons, List.dropWhile_cons_of_neg]
      simp only [hheight, decide_eq_true_eq]
      omega
  | cons x xs ih =>
    rw [List.cons_append, List.map_cons, List.dropWhile_cons_of_pos]
    · exact ih fun a ha => hxs a (List.mem_cons_of_mem x ha)
    · simp only [hheight, decide_eq_true_eq]
      exact hxs x List.mem_cons_self

theorem dropWhile_eq_filter {queue : List Header} (h : queue.Pairwise fun a b => a.height < b.height) (best : Nat) :
    queue.dropWhile (fun h => h.height ≤ best) = queue.filter fun h => best < h.height := by
  induction queue with
  | nil => rfl
  | cons x queue ih =>
    obtain ⟨hx, hqueue⟩ := List.pairwise_cons.mp h
    by_cases hle : x.height ≤ best
    · rw [List.dropWhile_cons_of_pos (by rwa [decide_eq_true_eq]),
        List.filter_cons_of_neg (by rw [decide_eq_true_eq]; omega), ih hqueue]
    · rw [List.dropWhile_cons_of_neg (by rwa [decide_eq_true_eq]), Eq.comm, List.filter_eq_self]
      intro y hy
      rw [decide_eq_true_eq]
      rcases List.mem_cons.mp hy with rfl | hy
      · omega
      · have := hx y hy
        omega

theorem ensures_dropStored (hheight : ∀ h, (chain h).height = h)
    (h : Tracks chain m checked start stored stale rest s e)
    {err : RelayError → State Header → ConsensusPeers → Prop} :
    (dropStored (chain e.store.best.height).height).Ensures
      ((consensusPeers chain knows tops).failing faulty) s e
      (fun _ s' e' => Tracks chain m checked start stored [] rest s' e' ∧
        s'.pending = s.pending.dropWhile (fun h => h.height ≤ e.store.best.height) ∧ e' = e) err := by
  rw [hheight]
  obtain ⟨hstored, hrest⟩ := h.between hheight
  have hdrop : s.pending.dropWhile (fun h => h.height ≤ e.store.best.height) = rest.map chain := by
    rw [h.pending]
    exact dropWhile_map hheight (fun x hx => hstored x (h.stale.subset hx)) hrest
  have htracks : Tracks chain m checked start stored [] rest
      { s with pending := s.pending.dropWhile fun h => h.height ≤ e.store.best.height } e :=
    { h with pending := hdrop, stale := List.nil_suffix }
  refine Cycle.ensures_bind.mpr (Cycle.ensures_get.mpr (Cycle.ensures_bind.mpr (Cycle.ensures_modify.mpr ?_)))
  exact Cycle.ensures_ite (fun _ => ensures_log (by decide) ⟨htracks, rfl, rfl⟩) fun _ => ⟨htracks, rfl, rfl⟩

theorem ensures_readHeaders {count height : Nat} {ok : List Header → State Header → ConsensusPeers → Prop}
    {err : RelayError → State Header → ConsensusPeers → Prop}
    (hknows : ∀ h, height ≤ h → h < height + count → knows h)
    (hok : ok ((List.range' height count).map chain) s e)
    (herr : ∀ x, faulty → err x s e) :
    (readHeaders count height).Ensures ((consensusPeers chain knows tops).failing faulty) s e ok err := by
  induction count generalizing height ok with
  | zero => exact hok
  | succ count ih =>
    rw [List.range'_succ] at hok
    refine Cycle.ensures_bind.mpr (ensures_readHeader (hknows height (Nat.le_refl _) (by omega)) ?_ herr)
    exact Cycle.ensures_bind.mpr (ih (fun h hlo hhi => hknows h (by omega) (by omega)) hok)

theorem queuedHeight?_queued (height : Nat) :
    queuedHeight? (Log.ofEngine engine .debug "Header queued" [("height", .nat height)]) = some height := by
  simp [queuedHeight?, Log.ofEngine, Json.nat, List.lookup_cons]

theorem Tracks.enqueue {x : Nat} (h : Tracks chain m checked start stored stale rest s e)
    (hheight : ∀ h, (chain h).height = h) (hstart : start.best.height < x) (hqueued : ∀ y ∈ e.queued, y < x) :
    Tracks chain m checked start stored stale (rest ++ [x])
      { s with lastSeenHeight := (chain x).height, pending := s.pending ++ [chain x] }
      { e with queued := e.queued ++ [x] } := by
  refine { h with queued := ?_, ascending := ?_, seen := ?_, pending := ?_ }
  · show e.queued ++ [x] = stored ++ (rest ++ [x])
    rw [h.queued, List.append_assoc]
  · show (start.best.height :: (e.queued ++ [x])).Pairwise (· < ·)
    rw [← List.cons_append]
    refine List.pairwise_append.mpr ⟨h.ascending, List.pairwise_singleton _ _, fun a ha b hb => ?_⟩
    obtain rfl := List.mem_singleton.mp hb
    rcases List.mem_cons.mp ha with rfl | ha
    · exact hstart
    · exact hqueued a ha
  · show (chain x).height = (e.queued ++ [x]).getLast?.getD 0
    rw [hheight, List.getLast?_concat]
    rfl
  · show s.pending ++ [chain x] = (stale ++ (rest ++ [x])).map chain
    simp [h.pending]

/-- **Queueing.** Ascending heights above all that the engine has seen and the relay has join the queue. -/
theorem ensures_enqueue (hheight : ∀ h, (chain h).height = h) {heights : List Nat}
    (h : Tracks chain m checked start stored stale rest s e) (hasc : heights.Pairwise (· < ·))
    (habove : ∀ x ∈ heights, start.best.height < x ∧ ∀ y ∈ e.queued, y < x)
    {err : RelayError → State Header → ConsensusPeers → Prop} :
    (enqueue (heights.map chain)).Ensures ((consensusPeers chain knows tops).failing faulty) s e
      (fun _ s' e' => Tracks chain m checked start stored stale (rest ++ heights) s' e' ∧
        e' = { e with queued := e.queued ++ heights }) err := by
  induction heights generalizing s e rest with
  | nil =>
    have he : e = { e with queued := e.queued ++ [] } := by rw [List.append_nil]
    rw [List.append_nil]
    exact ⟨h, he⟩
  | cons x heights ih =>
    obtain ⟨hx, hasc'⟩ := List.pairwise_cons.mp hasc
    obtain ⟨hstart, hqueued⟩ := habove x List.mem_cons_self
    refine Cycle.ensures_bind.mpr (Cycle.ensures_log.mpr (Cycle.ensures_bind.mpr (Cycle.ensures_modify.mpr ?_)))
    have hhear : e.hear (Log.ofEngine engine .debug "Header queued" [("height", .nat (chain x).height)]) =
        { e with queued := e.queued ++ [x] } := by
      rw [ConsensusPeers.hear, queuedHeight?_queued, hheight]
      rfl
    have hrest := ih (h.enqueue hheight hstart hqueued) hasc'
      (fun y hy => ⟨(habove y (List.mem_cons_of_mem x hy)).1, fun z hz => ?_⟩)
    · show Cycle.Ensures _ _ _ (e.hear _) _ _
      rw [hhear]
      refine Cycle.Ensures.mono hrest ?_ fun _ _ _ hx => hx
      rintro u s' e' ⟨h', rfl⟩
      rw [List.append_assoc] at h'
      refine ⟨h', ?_⟩
      simp
    · rcases List.mem_append.mp hz with hz | hz
      · exact (habove y (List.mem_cons_of_mem x hy)).2 z hz
      · obtain rfl := List.mem_singleton.mp hz
        exact hx y hy

/-! ## Flushing -/

/-- Light blocks of the headers at some heights, each with its own commit. -/
def Signed (chain : Nat → Header) (heights : List Nat) (blocks : List LightBlock) : Prop :=
  blocks.map LightBlock.header = heights.map chain ∧ ∀ b ∈ blocks, b.signedHeader.commit.blockHash = b.hash

theorem Signed.entries {heights : List Nat} {blocks : List LightBlock} (h : Signed chain heights blocks) :
    (blocks.map fun b => b.header.entry) = heights.map fun h => (chain h).entry := by
  have := congrArg (List.map Header.entry) h.1
  rwa [List.map_map, List.map_map] at this

theorem Signed.checkRun (hheight : ∀ h, (chain h).height = h) {heights : List Nat} {blocks : List LightBlock}
    {last : Nat} (h : Signed chain heights blocks) (hasc : (last :: heights).Pairwise (· < ·)) :
    Sim.ConsensusClient.checkRun last blocks = .ok () := by
  induction blocks generalizing last heights with
  | nil => rfl
  | cons b blocks ih =>
    obtain ⟨hheaders, hsigned⟩ := h
    cases heights with
    | nil => cases hheaders
    | cons x heights =>
      obtain ⟨hb, hheaders⟩ := List.cons.inj hheaders
      have hbheight : b.height = x := by rw [LightBlock.height, hb, hheight]
      obtain ⟨hlast, hasc'⟩ := List.pairwise_cons.mp hasc
      have hx := hlast x List.mem_cons_self
      rw [Sim.ConsensusClient.checkRun, if_neg, hbheight]
      · exact ih ⟨hheaders, fun c hc => hsigned c (List.mem_cons_of_mem b hc)⟩ hasc'
      · rintro (hle | hne)
        · omega
        · exact hne (hsigned b List.mem_cons_self)

theorem ensures_lightBlocksOf (hheight : ∀ h, (chain h).height = h) {heights : List Nat}
    {ok : List LightBlock → State Header → ConsensusPeers → Prop}
    {err : RelayError → State Header → ConsensusPeers → Prop}
    (hknows : ∀ h ∈ heights, knows h ∧ knows (h + 1))
    (hok : ∀ blocks, Signed chain heights blocks → ok blocks s e)
    (herr : ∀ x, faulty → err x s e) :
    (lightBlocksOf (heights.map chain)).Ensures
      ((consensusPeers chain knows tops).failing faulty) s e ok err := by
  induction heights generalizing ok with
  | nil => exact hok [] ⟨rfl, by simp⟩
  | cons x heights ih =>
    refine Cycle.ensures_bind.mpr (ensures_lightBlockOf hheight (hknows x List.mem_cons_self)
      (fun b hb hsigned => ?_) herr)
    refine Cycle.ensures_bind.mpr (ih (fun h hh => hknows h (List.mem_cons_of_mem x hh))
      fun blocks hblocks => ?_)
    refine hok (b :: blocks) ⟨?_, fun c hc => ?_⟩
    · rw [List.map_cons, List.map_cons, hb, hblocks.1]
    · rcases List.mem_cons.mp hc with rfl | hc
      · exact hsigned
      · exact hblocks.2 c hc

theorem ensures_submitHashChain (hheight : ∀ h, (chain h).height = h) {batch waiting : List Nat}
    {entries : List ChainEntry}
    (h : Tracks chain m checked start stored [] (batch ++ waiting) s e) (hne : batch ≠ [])
    (hentries : entries = batch.map fun h => (chain h).entry)
    {ok : Relayed Channel.Response → State Header → ConsensusPeers → Prop}
    {err : RelayError → State Header → ConsensusPeers → Prop}
    (hok : ∀ r e', Tracks chain m checked start (stored ++ batch) batch waiting s e' → e'.queued = e.queued →
      e'.client = e.client → ok (.ok r) s e')
    (herr : ∀ x, faulty → ok (.error x) s e ∧
      ∀ e', Tracks chain m checked start (stored ++ batch) batch waiting s e' → ok (.error x) s e') :
    (Cycle.outcome .submit (.relayStore (.submitHashChain entries)) :
      Step (Relayed Channel.Response)).Ensures
        ((consensusPeers chain knows tops).failing faulty) s e ok err := by
  subst hentries
  have hsubmit : ∀ r e', (consensusPeers chain knows tops).answers
      (.relayStore (.submitHashChain (batch.map fun h => (chain h).entry))) e r e' →
        (∃ a, r = .ok a) ∧ Tracks chain m checked start (stored ++ batch) batch waiting s e' ∧
          e'.queued = e.queued ∧ e'.client = e.client := by
    rintro r e' ⟨store', hserve, rfl⟩
    have hserve : e.store.submit (batch.map fun h => (chain h).entry) = (r, store') := hserve
    cases batch with
    | nil => exact absurd rfl hne
    | cons x batch =>
      have hlt : e.store.best.height < (chain x).entry.height := by
        show _ < (chain x).height
        rw [hheight]
        exact (h.between hheight).2 x (by simp)
      have hstored := Sim.RelayStore.submit_of_lt hlt (batch.map fun h => (chain h).entry)
      rw [← List.map_cons (f := fun h => (chain h).entry), hserve] at hstored
      obtain ⟨hr, hstore⟩ := hstored
      refine ⟨hr, { h with queued := ?_, entries := ?_, stale := ?_ }, rfl, rfl⟩
      · show e.queued = _
        rw [h.queued, List.append_assoc]
      · show store'.entries = _
        rw [hstore, h.entries, List.map_append, List.append_assoc]
      · exact List.suffix_append ..
  refine Cycle.ensures_outcome.mpr ⟨rfl, fun r e' hr => ?_⟩
  -- answered, failed before it arrived, or taken with the answer lost
  obtain hr | ⟨hf, ⟨x, rfl⟩, rfl | ⟨r, hr⟩⟩ := hr
  · obtain ⟨⟨a, rfl⟩, htracks, hqueued, hclient⟩ := hsubmit r e' hr
    exact hok a e' htracks hqueued hclient
  · exact (herr x hf).1
  · exact (herr x hf).2 e' (hsubmit r e' hr).2.1

/-- **One batch.** The first headers of the queue go to the relay and leave the queue. A failure leaves the
engine as it was, and the relay without them or with them. -/
theorem ensures_sendBatch (hheight : ∀ h, (chain h).height = h) {size : Nat} {batch waiting : List Nat}
    (h : Tracks chain m checked start stored [] (batch ++ waiting) s e) (hsize : batch.length = size)
    (hpos : 0 < size)
    (hknows : ∀ h ∈ batch, knows h ∧ knows (h + 1)) (hrejecting : ¬ faulty → e.client.rejecting = false) :
    (sendBatch size (chain e.store.best.height)).Ensures
      ((consensusPeers chain knows tops).failing faulty) s e
      (fun last s' e' => last = chain e'.store.best.height ∧
        Tracks chain m checked start (stored ++ batch) [] waiting s' e' ∧
        e'.queued = e.queued ∧ e'.client = e.client)
      fun _ s' e' => faulty ∧ s' = s ∧
        (e' = e ∨ Tracks chain m checked start (stored ++ batch) batch waiting s' e') := by
  have hne : batch ≠ [] := by
    rintro rfl
    exact absurd hsize (Nat.ne_of_lt hpos)
  have htake : s.pending.take size = batch.map chain := by
    rw [h.pending, List.nil_append, List.map_append, ← hsize, ← List.length_map (f := chain), List.take_left']
    rfl
  refine Cycle.ensures_bind.mpr (Cycle.ensures_get.mpr (Cycle.ensures_bind.mpr ?_))
  rw [htake]
  refine ensures_lightBlocksOf hheight hknows (fun blocks hblocks => ?_) fun _ hf => ⟨hf, rfl, .inl rfl⟩
  refine Cycle.ensures_bind.mpr (Cycle.ensures_read_failing reads_verify ?_ fun x hbad => ?_)
  · rintro _ rfl
    obtain ⟨x, hx⟩ : ∃ x, batch.head? = some x := ⟨_, List.head?_eq_some_head hne⟩
    obtain ⟨l, hl⟩ : ∃ l, batch.getLast? = some l := ⟨_, List.getLast?_eq_some_getLast hne⟩
    rw [hblocks.entries, List.head?_map, List.getLast?_map, List.getLast?_map, hx, hl]
    refine Cycle.ensures_ite (fun hne => absurd rfl hne) fun _ => ?_
    refine Cycle.ensures_bind.mpr (ensures_submitHashChain hheight h hne rfl ?_ ?_)
    · intro r e' htracks hqueued hclient
      refine Cycle.ensures_bind.mpr (ensures_log (by decide)
        (Cycle.ensures_bind.mpr (Cycle.ensures_modify.mpr ?_)))
      refine ⟨?_, { htracks with pending := ?_, stale := List.nil_suffix }, hqueued, hclient⟩
      · rw [htracks.bestHeight hheight, List.getLast?_append, hl]
        rfl
      · show s.pending.drop (batch.map chain).length = waiting.map chain
        rw [htracks.pending, List.map_append, List.drop_left]
    · intro x hf
      refine ⟨Cycle.ensures_bind.mpr (ensures_log (by decide) ⟨hf, rfl, .inl rfl⟩), fun e' htracks => ?_⟩
      exact Cycle.ensures_bind.mpr (ensures_log (by decide) ⟨hf, rfl, .inr htracks⟩)
  · refine ⟨?_, rfl, .inl rfl⟩
    by_cases hf : faulty
    · exact hf
    · refine absurd ⟨hrejecting hf, ?_⟩ (hbad.resolve_left hf)
      rw [hheight]
      refine hblocks.checkRun hheight (List.pairwise_cons.mpr ⟨fun y hy => ?_, ?_⟩)
      · exact (h.between hheight).2 y (List.mem_append_left _ hy)
      · have hasc := h.ascending
        rw [h.queued] at hasc
        have hrest := (List.pairwise_append.mp (List.pairwise_cons.mp hasc).2).2.1
        exact (List.pairwise_append.mp hrest).1

/-- **Batches.** Each batch builds on the one before; what is counted is what left the queue. -/
theorem ensures_sendBatches (hheight : ∀ h, (chain h).height = h) {size count : Nat} {report : Report}
    (h : Tracks chain m checked start stored [] rest s e) (hpos : 0 < size)
    (hcount : count * size ≤ rest.length)
    (hknows : ∀ h ∈ rest, knows h ∧ knows (h + 1)) (hrejecting : ¬ faulty → e.client.rejecting = false) :
    (sendBatches size count (chain e.store.best.height) report).Ensures
      ((consensusPeers chain knows tops).failing faulty) s e
      (fun r s' e' =>
        Tracks chain m checked start (stored ++ rest.take (count * size)) []
          (rest.drop (count * size)) s' e' ∧
        e'.queued = e.queued ∧ e'.client = e.client ∧
        r = { report with submitted := report.submitted + count * size, batches := report.batches + count })
      fun _ s' e' => faulty ∧ ∃ stored stale rest, Tracks chain m checked start stored stale rest s' e' := by
  induction count generalizing stored rest s e report with
  | zero =>
    rw [Nat.zero_mul, List.take_zero, List.drop_zero, List.append_nil]
    exact ⟨h, rfl, rfl, rfl⟩
  | succ count ih =>
    have hmul : (count + 1) * size = size + count * size := by rw [Nat.succ_mul, Nat.add_comm]
    have hbatch : (rest.take size).length = size := List.length_take_of_le (by omega)
    have hlength : s.pending.length = rest.length := by rw [h.pending, List.nil_append, List.length_map]
    have hsplit : rest = rest.take size ++ rest.drop size := (List.take_append_drop ..).symm
    have hfirst := h
    rw [hsplit] at hfirst
    refine Cycle.ensures_bind.mpr (Cycle.ensures_get.mpr (Cycle.ensures_bind.mpr ?_))
    refine Cycle.Ensures.mono (ensures_sendBatch hheight hfirst hbatch hpos
      (fun x hx => hknows x (List.mem_of_mem_take hx)) hrejecting) ?_ ?_
    · rintro tip s₁ e₁ ⟨rfl, h₁, hqueued, hclient⟩
      refine Cycle.ensures_bind.mpr (Cycle.ensures_get.mpr (Cycle.ensures_bind.mpr (Cycle.ensures_modify.mpr ?_)))
      have hlength₁ : s₁.pending.length = rest.length - size := by
        rw [h₁.pending, List.nil_append, List.length_map, List.length_drop]
      refine Cycle.Ensures.mono (ih (h₁.withBest hheight) (by rw [List.length_drop]; omega)
        (fun x hx => hknows x (List.mem_of_mem_drop hx)) (by rwa [hclient])) ?_ fun _ _ _ h => h
      rintro r s' e' ⟨h', hqueued', hclient', rfl⟩
      rw [List.append_assoc, ← List.take_add, List.drop_drop, ← hmul] at h'
      refine ⟨h', hqueued'.trans hqueued, hclient'.trans hclient, ?_⟩
      simp only [Report.mk.injEq, true_and, and_true]
      omega
    · rintro x s' e' ⟨hf, rfl, rfl | h'⟩
      · exact ⟨hf, _, _, _, h⟩
      · exact ⟨hf, _, _, _, h'⟩

/-- **Flushing.** All full batches go to the relay, and less than a batch still waits. -/
theorem ensures_sendFull (hheight : ∀ h, (chain h).height = h) {size : Nat} {report : Report}
    (h : Tracks chain m checked start stored [] rest s e) (hpos : 0 < size)
    (hknows : ∀ h ∈ rest, knows h ∧ knows (h + 1)) (hrejecting : ¬ faulty → e.client.rejecting = false) :
    (sendBatches size (s.pending.length / size) (chain e.store.best.height) report).Ensures
      ((consensusPeers chain knows tops).failing faulty) s e
      (fun r s' e' => ∃ drained waiting, rest = drained ++ waiting ∧ waiting.length < size ∧
        Tracks chain m checked start (stored ++ drained) [] waiting s' e' ∧
        e'.queued = e.queued ∧ e'.client = e.client ∧ ∃ count, count * size = drained.length ∧
        r = { report with submitted := report.submitted + drained.length, batches := report.batches + count })
      fun _ s' e' => faulty ∧ ∃ stored stale rest, Tracks chain m checked start stored stale rest s' e' := by
  have hlength : s.pending.length = rest.length := by rw [h.pending, List.nil_append, List.length_map]
  have hdiv := Nat.div_add_mod' rest.length size
  have hmod := Nat.mod_lt rest.length hpos
  rw [hlength]
  refine Cycle.Ensures.mono (ensures_sendBatches hheight h hpos (Nat.div_mul_le_self ..) hknows hrejecting) ?_
    fun _ _ _ hx => hx
  rintro report' s' e' ⟨h', hqueued, hclient, rfl⟩
  have htake : (rest.take (rest.length / size * size)).length = rest.length / size * size :=
    List.length_take_of_le (by omega)
  refine ⟨_, _, (List.take_append_drop ..).symm, ?_, h', hqueued, hclient, rest.length / size, htake.symm, ?_⟩
  · rw [List.length_drop]
    omega
  · rw [htake]

/-! ## Selection -/

/-- The height queued last, or the relay's best at the start. -/
def lastQueued (start : Sim.RelayStore) (e : ConsensusPeers) : Nat := e.queued.getLast?.getD start.best.height

namespace Tracks

theorem getLast?_rest (h : Tracks chain m checked start stored stale rest s e)
    (hheight : ∀ h, (chain h).height = h) :
    rest.getLast?.getD e.store.best.height = lastQueued start e := by
  rw [lastQueued, h.queued, List.getLast?_append, h.bestHeight hheight]
  cases rest.getLast? <;> rfl

theorem max_seen (h : Tracks chain m checked start stored stale rest s e)
    (hheight : ∀ h, (chain h).height = h) :
    max e.store.best.height s.lastSeenHeight = lastQueued start e := by
  rw [h.seen, lastQueued]
  cases hlast : e.queued.getLast? with
  | none =>
    have hnil := List.getLast?_eq_none_iff.mp hlast
    rw [h.queued, List.append_eq_nil_iff] at hnil
    rw [h.bestHeight hheight, hnil.1]
    exact Nat.max_zero _
  | some x =>
    have hle : e.store.best.height ≤ x := by
      have hx := h.getLast?_rest hheight
      rw [lastQueued, hlast] at hx
      cases hrest : rest.getLast? with
      | none =>
        rw [hrest] at hx
        exact Nat.le_of_eq hx
      | some y =>
        rw [hrest] at hx
        obtain rfl : y = x := hx
        exact Nat.le_of_lt ((h.between hheight).2 y (List.mem_of_getLast? hrest))
    exact Nat.max_eq_right hle

theorem le_lastQueued (h : Tracks chain m checked start stored stale rest s e) :
    start.best.height ≤ lastQueued start e ∧ ∀ x ∈ e.queued, x ≤ lastQueued start e := by
  have hasc := h.ascending
  rw [lastQueued]
  cases hlast : e.queued.getLast? with
  | none =>
    rw [List.getLast?_eq_none_iff.mp hlast]
    exact ⟨Nat.le_refl _, by simp⟩
  | some x =>
    obtain ⟨init, hinit⟩ := List.getLast?_eq_some_iff.mp hlast
    rw [hinit, ← List.cons_append] at hasc
    have hcross := (List.pairwise_append.mp hasc).2.2
    refine ⟨Nat.le_of_lt (hcross _ List.mem_cons_self x (by simp)), fun y hy => ?_⟩
    rw [hinit] at hy
    rcases List.mem_append.mp hy with hy | hy
    · exact Nat.le_of_lt (hcross y (List.mem_cons_of_mem _ hy) x (by simp))
    · exact Nat.le_of_eq (List.mem_singleton.mp hy)

end Tracks

/-- What a cycle at a network height selects for the queue. -/
def selection (chain : Nat → Header) (m checked : Nat) (start : Sim.RelayStore) (e : ConsensusPeers)
    (top : Nat) :
    List Nat :=
  due chain m
    (List.range' (max checked (lastQueued start e) + 1) (top - (max checked (lastQueued start e) + 1)))
    (lastQueued start e)

theorem lt_of_mem_selection {top x : Nat} (hx : x ∈ selection chain m checked start e top) :
    lastQueued start e < x ∧ x < top := by
  have := List.mem_range'_1.mp ((due_sublist _ _).subset hx)
  omega

theorem selection_ascending (top : Nat) : (selection chain m checked start e top).Pairwise (· < ·) :=
  List.Pairwise.sublist (due_sublist _ _) List.pairwise_lt_range'

/-- What the rule selects from the headers read, judged against the queue's last. -/
theorem Tracks.dueHeaders_eq (h : Tracks chain m checked start stored [] rest s e)
    (hheight : ∀ h, (chain h).height = h) (top : Nat) :
    dueHeaders s.maxInterval ((List.range' (max checked (lastQueued start e) + 1)
        (top - (max checked (lastQueued start e) + 1))).map chain)
      (s.pending.getLast?.getD (chain e.store.best.height)) =
        (selection chain m checked start e top).map chain := by
  have hlast : s.pending.getLast?.getD (chain e.store.best.height) = chain (lastQueued start e) := by
    rw [h.pending, List.nil_append, List.getLast?_map, ← h.getLast?_rest hheight]
    cases rest.getLast? <;> rfl
  rw [hlast, h.maxInterval, dueHeaders_map]
  rfl

theorem ensures_enqueue_selection (hheight : ∀ h, (chain h).height = h) {top : Nat}
    (h : Tracks chain m checked start stored stale rest s e)
    {err : RelayError → State Header → ConsensusPeers → Prop} :
    (enqueue ((selection chain m checked start e top).map chain)).Ensures
      ((consensusPeers chain knows tops).failing faulty) s e
      (fun _ s' e' =>
        Tracks chain m checked start stored stale (rest ++ selection chain m checked start e top) s' e' ∧
          e' = { e with queued := e.queued ++ selection chain m checked start e top }) err := by
  refine ensures_enqueue hheight h (selection_ascending top) fun x hx => ?_
  have hlt := (lt_of_mem_selection hx).1
  exact ⟨Nat.lt_of_le_of_lt h.le_lastQueued.1 hlt,
    fun y hy => Nat.lt_of_le_of_lt (h.le_lastQueued.2 y hy) hlt⟩

/-! ## One cycle -/

/-- What a cycle that ended well did: `selected` were queued behind what the relay did not have, `drained`
went to the relay from the front, and less than a batch still waits. -/
structure Done (chain : Nat → Header) (size : Nat) (s : State Header) (e : ConsensusPeers) (report : Report)
    (s' : State Header) (e' : ConsensusPeers) (selected drained : List Nat) : Prop where
  queued : e'.queued = e.queued ++ selected
  moved : s.pending.dropWhile (fun h => h.height ≤ e.store.best.height) ++ selected.map chain =
    drained.map chain ++ s'.pending
  entries : e'.store.entries = e.store.entries ++ drained.map fun h => (chain h).entry
  submitted : report.submitted = drained.length
  batches : report.batches * size = drained.length
  checked : report.checkedHeight = s'.checkedHeight
  waiting : s'.pending.length < size

/-- **One cycle.** It queues what the rule selects above all heights seen, up to and without the network
height, which becomes the checked height, and flushes as long as there is a full batch. -/
theorem ensures_runCycle (hheight : ∀ h, (chain h).height = h) {size : Nat}
    (h : Tracks chain m checked start stored stale rest s e) (hknows : knows e.store.best.height)
    (hhash : ¬ faulty → (chain e.store.best.height).hash = e.store.best.hash)
    (hqueue : ∀ h ∈ e.queued, knows h ∧ knows (h + 1))
    (htops : ∀ top, tops top → knows top ∧ ∀ h, lastQueued start e < h → h ≤ top → knows h)
    (hrejecting : ¬ faulty → e.client.rejecting = false) :
    (runCycle size).Ensures ((consensusPeers chain knows tops).failing faulty) s e
      (fun r s' e' => ∃ top drained stored' rest', tops top ∧
        Done chain (max 1 size) s e r s' e' (selection chain m checked start e top) drained ∧
        Tracks chain m (max checked top) start stored' [] rest' s' e' ∧ e'.client = e.client)
      fun _ s' e' => faulty ∧ ∃ checked' stored stale rest,
        Tracks chain m checked' start stored stale rest s' e' := by
  refine Cycle.ensures_bind.mpr (Cycle.Ensures.mono (ensures_storedHeader hheight h hknows hhash) ?_
    fun _ _ _ hx => ⟨hx.1, _, _, _, _, hx.2⟩)
  rintro relayBest s₁ e₁ ⟨rfl, h₁, hpending₁, rfl⟩
  refine Cycle.ensures_bind.mpr (Cycle.Ensures.mono (ensures_dropStored hheight h₁) ?_
    fun _ _ _ hx => hx)
  rintro _ s₂ e₂ ⟨h₂, hpending₂, rfl⟩
  refine Cycle.ensures_bind.mpr (Cycle.ensures_read_failing (c := .consensusNode .latestHeight)
    (reads_node (fun _ => trivial) fun _ h => h) (fun (top : Nat) htop => ?_)
    fun x hx => ⟨hx.resolve_right (absurd trivial), _, _, _, _, h₂⟩)
  obtain ⟨htopknown, hbelow⟩ := htops top htop
  refine Cycle.ensures_bind.mpr (ensures_readHeader htopknown ?_ fun x hf => ⟨hf, _, _, _, _, h₂⟩)
  refine Cycle.ensures_bind.mpr (Cycle.ensures_modify.mpr (Cycle.ensures_bind.mpr (Cycle.ensures_get.mpr
    (Cycle.ensures_bind.mpr (ensures_log (by decide) (Cycle.ensures_bind.mpr ?_))))))
  have h₃ : Tracks chain m checked start stored [] rest { s₂ with networkBest := some (chain top) } e₂ :=
    { h₂ with maxInterval := h₂.maxInterval }
  -- what is in the queue or with the relay is at most the height queued last
  have hstart : max (max s₂.checkedHeight (chain e₂.store.best.height).height) s₂.lastSeenHeight + 1 =
      max checked (lastQueued start e₂) + 1 := by
    rw [hheight, h₂.checked, Nat.max_assoc, h₂.max_seen hheight]
  show Cycle.Ensures _ (readHeaders
    (top - (max (max s₂.checkedHeight (chain e₂.store.best.height).height) s₂.lastSeenHeight + 1))
    (max (max s₂.checkedHeight (chain e₂.store.best.height).height) s₂.lastSeenHeight + 1)) _ _ _ _
  rw [hstart]
  refine ensures_readHeaders (fun x hlo hhi => hbelow x (by omega) (by omega)) (Cycle.ensures_bind.mpr ?_)
    fun x hf => ⟨hf, _, _, _, _, h₃⟩
  show Cycle.Ensures _ (enqueue (dueHeaders s₂.maxInterval _ (s₂.pending.getLast?.getD
    (chain e₂.store.best.height)))) _ _ _ _
  rw [h₂.dueHeaders_eq hheight]
  refine Cycle.Ensures.mono (ensures_enqueue_selection hheight h₃) ?_ fun _ _ _ hx => hx
  rintro _ s₄ e₄ ⟨h₄, rfl⟩
  refine Cycle.ensures_bind.mpr (Cycle.ensures_modify.mpr (Cycle.ensures_bind.mpr (Cycle.ensures_get.mpr
    (Cycle.ensures_bind.mpr ?_))))
  have h₅ : Tracks chain m (max checked top) start stored [] (rest ++ selection chain m checked start e₂ top)
      (s₄.raiseChecked top) { e₂ with queued := e₂.queued ++ selection chain m checked start e₂ top } :=
    { h₄ with checked := by rw [State.checkedHeight_raiseChecked, h₄.checked] }
  -- below the network height, so the next header is there to sign it
  have hwaiting : ∀ x ∈ rest ++ selection chain m checked start e₂ top, knows x ∧ knows (x + 1) := by
    intro x hx
    rcases List.mem_append.mp hx with hx | hx
    · exact hqueue x (by rw [h₂.queued]; exact List.mem_append_right _ hx)
    · have := lt_of_mem_selection hx
      exact ⟨hbelow x this.1 (by omega), hbelow (x + 1) (by omega) this.2⟩
  refine Cycle.Ensures.mono (ensures_sendFull hheight h₅ (by omega : 0 < max 1 size) hwaiting hrejecting) ?_
    fun _ _ _ hx => ⟨hx.1, _, hx.2⟩
  rintro report s₆ e₆ ⟨drained, waiting, hall, hless, h₆, hqueued, hclient, count, hcount, rfl⟩
  refine Cycle.ensures_bind.mpr (Cycle.ensures_get.mpr (Cycle.ensures_bind.mpr (ensures_log (by decide) ?_)))
  refine ⟨top, drained, _, _, htop, ⟨hqueued, ?_, ?_, ?_, ?_, ?_, ?_⟩, h₆, hclient⟩
  · rw [← hpending₁, ← hpending₂, h₂.pending, List.nil_append, ← List.map_append, hall, h₆.pending,
      List.nil_append, ← List.map_append]
  · rw [h₆.entries, List.map_append, ← List.append_assoc, ← h₂.entries]
  · exact Nat.zero_add _
  · rw [← hcount]
    exact congrArg (· * max 1 size) (Nat.zero_add _)
  · rw [h₆.checked]
    exact h₅.checked
  · rw [h₆.pending, List.nil_append, List.length_map]
    exact hless

end Sync.Batched

end HeaderRelay
