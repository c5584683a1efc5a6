import HeaderRelay.Proofs.BatchedSync
import HeaderRelay.Proofs.ConsensusSubmissions
import HeaderRelay.Proofs.PlayedRaces

/-!
# Batched engines that race

Any number of batched engines over one node share a relay and a light client. The best height that an engine reads at
the start of its cycle may be outdated when it appends, and the relay looks at the first entry of a chain only. What
keeps the relay in order is the queue of each engine: headers of the node at rising heights (`Queues`), which a cycle
cuts at the best height that it has read (`Pruned`) and extends at its end, whatever others have appended meanwhile.

Results:
* `Consistent.submit`: a chain of headers at rising heights leaves the relay in order, taken or refused.
* `keeps_view`: a cycle among others keeps its queue so and appends first headers of it only, after it has dropped what
  the relay had when it was asked.
* `racing_engines_consistent`: what follows for every race.
-/
namespace HeaderRelay.Sync.Batched

open Consensus (Header LightBlock ChainEntry)
open HeaderRelay.Cycle (View)
open Peer (Call Conduct)

/-! ## The relay -/

/-- The entries of the relay rise, and those that were not there at the start are the node's. -/
structure Consistent (chain : Nat → Header) (start store : Sim.RelayStore) : Prop where
  ascending : (store.entries.map ChainEntry.height).Pairwise (· < ·)
  added : ∃ heights : List Nat, store.entries = start.entries ++ heights.map fun h => (chain h).entry

section Relay

variable {chain : Nat → Header} {start store : Sim.RelayStore} {heights : List Nat}

theorem le_best (h : (store.entries.map ChainEntry.height).Pairwise (· < ·)) :
    ∀ x ∈ store.entries.map ChainEntry.height, x ≤ store.best.height := by
  rw [Sim.RelayStore.entries, List.reverse_cons, List.map_append] at h ⊢
  intro x hx
  rcases List.mem_append.mp hx with hx | hx
  · exact Nat.le_of_lt ((List.pairwise_append.mp h).2.2 x hx _ (by simp))
  · exact Nat.le_of_eq (List.mem_singleton.mp hx)

/-- **Appending.** A chain of the node's headers at rising heights is taken in order or refused. -/
theorem Consistent.submit (hheight : ∀ h, (chain h).height = h) (h : Consistent chain start store)
    (hheights : heights.Pairwise (· < ·)) :
    Consistent chain start (store.submit (heights.map fun h => (chain h).entry)).2 := by
  cases heights with
  | nil => exact h
  | cons first rest =>
    by_cases hle : first ≤ store.best.height
    · have hstale : (chain first).entry.height ≤ store.best.height := by
        show (chain first).height ≤ _
        rwa [hheight]
      simp only [List.map_cons, Sim.RelayStore.submit, List.head?_cons, if_pos hstale]
      exact h
    · have hfirst : store.best.height < (chain first).entry.height := by
        show _ < (chain first).height
        rw [hheight]
        omega
      obtain ⟨-, hentries⟩ := Sim.RelayStore.submit_of_lt hfirst (rest.map fun h => (chain h).entry)
      obtain ⟨before, hbefore⟩ := h.added
      rw [List.map_cons]
      refine ⟨?_, before ++ first :: rest, by rw [hentries, hbefore, List.map_append, List.append_assoc]; rfl⟩
      have hmap : (((first :: rest).map fun h => (chain h).entry).map ChainEntry.height) = first :: rest := by
        rw [List.map_map]
        exact (List.map_congr_left fun h _ => hheight h).trans (List.map_id _)
      rw [hentries, List.map_append, ← List.map_cons (f := fun h => (chain h).entry), hmap]
      refine List.pairwise_append.mpr ⟨h.ascending, hheights, fun a ha b hb => ?_⟩
      have hbest := le_best h.ascending a ha
      rcases List.mem_cons.mp hb with rfl | hb
      · omega
      · have := (List.pairwise_cons.mp hheights).1 b hb
        omega

end Relay

/-! ## The queue -/

/-- The queue holds headers of the chain at rising heights, not above the height queued last. -/
structure Queues (chain : Nat → Header) (queue : List Nat) (s : State Header) : Prop where
  pending : s.pending = queue.map chain
  ascending : queue.Pairwise (· < ·)
  seen : ∀ h ∈ queue, h ≤ s.lastSeenHeight

/-- The call appends the first batch of the queue, headers of the chain at rising heights. -/
def Appends (chain : Nat → Header) (batchSize : Nat) (s : State Header) (c : Call) : Prop :=
  ∃ heights : List Nat, heights ≠ [] ∧ heights.Pairwise (· < ·) ∧
    s.pending.take (max 1 batchSize) = heights.map chain ∧
    c = .relayStore (.submitHashChain (heights.map fun h => (chain h).entry))

/-- The cycle has read the relay's best height and dropped exactly the queued headers up to there, before any
submission. -/
def Pruned (began : State Header) (moves : List (Move (State Header))) : Prop :=
  ∃ (best : Nat) (reading : List (Move (State Header))) (m : Move (State Header)) (later : List (Move (State Header))),
    moves = ⟨began, .read "relay.best_height", .relayStore .bestHeight, .ok best⟩ :: reading ++ m :: later ∧
      (∀ m ∈ reading, m.call.isSubmission = false) ∧ m.call = .consensusNode .latestHeight ∧
      m.held.pending = began.pending.filter fun h => best < h.height

/-- What a call of a cycle may be: a submission appends the first batch, after the queue was pruned. -/
def Allowed (chain : Nat → Header) (batchSize : Nat) (began : State Header) (moves : List (Move (State Header)))
    (s : State Header) (c : Call) : Prop :=
  c.isSubmission = true → Appends chain batchSize s c ∧ Pruned began moves

variable {chain : Nat → Header} {start : Sim.RelayStore} {I : ConsensusPeers → Prop} {batchSize : Nat}
  {queue rest : List Nat} {began s : State Header} {moves new : List (Move (State Header))}

theorem Pruned.append (h : Pruned began moves) (new : List (Move (State Header))) : Pruned began (moves ++ new) := by
  obtain ⟨best, reading, m, later, rfl, h⟩ := h
  exact ⟨best, reading, m, later ++ new, by simp, h⟩

theorem allowed_read {c : Call} (h : c.isSubmission = false) : Allowed chain batchSize began moves s c :=
  fun hsub => absurd hsub (by simp [h])

theorem Queues.dropWhile (h : Queues chain queue s) (best : Nat) :
    ∃ queue', Queues chain queue' { s with pending := s.pending.dropWhile fun h => h.height ≤ best } := by
  have hsuffix : s.pending.dropWhile (fun h => h.height ≤ best) <:+ queue.map chain := by
    rw [h.pending]
    exact List.dropWhile_suffix _
  obtain ⟨queue', hqueue', hpending⟩ := List.sublist_map_iff.mp hsuffix.sublist
  exact ⟨queue', hpending, h.ascending.sublist hqueue', fun x hx => h.seen x (hqueue'.subset hx)⟩

theorem Queues.drop (h : Queues chain queue s) (n : Nat) :
    Queues chain (queue.drop n) { s with pending := s.pending.drop n } :=
  ⟨by rw [h.pending, List.map_drop], h.ascending.sublist (List.drop_sublist n queue),
    fun x hx => h.seen x (List.mem_of_mem_drop hx)⟩

theorem Queues.push {x : Nat} (hheight : ∀ h, (chain h).height = h) (h : Queues chain queue s)
    (hx : s.lastSeenHeight < x) :
    Queues chain (queue ++ [x])
      { s with lastSeenHeight := (chain x).height, pending := s.pending ++ [chain x] } := by
  refine ⟨by rw [h.pending, List.map_append]; rfl, ?_, fun y hy => ?_⟩
  · refine List.pairwise_append.mpr ⟨h.ascending, List.pairwise_singleton _ _, fun a ha b hb => ?_⟩
    have := h.seen a ha
    obtain rfl := List.mem_singleton.mp hb
    omega
  · show y ≤ (chain x).height
    rw [hheight]
    rcases List.mem_append.mp hy with hy | hy
    · have := h.seen y hy
      omega
    · exact Nat.le_of_eq (List.mem_singleton.mp hy)

/-! ## A cycle among others -/

/-- The peers on a bad connection, among other engines. -/
abbrev among (chain : Nat → Header) (I : ConsensusPeers → Prop) : Conduct Unit := (unreliablePeers chain).shared I

theorem header_among {height : Nat} {a : Header} {u u' : Unit}
    (h : (among chain I).answers (.consensusNode (.header height)) u (.ok a) u') : a = chain height := by
  obtain ⟨e, e', -, h⟩ := h
  exact (Conduct.answers_of_failing h).1

theorem verified_among {prev : Header} {blocks : List LightBlock} {a : List ChainEntry} {u u' : Unit}
    (h : (among chain I).answers (.consensusClient (.verifyLightBlocks prev blocks)) u (.ok a) u') :
    a = blocks.map fun b : LightBlock => b.header.entry := by
  obtain ⟨e, e', -, h⟩ := h
  obtain ⟨k', h, -⟩ := Conduct.answers_of_failing h
  exact h.2

theorem keeps_storedHeader (hheight : ∀ h, (chain h).height = h) (h : Queues chain queue s) :
    storedHeaderView.Ensures (among chain I) (Allowed chain batchSize s) [] s ()
      (fun header moves' s' _ => ∃ (best : Nat) (reading : List (Move (State Header))),
        moves' = ⟨s, .read "relay.best_height", .relayStore .bestHeight, .ok best⟩ :: reading ∧
          (∀ m ∈ reading, m.call.isSubmission = false) ∧ header.height = best ∧ s'.pending = s.pending ∧
          Queues chain queue s')
      fun _ _ s' _ => Queues chain queue s' := by
  refine View.ensures_bind.mpr (View.ensures_call.mpr ⟨⟨trivial, allowed_read rfl⟩, fun (best : Nat) _ _ => ?_,
    fun _ _ _ => h⟩)
  refine View.ensures_bind.mpr (View.ensures_get.mpr ?_)
  dsimp only
  cases hknown : s.contractBest.filter fun known => known.height = best with
  | some known =>
    exact ⟨best, [], rfl, by simp, of_decide_eq_true (Option.filter_eq_some_iff.mp hknown).2, rfl, h⟩
  | none =>
    refine View.ensures_bind.mpr (View.ensures_call.mpr ⟨⟨trivial, allowed_read rfl⟩, fun (hash : Hash) _ _ => ?_,
      fun _ _ _ => h⟩)
    refine View.ensures_bind.mpr (ensures_readHeaderView.mpr ⟨⟨trivial, allowed_read rfl⟩, fun header _ hheader => ?_,
      fun _ _ _ => h⟩)
    refine View.ensures_ite (fun _ => h) fun _ => ?_
    refine ⟨best, [_, _], rfl, by simp [Call.isSubmission], ?_, rfl, h.pending, h.ascending, h.seen⟩
    rw [header_among hheader, hheight]

theorem keeps_dropStored {best : Nat} {err : RelayError → List (Move (State Header)) → State Header → Unit → Prop}
    (hheight : ∀ h, (chain h).height = h) (h : Queues chain queue s) :
    (dropStoredView best).Ensures (among chain I) (Allowed chain batchSize began) moves s ()
      (fun _ moves' s' _ => moves' = moves ∧ (s'.pending = s.pending.filter fun h => best < h.height) ∧
        ∃ queue', Queues chain queue' s') err := by
  have hdropped : s.pending.dropWhile (fun h => h.height ≤ best) = s.pending.filter fun h => best < h.height := by
    rw [h.pending]
    refine dropWhile_eq_filter (List.pairwise_map.mpr (h.ascending.imp ?_)) best
    intro a b hab
    rwa [hheight, hheight]
  refine View.ensures_bind.mpr (View.ensures_get.mpr (View.ensures_bind.mpr ?_))
  exact View.ensures_ite (fun _ => ⟨rfl, hdropped, h.dropWhile best⟩) fun _ => ⟨rfl, hdropped, h.dropWhile best⟩

theorem keeps_readHeaders {count height : Nat} :
    (readHeadersView count height).Ensures (among chain I) (Allowed chain batchSize began) moves s ()
      (fun headers moves' s' _ => headers = (List.range' height count).map chain ∧ s' = s ∧
        ∃ new, moves' = moves ++ new)
      fun _ _ s' _ => s' = s := by
  induction count generalizing height moves with
  | zero => exact ⟨rfl, rfl, [], (List.append_nil _).symm⟩
  | succ count ih =>
    refine View.ensures_bind.mpr (ensures_readHeaderView.mpr ⟨⟨trivial, allowed_read rfl⟩, fun header _ hheader => ?_,
      fun _ _ _ => rfl⟩)
    refine View.ensures_bind.mpr (ih.mono ?_ fun _ _ _ _ h => h)
    rintro headers _ s' ⟨⟩ ⟨rfl, rfl, new, rfl⟩
    exact ⟨by rw [header_among hheader]; rfl, rfl, _, List.append_assoc ..⟩

theorem keeps_enqueue {headers : List Header}
    {err : RelayError → List (Move (State Header)) → State Header → Unit → Prop}
    (hheight : ∀ h, (chain h).height = h) (h : Queues chain queue s) (hheaders : headers = rest.map chain)
    (hrest : (s.lastSeenHeight :: rest).Pairwise (· < ·)) :
    (enqueueView headers).Ensures (among chain I) (Allowed chain batchSize began) moves s ()
      (fun _ moves' s' _ => moves' = moves ∧ Queues chain (queue ++ rest) s') err := by
  subst hheaders
  induction rest generalizing queue s with
  | nil => exact ⟨rfl, by rwa [List.append_nil]⟩
  | cons x rest ih =>
    obtain ⟨hx, hrest'⟩ := List.pairwise_cons.mp hrest
    have hpush := h.push hheight (hx x List.mem_cons_self)
    refine View.ensures_bind.mpr (View.ensures_bind.mpr ?_)
    rw [List.append_cons]
    refine ih hpush ?_
    show ((chain x).height :: rest).Pairwise _
    rwa [hheight]

/-- A batch is appended, and leaves the queue if the relay took it. -/
theorem keeps_sendBatch {prev : Header} (h : Queues chain queue s) (hpruned : Pruned began moves) :
    (sendBatchView (max 1 batchSize) prev).Ensures (among chain I) (Allowed chain batchSize began) moves s ()
      (fun _ moves' s' _ => Pruned began moves' ∧ ∃ queue', Queues chain queue' s')
      fun _ _ s' _ => ∃ queue', Queues chain queue' s' := by
  refine ensures_sendBatchView (fun _ _ _ hc => allowed_read hc.1) (fun _ _ => trivial) (fun _ _ => trivial)
    (fun _ _ _ => ⟨queue, h⟩) fun blocks new hblocks _ => ⟨⟨trivial, allowed_read rfl⟩, ?_⟩
  rintro attested last _ verified hattested - hlast -
  have hpruned' := (hpruned.append new).append [verified]
  have hbatch : s.pending.take (max 1 batchSize) = (queue.take (max 1 batchSize)).map chain := by
    rw [h.pending, List.map_take]
  have happends : Appends chain batchSize s (.relayStore (.submitHashChain attested)) := by
    refine ⟨queue.take (max 1 batchSize), ?_, h.ascending.sublist (List.take_sublist ..), hbatch, ?_⟩
    · intro hnil
      rw [hbatch, hnil] at hlast
      cases hlast
    · have hentries := congrArg (List.map Header.entry) (hblocks.trans hbatch)
      rw [List.map_map, List.map_map] at hentries
      rw [verified_among hattested]
      exact congrArg (fun c => Call.relayStore (.submitHashChain c)) hentries
  exact ⟨⟨rfl, fun _ => ⟨happends, hpruned'⟩⟩, fun _ _ => ⟨hpruned'.append _, _, h.drop _⟩⟩

theorem keeps_sendBatches {count : Nat} {prev : Header} {report : Report} (h : Queues chain queue s)
    (hpruned : Pruned began moves) :
    (sendBatchesView (max 1 batchSize) count prev report).Ensures (among chain I) (Allowed chain batchSize began) moves
      s () (fun _ _ s' _ => ∃ queue', Queues chain queue' s') fun _ _ s' _ => ∃ queue', Queues chain queue' s' := by
  induction count generalizing prev report queue moves s with
  | zero => exact ⟨queue, h⟩
  | succ count ih =>
    refine View.ensures_bind.mpr (View.ensures_bind.mpr ((keeps_sendBatch h hpruned).mono ?_ fun _ _ _ _ h => h))
    rintro tip moves' s' ⟨⟩ ⟨hpruned', queue', h'⟩
    have hbest : Queues chain queue' { s' with contractBest := some tip } := ⟨h'.pending, h'.ascending, h'.seen⟩
    exact View.ensures_bind.mpr (View.ensures_bind.mpr (ih hbest hpruned'))

theorem exists_dueHeaders (chain : Nat → Header) (m start count : Nat) (last : Header) :
    ∃ due : List Nat, dueHeaders m ((List.range' start count).map chain) last = due.map chain ∧
      due.Pairwise (· < ·) ∧ ∀ x ∈ due, start ≤ x := by
  obtain ⟨due, hdue, heq⟩ := List.sublist_map_iff.mp (dueHeaders_sublist _ last)
  exact ⟨due, heq, List.Pairwise.sublist hdue List.pairwise_lt_range',
    fun x hx => (List.mem_range'_1.mp (hdue.subset hx)).1⟩

/-- **A cycle among others.** It keeps its queue in order, and appends first headers of it only. -/
theorem keeps_view (hheight : ∀ h, (chain h).height = h) (h : Queues chain queue began) :
    (view batchSize).Ensures (among chain I) (Allowed chain batchSize began) [] began ()
      (fun _ _ s' _ => ∃ queue', Queues chain queue' s') fun _ _ s' _ => ∃ queue', Queues chain queue' s' := by
  refine View.ensures_bind.mpr ((keeps_storedHeader hheight h).mono ?_ fun _ _ _ _ h => ⟨queue, h⟩)
  rintro relayBest _ s ⟨⟩ ⟨best, reading, rfl, hreading, rfl, hpending, h⟩
  refine View.ensures_bind.mpr ((keeps_dropStored hheight h).mono ?_ fun _ _ _ _ h => h)
  rintro _ _ s ⟨⟩ ⟨rfl, hfilter, queue, h⟩
  refine View.ensures_bind.mpr (View.ensures_call.mpr ⟨⟨trivial, allowed_read rfl⟩, fun (top : Nat) _ _ => ?_,
    fun _ _ _ => ⟨queue, h⟩⟩)
  have hpruned : Pruned began (⟨began, .read "relay.best_height", .relayStore .bestHeight, .ok relayBest.height⟩ ::
      reading ++ [⟨s, .read "consensus.latest_height", .consensusNode .latestHeight, .ok top⟩]) :=
    ⟨relayBest.height, reading, _, [], rfl, hreading, rfl, by rw [hfilter, hpending]⟩
  revert hpruned
  generalize _ :: reading ++ [_] = moves
  intro hpruned
  refine View.ensures_bind.mpr (ensures_readHeaderView.mpr ⟨⟨trivial, allowed_read rfl⟩, fun networkBest _ _ => ?_,
    fun _ _ _ => ⟨queue, h⟩⟩)
  have hpruned := hpruned.append [⟨s, .read "consensus.header", .consensusNode (.header top), .ok networkBest⟩]
  refine View.ensures_bind.mpr (View.ensures_bind.mpr (View.ensures_get.mpr (View.ensures_bind.mpr ?_)))
  refine View.ensures_bind.mpr (keeps_readHeaders.mono ?_ ?_)
  case refine_2 =>
    rintro _ _ _ ⟨⟩ rfl
    exact ⟨queue, h.pending, h.ascending, h.seen⟩
  rintro headers _ _ ⟨⟩ ⟨rfl, rfl, new, rfl⟩
  have hpruned := hpruned.append new
  -- what is examined lies above all that was ever queued
  obtain ⟨due, hheaders, hrising, habove⟩ := exists_dueHeaders chain s.maxInterval
    (max (max s.checkedHeight relayBest.height) s.lastSeenHeight + 1)
    (top - (max (max s.checkedHeight relayBest.height) s.lastSeenHeight + 1)) (s.pending.getLast?.getD relayBest)
  have hrise : (s.lastSeenHeight :: due).Pairwise (· < ·) := by
    refine List.pairwise_cons.mpr ⟨fun x hx => ?_, hrising⟩
    have := habove x hx
    omega
  have hqueues : Queues chain queue { s with networkBest := some networkBest } := ⟨h.pending, h.ascending, h.seen⟩
  refine View.ensures_bind.mpr ((keeps_enqueue hheight hqueues hheaders hrise).mono ?_ fun _ _ _ _ h => h)
  rintro _ _ s ⟨⟩ ⟨rfl, h⟩
  have hraised : Queues chain (queue ++ due) (s.raiseChecked top) := ⟨h.pending, h.ascending, h.seen⟩
  refine View.ensures_bind.mpr (View.ensures_bind.mpr (View.ensures_get.mpr (View.ensures_bind.mpr ?_)))
  refine (keeps_sendBatches hraised hpruned).mono ?_ fun _ _ _ _ h => h
  rintro report _ s ⟨⟩ hsent
  exact hsent

/-! ## Races -/

/-- The cycle has read the relay's best height when it was `e.store.best.height`, and dropped exactly the queued headers
up to there before any submission. -/
def Dropped (r : Runner ConsensusPeers (State Header) Report) : Prop :=
  ∃ (e e' : ConsensusPeers) (reading : List (ConsensusPeers × Move (State Header))) (m : Move (State Header))
    (later : List (ConsensusPeers × Move (State Header))),
    r.made = (e, ⟨r.began, .read "relay.best_height", .relayStore .bestHeight, .ok e.store.best.height⟩) ::
        reading ++ (e', m) :: later ∧
      (∀ p ∈ reading, p.2.call.isSubmission = false) ∧ m.call = .consensusNode .latestHeight ∧
      m.held.pending = r.began.pending.filter fun h => e.store.best.height < h.height

theorem Pruned.dropped {r : Runner ConsensusPeers (State Header) Report} (h : Pruned r.began r.moves)
    (hmade : ∀ p ∈ r.made, ∃ e', (unreliablePeers chain).answers p.2.call p.1 p.2.answer e') : Dropped r := by
  obtain ⟨best, reading, m, later, hmoves, hreading, hm, hpending⟩ := h
  obtain ⟨before, after, hsplit, hbefore, hafter⟩ := List.map_eq_append_iff.mp hmoves
  obtain ⟨⟨e, first⟩, reading', rfl, rfl, hreading'⟩ := List.map_eq_cons_iff.mp hbefore
  obtain ⟨⟨e', m⟩, later', rfl, rfl, -⟩ := List.map_eq_cons_iff.mp hafter
  -- what the relay answered was its best height
  obtain ⟨e₁, hans⟩ := hmade _ (by rw [hsplit]; exact List.mem_cons_self)
  obtain ⟨k', hserve, -⟩ := Conduct.answers_of_failing hans
  obtain rfl : best = e.store.best.height := (Except.ok.inj (Prod.mk.inj hserve).1).symm
  refine ⟨e, e', reading', m, later', hsplit, fun p hp => ?_, hm, hpending⟩
  exact hreading _ (hreading' ▸ List.mem_map_of_mem hp)

theorem keeps_consistent (hheight : ∀ h, (chain h).height = h) (start : Sim.RelayStore) (batchSize : Nat) :
    Keeps (unreliablePeers chain) (fun e => Consistent chain start e.store) (fun s => ∃ queue, Queues chain queue s)
      (Allowed chain batchSize) (view batchSize).begun where
  cycle := by
    rintro s ⟨queue, h⟩
    refine InProgress.Ensures.mono (keeps_view hheight h) (fun _ _ _ h => h) ?_
    rintro (x | report) moves s' u h <;> exact h
  call := by
    intro began moves s c e r e' he hc hans
    obtain rfl | ⟨r', hans⟩ := Conduct.reached_of_failing hans
    · exact he
    cases c with
    | consensusNode c =>
      obtain ⟨-, rfl⟩ := hans
      exact he
    | consensusClient c =>
      obtain ⟨k', -, rfl⟩ := hans
      exact he
    | relayStore c =>
      obtain ⟨k', hserve, rfl⟩ := hans
      cases c with
      | submitHashChain attested =>
        obtain ⟨⟨heights, -, hrising, -, hcall⟩, -⟩ := hc rfl
        cases hcall
        have hsubmit : e.store.submit _ = _ := hserve
        have hkept := he.submit hheight hrising
        rwa [hsubmit] at hkept
      | _ =>
        cases hserve
        exact he
    | _ => exact hans.elim
  event ev he := he

theorem Appends.refused {s : State Header} {c : Call} {e : ConsensusPeers}
    (h : Appends chain batchSize s c)
    (hlost : ∃ first, s.pending.head? = some first ∧ first.height ≤ e.store.best.height)
    {knows tops : Nat → Prop} {r : Relayed c.Answer} {e' : ConsensusPeers}
    (hans : (consensusPeers chain knows tops).answers c e r e') :
    r = .error (.execution "append_hash_chain" 9 "stale hash chain") ∧ e' = e := by
  obtain ⟨heights, hne, -, htake, rfl⟩ := h
  obtain ⟨k', hserve, rfl⟩ := hans
  obtain ⟨first, hfirst, hle⟩ := hlost
  obtain ⟨x, rest, rfl⟩ := List.exists_cons_of_ne_nil hne
  have hhead : s.pending.head? = some (chain x) := by
    have hsize : max 1 batchSize ≠ 0 := by omega
    have htaken := congrArg List.head? htake
    rwa [List.head?_take, if_neg hsize] at htaken
  rw [hfirst] at hhead
  obtain rfl := Option.some.inj hhead
  have hstale : (chain x).entry.height ≤ e.store.best.height := hle
  simp only [Sim.RelayStore.serve, Sim.RelayStore.submit, List.map_cons, List.head?_cons, if_pos hstale] at hserve
  cases hserve
  exact ⟨rfl, rfl⟩

/-- **Racing engines.** Whatever the order of their calls and whatever fails, the relay's entries rise and those added
are the node's. An engine that is about to append has dropped what the relay had when its cycle began, and makes the
call once; if it fails, the cycle ends with its error and the queue stays. If the first queued header is not above the
relay's best by then, the relay's answer is an execution error, and nothing changes. -/
theorem racing_engines_consistent {ι : Type} [DecidableEq ι] (hheight : ∀ h, (chain h).height = h)
    {sizes intervals : ι → Nat} {start : ConsensusPeers}
    (hstart : (start.store.entries.map ChainEntry.height).Pairwise (· < ·))
    {race : Race ι ConsensusPeers (State Header) Report}
    (h : Race.Reached (unreliablePeers chain) (fun i => (view (sizes i)).begun) start
      (fun i => State.fresh (intervals i)) race) :
    (race.peers.store.entries.map ChainEntry.height).Pairwise (· < ·) ∧
      (∃ heights : List Nat,
        race.peers.store.entries = start.store.entries ++ heights.map fun h => (chain h).entry) ∧
      ∀ i s mode c next, (race.runners i).rest = .ask s mode c next → c.isSubmission = true →
        Dropped (race.runners i) ∧ Appends chain (sizes i) s c ∧ mode = .submit ∧ (∀ x, (next (.error x)).Fails x s) ∧
          ((∃ first, s.pending.head? = some first ∧ first.height ≤ race.peers.store.best.height) →
            ∀ r e', (consensusPeers chain (fun _ => True) fun _ => True).answers c race.peers r e' →
              r = .error (.execution "append_hash_chain" 9 "stale hash chain") ∧ e' = race.peers) := by
  have hfresh : ∀ i, ∃ queue, Queues chain queue (State.fresh (intervals i)) :=
    fun _ => ⟨[], rfl, List.Pairwise.nil, by simp⟩
  have hkeeps : ∀ i, Keeps (unreliablePeers chain) _ _ (Allowed chain (sizes i)) (view (sizes i)).begun :=
    fun i => keeps_consistent hheight start.store (sizes i)
  have hsound := h.sound hkeeps ⟨hstart, [], (List.append_nil _).symm⟩ hfresh
  refine ⟨hsound.peers.ascending, hsound.peers.added, fun i s mode c next hrest hc => ?_⟩
  obtain ⟨happends, hpruned⟩ := ((hsound.runners i).allowed (hkeeps i) hrest).2 hc
  have hyields := ((view (sizes i)).yields _).of_reaches (hsound.runners i).path
  rw [hrest] at hyields
  obtain ⟨hmode, hfails⟩ := hyields.1 hc
  exact ⟨hpruned.dropped (hsound.runners i).made, happends, hmode, hfails,
    fun hlost r e' hans => happends.refused hlost hans⟩

def twoEngines (schedule : List Bool) : Race Bool ConsensusPeers (State Header) Report :=
  Race.play (unreliablePeers plainChain).hears (ConsensusPeers.respond (grow plainChain 13 plainPeers).consensusNode)
    (fun _ => (view 1).begun) ⟨.trusting (plainChain 1), .holding (plainChain 1).entry, []⟩ (fun _ => State.fresh 5)
    schedule

theorem reached_twoEngines (schedule : List Bool) :
    Race.Reached (unreliablePeers plainChain) (fun _ => (view 1).begun)
      ⟨.trusting (plainChain 1), .holding (plainChain 1).entry, []⟩ (fun _ => State.fresh 5) (twoEngines schedule) :=
  Race.reached_play (answers_respond_unreliable (fun _ => rfl)
    ((plainPeers_honest []).toSided.grow (fun _ => rfl) (by decide : 1 ≤ 13)).node) schedule

/-- The queue of an engine that is about to append. -/
def appending? (r : Runner ConsensusPeers (State Header) Report) : Option (List Header) :=
  match r.rest with
  | .ask s _ c _ => if c.isSubmission then some s.pending else none
  | _ => none

theorem exists_of_appending? {r : Runner ConsensusPeers (State Header) Report} {queue : List Header}
    (h : appending? r = some queue) :
    ∃ s mode c next, r.rest = .ask s mode c next ∧ c.isSubmission = true ∧ s.pending = queue := by
  unfold appending? at h
  split at h
  · rename_i s mode c next hrest
    split at h
    · exact ⟨s, mode, c, next, hrest, ‹_›, Option.some.inj h⟩
    · cases h
  · cases h

/-- Both engines queue 6 and 11, and one appends 6 before the other. The other's append is refused and its queue stays;
its next cycle drops 6 and comes to append 11. -/
theorem lost_race_drops_stored :
    (∃ s mode c next,
      ((twoEngines (.replicate 22 true ++ .replicate 23 false)).runners true).rest = .ask s mode c next ∧
        s.pending = [plainChain 6, plainChain 11] ∧ (∀ x, (next (.error x)).Fails x s) ∧
        ∀ r e', (consensusPeers plainChain (fun _ => True) fun _ => True).answers c
            (twoEngines (.replicate 22 true ++ .replicate 23 false)).peers r e' →
          r = .error (.execution "append_hash_chain" 9 "stale hash chain")) ∧
      (∃ s mode c next,
        ((twoEngines (.replicate 22 true ++ .replicate 23 false ++ .replicate 13 true)).runners true).rest =
            .ask s mode c next ∧ s.pending = [plainChain 11]) ∧
      Dropped ((twoEngines (.replicate 22 true ++ .replicate 23 false ++ .replicate 13 true)).runners true) := by
  have hascending : ((Sim.RelayStore.holding (plainChain 1).entry).entries.map ChainEntry.height).Pairwise (· < ·) := by
    decide
  have hconsistent := fun schedule => racing_engines_consistent (fun _ => rfl) hascending (reached_twoEngines schedule)
  have hlost : appending? ((twoEngines (.replicate 22 true ++ .replicate 23 false)).runners true) =
      some [plainChain 6, plainChain 11] := by decide +kernel
  have hbest : (twoEngines (.replicate 22 true ++ .replicate 23 false)).peers.store.best.height = 6 := by
    decide +kernel
  have hnext :
      appending? ((twoEngines (.replicate 22 true ++ .replicate 23 false ++ .replicate 13 true)).runners true) =
        some [plainChain 11] := by decide +kernel
  obtain ⟨s, mode, c, next, hrest, hc, hpending⟩ := exists_of_appending? hlost
  obtain ⟨-, -, -, hfails, hrefused⟩ := (hconsistent _).2.2 true s mode c next hrest hc
  obtain ⟨s', mode', c', next', hrest', hc', hpending'⟩ := exists_of_appending? hnext
  obtain ⟨hdropped, -⟩ := (hconsistent _).2.2 true s' mode' c' next' hrest' hc'
  refine ⟨⟨s, mode, c, next, hrest, hpending, hfails, fun r e' hans => ?_⟩, ⟨s', mode', c', next', hrest', hpending'⟩,
    hdropped⟩
  refine (hrefused ⟨plainChain 6, by rw [hpending]; rfl, ?_⟩ r e' hans).1
  rw [hbest]
  decide

end HeaderRelay.Sync.Batched
