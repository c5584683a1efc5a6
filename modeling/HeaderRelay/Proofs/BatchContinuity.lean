import HeaderRelay.Proofs.BatchedRuns
import HeaderRelay.Proofs.ForeignEntries
import HeaderRelay.Proofs.InclusionRule

/-!
# Batches and the light client's check of continuity

A light client that attests a run of light blocks may check that each is signed by the validator set that the one
before announces (`Announced`). On an honest chain the set that a header announces signs the next height, so the
check holds between two headers of a run exactly if the second is signed by the set that signs the height after the
first. The engine leaves heights out, and the rule by which it does so takes up a header because its validator set is
not the one announced by the header queued before: where it does, the check fails (`attested_run_announced_iff`,
`rotation_breaks_run`).

`Lined` says that the queue, and the relay's best header with what is queued above it, are runs of headers that are
due, each after the one before; from the time when the queue has been pruned it follows the relay's best header
(`Ready`).
-/
namespace HeaderRelay.Sync.Batched

open Consensus (Header LightBlock ChainEntry)
open HeaderRelay.Cycle (View)
open Peer (Call Conduct)

def Announced (a b : Header) : Prop := b.validatorsHash = a.nextValidatorsHash

/-- `b` is signed by the validator set that signs the height after `a`. -/
def SameSigners (chain : Nat → Header) (a b : Header) : Prop :=
  b.validatorsHash = (chain (a.height + 1)).validatorsHash

/-! ## The queue and the relay's best -/

/-- The queue is a run of the node's headers, each due after the one before, and so is what is queued above `best`, the
relay's best height, after the header there. -/
structure Lined (chain : Nat → Header) (m best : Nat) (s : State Header) : Prop where
  genuine : Genuine chain s
  maxInterval : s.maxInterval = m
  seen : ∀ h ∈ s.pending, h.height ≤ s.lastSeenHeight
  queue : s.pending.IsChain (DueAfter m)
  ahead : (chain best :: s.pending.filter fun h => best < h.height).IsChain (DueAfter m)

/-- All of the queue follows the header at `best`, the relay's best height. -/
structure Ready (chain : Nat → Header) (m best : Nat) (s : State Header) : Prop where
  genuine : Genuine chain s
  maxInterval : s.maxInterval = m
  seen : ∀ h ∈ s.pending, h.height ≤ s.lastSeenHeight
  line : (chain best :: s.pending).IsChain (DueAfter m)

variable {chain : Nat → Header} {knows tops : Nat → Prop} {m size best : Nat} {s s₀ : State Header}
  {e e' e₀ : ConsensusPeers} {last : Header} {moves : List (Move (State Header))}

theorem Lined.fresh (chain : Nat → Header) (m best : Nat) : Lined chain m best (State.fresh m) :=
  ⟨.fresh chain m, rfl, nofun, .nil, .singleton _⟩

theorem Lined.withBest (h : Lined chain m best s) {b : Header} (hb : b = chain b.height) :
    Lined chain m best { s with contractBest := some b } :=
  ⟨h.genuine.withBest hb, h.maxInterval, h.seen, h.queue, h.ahead⟩

namespace Ready

theorem withBest (h : Ready chain m best s) {b : Header} (hb : b = chain b.height) :
    Ready chain m best { s with contractBest := some b } :=
  ⟨h.genuine.withBest hb, h.maxInterval, h.seen, h.line⟩

theorem above (hheight : ∀ h, (chain h).height = h) (h : Ready chain m best s) : ∀ x ∈ s.pending, best < x.height := by
  intro x hx
  have hlt := (List.pairwise_cons.mp (rising_of_isChain h.line)).1 x hx
  rwa [hheight] at hlt

theorem lined (hheight : ∀ h, (chain h).height = h) (h : Ready chain m best s) : Lined chain m best s := by
  refine ⟨h.genuine, h.maxInterval, h.seen, h.line.tail, ?_⟩
  rw [List.filter_eq_self.mpr fun x hx => decide_eq_true (h.above hheight x hx)]
  exact h.line

theorem push {x : Header} (h : Ready chain m best s) (hx : x = chain x.height)
    (hdue : DueAfter m (s.pending.getLast?.getD (chain best)) x) (hseen : s.lastSeenHeight ≤ x.height) :
    Ready chain m best { s with lastSeenHeight := x.height, pending := s.pending ++ [x] } := by
  refine ⟨h.genuine.push hx, h.maxInterval, fun y hy => ?_, ?_⟩
  · rcases List.mem_append.mp hy with hy | hy
    · exact Nat.le_trans (h.seen y hy) hseen
    · exact Nat.le_of_eq (congrArg Header.height (List.mem_singleton.mp hy))
  · refine h.line.append (.singleton x) fun a ha b hb => ?_
    rw [List.getLast?_cons, Option.mem_some_iff] at ha
    cases hb
    rwa [← ha]

/-- The header after which the next one is judged lies below all that is examined. -/
theorem last_lt (hheight : ∀ h, (chain h).height = h) (h : Ready chain m best s) {start : Nat} (hbest : best < start)
    (hseen : s.lastSeenHeight < start) : (s.pending.getLast?.getD (chain best)).height < start := by
  cases hlast : s.pending.getLast? with
  | none =>
    rw [Option.getD_none, hheight]
    exact hbest
  | some x => exact Nat.lt_of_le_of_lt (h.seen x (List.mem_of_getLast? hlast)) hseen

end Ready

/-! ## What the peers answer -/

theorem bestHeight_answer {height : Nat}
    (h : (unreliablePeers chain).answers (.relayStore .bestHeight) e (.ok height) e') :
    height = e.store.best.height := by
  obtain ⟨k', hserve, -⟩ := Conduct.answers_of_failing h
  exact (Except.ok.inj (Prod.mk.inj hserve).1).symm

theorem header_answer {height : Nat} {header : Header}
    (h : (unreliablePeers chain).answers (.consensusNode (.header height)) e (.ok header) e') :
    header = chain height :=
  (Conduct.answers_of_failing h).1

theorem verify_answer {blocks : List LightBlock} {attested : List ChainEntry}
    (h : (unreliablePeers chain).answers (.consensusClient (.verifyLightBlocks prev blocks)) e (.ok attested) e') :
    attested = blocks.map fun b : LightBlock => b.header.entry := by
  obtain ⟨k', hanswer, -⟩ := Conduct.answers_of_failing h
  exact hanswer.2

/-- The relay's best entry is the last of a chain that it was asked to append and that begins above the best one. -/
theorem best_submitted {attested : List ChainEntry} {entry : ChainEntry} {r : Relayed Channel.Response}
    (hfirst : ∀ x ∈ attested.head?, e.store.best.height < x.height) (hlast : attested.getLast? = some entry)
    (h : (consensusPeers chain knows tops).answers (.relayStore (.submitHashChain attested)) e r e') :
    e'.store.best = entry := by
  obtain ⟨k', hserve, rfl⟩ := h
  cases attested with
  | nil => cases hlast
  | cons x rest =>
    obtain ⟨-, hentries⟩ := Sim.RelayStore.submit_of_lt (hfirst x rfl) rest
    obtain rfl : (e.store.submit (x :: rest)).2 = k' := congrArg Prod.snd hserve
    show (e.store.submit (x :: rest)).2.best = entry
    rw [Sim.RelayStore.best_of_entries hentries, hlast]
    rfl

/-! ## A cycle -/

/-- A run that is to be attested consists of headers of the node, each due after the one before. -/
def Attests (chain : Nat → Header) (m : Nat) (c : Call) : Prop :=
  ∀ prev blocks, c = .consensusClient (.verifyLightBlocks prev blocks) →
    (∀ h ∈ prev :: blocks.map fun b : LightBlock => b.header, h = chain h.height) ∧
      (prev :: blocks.map fun b : LightBlock => b.header).IsChain (DueAfter m)

theorem attests_of_prepares {c : Call} (hc : Prepares c) : Attests chain m c := by
  rintro prev blocks rfl
  cases hc.2

theorem lined_read {op : String} {c : Call} {hc : c.isSubmission = false}
    {ok : c.Answer → List (Move (State Header)) → State Header → ConsensusPeers → Prop}
    {err : RelayError → List (Move (State Header)) → State Header → ConsensusPeers → Prop}
    (hattends : (unreliablePeers chain).attends (.read op) c) (hprepares : Prepares c)
    (hok : ∀ a moves', (unreliablePeers chain).answers c e (.ok a) e → ok a moves' s e)
    (herr : ∀ x moves', err x moves' s e) :
    (View.read hc : (Cycle.read op c : Cycle (State Header) c.Answer).View).Ensures (unreliablePeers chain)
      (fun _ _ c => Attests chain m c) moves s e ok err := by
  refine View.ensures_call.mpr ⟨⟨hattends, attests_of_prepares hprepares⟩, fun a e' ha => ?_, fun x e' hx => ?_⟩
  · obtain rfl := (unreliablePeers chain).reads hattends ha
    exact hok a _ ha
  · obtain rfl := (unreliablePeers chain).reads hattends hx
    exact herr x _

theorem lined_storedHeader (hheight : ∀ h, (chain h).height = h) (h : Lined chain m e.store.best.height s) :
    storedHeaderView.Ensures (unreliablePeers chain) (fun _ _ c => Attests chain m c) moves s e
      (fun header _ s' e' => header = chain e'.store.best.height ∧ Lined chain m e'.store.best.height s')
      fun _ _ s' e' => Lined chain m e'.store.best.height s' := by
  refine View.ensures_bind.mpr (lined_read trivial ⟨rfl, rfl⟩ (fun (best : Nat) moves hbest => ?_) fun _ _ => h)
  obtain rfl := bestHeight_answer hbest
  refine View.ensures_bind.mpr (View.ensures_get.mpr ?_)
  dsimp only
  cases hknown : s.contractBest.filter fun known => known.height = e.store.best.height with
  | some known =>
    obtain ⟨hbest, hsame⟩ := Option.filter_eq_some_iff.mp hknown
    refine ⟨?_, h⟩
    rw [← of_decide_eq_true hsame]
    exact h.genuine.best known hbest
  | none =>
    refine View.ensures_bind.mpr (lined_read trivial ⟨rfl, rfl⟩ (fun (hash : Hash) moves _ => ?_) fun _ _ => h)
    refine View.ensures_bind.mpr (lined_read trivial ⟨rfl, rfl⟩ (fun header moves hheader => ?_) fun _ _ => h)
    refine View.ensures_ite (fun _ => h) fun _ => ?_
    obtain rfl := header_answer hheader
    exact ⟨rfl, h.withBest (by rw [hheight])⟩

theorem ready_dropStored {err : RelayError → List (Move (State Header)) → State Header → ConsensusPeers → Prop}
    (hheight : ∀ h, (chain h).height = h) (h : Lined chain m e.store.best.height s) :
    (dropStoredView (chain e.store.best.height).height).Ensures (unreliablePeers chain)
      (fun _ _ c => Attests chain m c) moves s e
      (fun _ _ s' e' => Ready chain m e.store.best.height s' ∧ e'.store = e.store) err := by
  have hdropped := dropWhile_eq_filter (rising_of_isChain h.queue) e.store.best.height
  have hsuffix := List.dropWhile_suffix (l := s.pending) fun h : Header => h.height ≤ e.store.best.height
  have hready : Ready chain m e.store.best.height
      { s with pending := s.pending.dropWhile fun h => h.height ≤ e.store.best.height } := by
    refine ⟨h.genuine.subset hsuffix.subset, h.maxInterval, fun x hx => h.seen x (hsuffix.subset hx), ?_⟩
    rw [hdropped]
    exact h.ahead
  rw [hheight]
  refine View.ensures_bind.mpr (View.ensures_get.mpr (View.ensures_bind.mpr ?_))
  exact View.ensures_ite (fun _ => ⟨hready, rfl⟩) fun _ => ⟨hready, rfl⟩

theorem lined_readHeaders {count height : Nat} :
    (readHeadersView count height).Ensures (unreliablePeers chain) (fun _ _ c => Attests chain m c) moves s e
      (fun headers _ s' e' => headers = (List.range' height count).map chain ∧ s' = s ∧ e' = e)
      fun _ _ s' e' => s' = s ∧ e' = e := by
  induction count generalizing height moves with
  | zero => exact ⟨rfl, rfl, rfl⟩
  | succ count ih =>
    refine View.ensures_bind.mpr (lined_read trivial ⟨rfl, rfl⟩ (fun header moves hheader => ?_) fun _ _ => ⟨rfl, rfl⟩)
    refine View.ensures_bind.mpr (ih.mono ?_ fun _ _ _ _ h => h)
    rintro headers _ s' e' ⟨rfl, rfl, rfl⟩
    exact ⟨by rw [header_answer hheader]; rfl, rfl, rfl⟩

theorem ready_enqueue {headers : List Header}
    {err : RelayError → List (Move (State Header)) → State Header → ConsensusPeers → Prop}
    (h : Ready chain m best s) (hheaders : ∀ x ∈ headers, x = chain x.height)
    (hline : (s.pending.getLast?.getD (chain best) :: headers).IsChain (DueAfter m))
    (hseen : ∀ x ∈ headers, s.lastSeenHeight ≤ x.height) :
    (enqueueView headers).Ensures (unreliablePeers chain) (fun _ _ c => Attests chain m c) moves s e
      (fun _ _ s' e' => Ready chain m best s' ∧ e'.store = e.store) err := by
  induction headers generalizing s e with
  | nil => exact ⟨h, rfl⟩
  | cons x headers ih =>
    obtain ⟨hdue, hline⟩ := List.isChain_cons_cons.mp hline
    have hready := h.push (hheaders x List.mem_cons_self) hdue (hseen x List.mem_cons_self)
    refine View.ensures_bind.mpr (View.ensures_bind.mpr ?_)
    refine ih hready (fun y hy => hheaders y (List.mem_cons_of_mem x hy)) ?_ fun y hy => ?_
    · rwa [List.getLast?_concat, Option.getD_some]
    · exact Nat.le_of_lt ((List.pairwise_cons.mp (rising_of_isChain hline)).1 y hy)

/-! ### A batch -/

theorem isChain_last {xs ys : List Header} (h : (xs ++ ys).IsChain (DueAfter m)) (hlast : xs.getLast? = some last) :
    (last :: ys).IsChain (DueAfter m) := by
  obtain ⟨-, hys, hjoin⟩ := List.isChain_append.mp h
  exact hys.cons fun y hy => hjoin last hlast y hy

theorem filter_above_last {xs ys : List Header} (h : (xs ++ ys).IsChain (DueAfter m))
    (hlast : xs.getLast? = some last) : (xs ++ ys).filter (fun h => last.height < h.height) = ys := by
  obtain ⟨init, rfl⟩ := List.getLast?_eq_some_iff.mp hlast
  obtain ⟨hxs, -, hbetween⟩ := List.pairwise_append.mp (rising_of_isChain h)
  have hinit := (List.pairwise_append.mp hxs).2.2
  have hnone : (init ++ [last]).filter (fun h => last.height < h.height) = [] := by
    refine List.filter_eq_nil_iff.mpr fun x hx => ?_
    rw [decide_eq_true_eq, Nat.not_lt]
    rcases List.mem_append.mp hx with hx | hx
    · exact Nat.le_of_lt (hinit x hx last List.mem_cons_self)
    · rw [List.mem_singleton.mp hx]
  have hall : ys.filter (fun h => last.height < h.height) = ys := by
    refine List.filter_eq_self.mpr fun y hy => decide_eq_true ?_
    exact hbetween last (by simp) y hy
  rw [List.filter_append, hnone, hall, List.nil_append]

namespace Ready

theorem attests {blocks : List LightBlock} {n : Nat} (hheight : ∀ h, (chain h).height = h)
    (h : Ready chain m best s) (hblocks : blocks.map (fun b : LightBlock => b.header) = s.pending.take n) :
    Attests chain m (.consensusClient (.verifyLightBlocks (chain best) blocks)) := by
  rintro _ _ ⟨⟩
  rw [hblocks]
  refine ⟨fun x hx => ?_, h.line.take (n + 1)⟩
  rcases List.mem_cons.mp hx with rfl | hx
  · rw [hheight]
  · exact h.genuine.pending x (List.mem_of_mem_take hx)

theorem batch_last {n : Nat} (h : Ready chain m best s) (hlast : (s.pending.take n).getLast? = some last) :
    last = chain last.height ∧ (s.pending.take n ++ s.pending.drop n).IsChain (DueAfter m) := by
  refine ⟨h.genuine.pending last (List.mem_of_mem_take (List.mem_of_getLast? hlast)), ?_⟩
  rw [List.take_append_drop]
  exact h.line.tail

theorem appended {n : Nat} (h : Ready chain m best s) (hlast : (s.pending.take n).getLast? = some last) :
    Ready chain m last.height { s with pending := s.pending.drop (s.pending.take n).length } := by
  obtain ⟨hgenuine, hline⟩ := h.batch_last hlast
  rw [drop_length_take]
  refine ⟨h.genuine.subset (List.drop_subset ..), h.maxInterval, fun x hx => h.seen x (List.mem_of_mem_drop hx), ?_⟩
  rw [← hgenuine]
  exact isChain_last hline hlast

/-- If the relay appended a batch but the engine was not told, the batch waits, not above the relay's best height. -/
theorem lost {n : Nat} (h : Ready chain m best s) (hlast : (s.pending.take n).getLast? = some last) :
    Lined chain m last.height s := by
  obtain ⟨hgenuine, hline⟩ := h.batch_last hlast
  have habove := filter_above_last hline hlast
  rw [List.take_append_drop] at habove
  refine ⟨h.genuine, h.maxInterval, h.seen, h.line.tail, ?_⟩
  rw [habove, ← hgenuine]
  exact isChain_last hline hlast

end Ready

theorem ready_sendBatch (hheight : ∀ h, (chain h).height = h) (h : Ready chain m e.store.best.height s) :
    (sendBatchView (max 1 size) (chain e.store.best.height)).Ensures (unreliablePeers chain)
      (fun _ _ c => Attests chain m c) moves s e
      (fun tip _ s' e' => tip = chain e'.store.best.height ∧ Ready chain m e'.store.best.height s')
      fun _ _ s' e' => Lined chain m e'.store.best.height s' := by
  refine ensures_sendBatchView_of_blocks (ensures_lightBlocksOfView (fun _ _ _ hc => attests_of_prepares hc)
    (fun _ _ => trivial) (fun _ _ => trivial) fun _ _ => h.lined hheight) (fun _ _ => h.lined hheight)
    fun blocks new hblocks _ => ⟨⟨trivial, h.attests hheight hblocks⟩, ?_⟩
  rintro attested first last _ hverified - hlast hends
  -- the chain submitted begins above the relay's best entry
  have hfirst : ∀ x ∈ attested.head?, e.store.best.height < x.height := by
    rw [verify_answer hverified]
    intro x hx
    obtain ⟨b, hb, rfl⟩ := List.mem_map.mp (List.mem_of_head? hx)
    exact h.above hheight _ (List.mem_of_mem_take (hblocks ▸ List.mem_map_of_mem hb))
  refine ⟨⟨rfl, nofun⟩, fun response e' haccepted => ?_, fun x _ e' hrejected => ?_⟩
  · have hbest : e'.store.best.height = last.height :=
      congrArg ChainEntry.height (best_submitted hfirst hends (Conduct.answers_of_failing haccepted))
    show last = chain e'.store.best.height ∧ Ready chain m e'.store.best.height _
    rw [hbest]
    exact ⟨(h.batch_last hlast).1, h.appended hlast⟩
  · show Lined chain m e'.store.best.height s
    rcases Conduct.reached_of_failing hrejected with rfl | ⟨r, hreached⟩
    · exact h.lined hheight
    · have hbest : e'.store.best.height = last.height :=
        congrArg ChainEntry.height (best_submitted hfirst hends hreached)
      rw [hbest]
      exact h.lost hlast

theorem ready_sendBatches {count : Nat} {prev : Header} {report : Report} (hheight : ∀ h, (chain h).height = h)
    (h : Ready chain m e.store.best.height s) (hprev : prev = chain e.store.best.height) :
    (sendBatchesView (max 1 size) count prev report).Ensures (unreliablePeers chain)
      (fun _ _ c => Attests chain m c) moves s e (fun _ _ s' e' => Lined chain m e'.store.best.height s')
      fun _ _ s' e' => Lined chain m e'.store.best.height s' := by
  subst hprev
  induction count generalizing report moves s e with
  | zero => exact h.lined hheight
  | succ count ih =>
    refine View.ensures_bind.mpr (View.ensures_bind.mpr ((ready_sendBatch hheight h).mono ?_ fun _ _ _ _ h => h))
    rintro _ moves' s' e' ⟨rfl, h'⟩
    exact View.ensures_bind.mpr (View.ensures_bind.mpr (ih (h'.withBest (by rw [hheight]))))

/-! ### The whole cycle -/

theorem dueHeaders_examined {start : Nat} (m count : Nat) (hheight : ∀ h, (chain h).height = h)
    (hlast : last.height < start) :
    (last :: dueHeaders m ((List.range' start count).map chain) last).IsChain (DueAfter m) ∧
      ∀ x ∈ dueHeaders m ((List.range' start count).map chain) last, x = chain x.height ∧ start ≤ x.height := by
  have hexamined : ∀ x ∈ (List.range' start count).map chain, x = chain x.height ∧ start ≤ x.height := by
    intro x hx
    obtain ⟨height, hmem, rfl⟩ := List.mem_map.mp hx
    rw [hheight]
    exact ⟨rfl, (List.mem_range'_1.mp hmem).1⟩
  refine ⟨isChain_dueHeaders (List.pairwise_cons.mpr ⟨fun x hx => ?_, List.pairwise_map.mpr ?_⟩),
    fun x hx => hexamined x ((dueHeaders_sublist _ _).subset hx)⟩
  · exact Nat.lt_of_lt_of_le hlast (hexamined x hx).2
  · refine .imp (fun {a b} hab => ?_) List.pairwise_lt_range'
    rwa [hheight, hheight]

/-- **A cycle.** What it has attested are runs of headers that are due, and it leaves the queue so. -/
theorem lined_view (hheight : ∀ h, (chain h).height = h) (h : Lined chain m e.store.best.height s) :
    (view size).Ensures (unreliablePeers chain) (fun _ _ c => Attests chain m c) [] s e
      (fun _ _ s' e' => Lined chain m e'.store.best.height s')
      fun _ _ s' e' => Lined chain m e'.store.best.height s' := by
  refine View.ensures_bind.mpr ((lined_storedHeader hheight h).mono ?_ fun _ _ _ _ h => h)
  rintro _ moves s e ⟨rfl, h⟩
  refine View.ensures_bind.mpr ((ready_dropStored hheight h).mono ?_ fun _ _ _ _ h => h)
  rintro _ moves s e' ⟨h, hstore⟩
  rw [← hstore] at h ⊢
  refine View.ensures_bind.mpr (lined_read trivial ⟨rfl, rfl⟩ (fun (top : Nat) moves _ => ?_)
    fun _ _ => h.lined hheight)
  refine View.ensures_bind.mpr (lined_read trivial ⟨rfl, rfl⟩ (fun networkBest moves _ => ?_)
    fun _ _ => h.lined hheight)
  have h : Ready chain m e'.store.best.height { s with networkBest := some networkBest } :=
    ⟨⟨h.genuine.best, h.genuine.pending⟩, h.maxInterval, h.seen, h.line⟩
  refine View.ensures_bind.mpr (View.ensures_bind.mpr (View.ensures_get.mpr (View.ensures_bind.mpr ?_)))
  refine View.ensures_bind.mpr (lined_readHeaders.mono ?_ ?_)
  case refine_2 =>
    rintro _ _ _ _ ⟨rfl, rfl⟩
    exact h.lined hheight
  rintro _ moves _ _ ⟨rfl, rfl, rfl⟩
  obtain rfl : s.maxInterval = m := h.maxInterval
  dsimp only [doneHeight]
  rw [hheight]
  -- all that is examined lies above the queue, the relay's best and what was ever queued
  generalize hstart : max (max s.checkedHeight e'.store.best.height) s.lastSeenHeight + 1 = start
  have hseen : s.lastSeenHeight < start := by omega
  obtain ⟨hline, hselected⟩ := dueHeaders_examined s.maxInterval (top - start) hheight
    (h.last_lt hheight (by omega : e'.store.best.height < start) hseen)
  refine View.ensures_bind.mpr ((ready_enqueue h (fun x hx => (hselected x hx).1) hline
    fun x hx => Nat.le_trans (Nat.le_of_lt hseen) (hselected x hx).2).mono ?_ fun _ _ _ _ h => h)
  rintro _ moves s₁ e₁ ⟨h, hstore⟩
  have hraised : Ready chain s.maxInterval e₁.store.best.height (s₁.raiseChecked top) := by
    rw [hstore]
    exact ⟨⟨h.genuine.best, h.genuine.pending⟩, h.maxInterval, h.seen, h.line⟩
  refine View.ensures_bind.mpr (View.ensures_bind.mpr (View.ensures_get.mpr (View.ensures_bind.mpr ?_)))
  exact (ready_sendBatches hheight hraised (congrArg (fun store => chain store.best.height) hstore.symm)).mono
    (fun _ _ _ _ h => h) fun _ _ _ _ h => h

theorem Reached.lined (hheight : ∀ h, (chain h).height = h)
    (h : Reached (unreliablePeers chain) size (State.fresh m) e₀ s e) : Lined chain m e.store.best.height s := by
  induction h with
  | start => exact .fresh chain m _
  | @cycle s e r s' e' _ hrun ih =>
    have hcycle : Cycle.Ensures (unreliablePeers chain) (runCycle size) s e _ _ := (lined_view hheight ih).cycle
    have hend := hcycle.of_runs hrun
    cases r with
    | error x =>
      obtain ⟨-, h'⟩ := hend
      exact h'
    | ok report =>
      obtain ⟨-, h'⟩ := hend
      exact h'

/-! ## Continuity -/

/-- Between headers of an honest chain, the check holds exactly if the second is signed by the set that signs the height
after the first. -/
theorem announced_iff {a b : Header} (hlinked : ∀ h, (chain h).nextValidatorsHash = (chain (h + 1)).validatorsHash)
    (ha : a = chain a.height) : Announced a b ↔ SameSigners chain a b := by
  have hnext : a.nextValidatorsHash = (chain (a.height + 1)).validatorsHash := by
    rw [← hlinked, ← ha]
  rw [Announced, SameSigners, hnext]

/-- A header that is due after one to which it is announced lies a largest gap above it; the header next to one is
announced. -/
theorem gap_of_dueAfter {a b : Header} (hlinked : ∀ h, (chain h).nextValidatorsHash = (chain (h + 1)).validatorsHash)
    (ha : a = chain a.height) (hb : b = chain b.height) (hdue : DueAfter m a b) :
    (Announced a b → a.height + m ≤ b.height) ∧ (¬ Announced a b → a.height + 2 ≤ b.height) := by
  obtain ⟨hlt, hdue⟩ := hdue
  refine ⟨fun hannounced => ?_, fun hrotated => ?_⟩
  · have hlate : m ≤ b.height - a.height := by simpa [isDue, show b.validatorsHash = _ from hannounced] using hdue
    omega
  · by_contra hnear
    obtain hnext : b.height = a.height + 1 := by omega
    refine hrotated ((announced_iff hlinked ha).mpr ?_)
    rw [SameSigners, ← hnext, ← hb]

/-- **Continuity.** In every run of cycles over an honest chain, whatever fails, a run to be attested consists of
headers of the chain, each due after the one before. It passes the check exactly if each is signed by the set that
signs the height after the one before. Two headers between which it passes lie a largest gap apart, so that a header
queued before that never passes, and two between which it does not pass lie two heights apart. -/
theorem attested_run_announced_iff (hheight : ∀ h, (chain h).height = h)
    (hlinked : ∀ h, (chain h).nextValidatorsHash = (chain (h + 1)).validatorsHash)
    (h : Reached (unreliablePeers chain) size (State.fresh m) e₀ s e) {held : State Header} {mode : Mode}
    {prev : Header} {blocks : List LightBlock} {next : Relayed (List ChainEntry) → InProgress (State Header) Report}
    (hcall : ((view size).begun s).Reaches (unreliablePeers chain) e moves
      (.ask held mode (.consensusClient (.verifyLightBlocks prev blocks)) next) e') :
    let run := prev :: blocks.map fun b : LightBlock => b.header
    (∀ h ∈ run, h = chain h.height) ∧ run.IsChain (DueAfter m) ∧
      (run.IsChain Announced ↔ run.IsChain (SameSigners chain)) ∧
      run.IsChain fun a b =>
        (Announced a b → a.height + m ≤ b.height) ∧ (¬ Announced a b → a.height + 2 ≤ b.height) := by
  intro run
  have hasks := ((lined_view hheight (h.lined hheight)).of_reaches hcall).1.2
  obtain ⟨hgenuine, hdue⟩ := hasks prev blocks rfl
  refine ⟨hgenuine, hdue, ?_, ?_⟩
  · exact List.IsChain.iff_of_mem_imp fun a b ha _ => announced_iff hlinked (hgenuine a ha)
  · exact hdue.imp_of_mem_imp fun a b ha hb hab => gap_of_dueAfter hlinked (hgenuine a ha) (hgenuine b hb) hab

/-! ## Two chains -/

/-- A light client and a relay that hold the first header of a chain. -/
def holdingFirst (chain : Nat → Header) : ConsensusPeers := ⟨.trusting (chain 1), .holding (chain 1).entry, []⟩

/-- The way of a first cycle, over a node that has the chain up to `top`, to the first run that is to be attested. -/
def untilAttested (chain : Nat → Header) (top size : Nat) :
    List (Move (State Header)) × InProgress (State Header) Report × ConsensusPeers :=
  ((view size).begun (State.fresh 5)).playUntil (unreliablePeers chain).hears
    (ConsensusPeers.respond (nodeUpTo chain top)) isVerification (holdingFirst chain)

theorem reaches_untilAttested (hheight : ∀ h, (chain h).height = h) {top : Nat} (htop : 1 ≤ top) {run : List Header}
    (h : (untilAttested chain top size).2.1.next?.bind runOf? = some run) :
    ∃ held mode prev blocks next, (prev :: blocks.map fun b : LightBlock => b.header) = run ∧
      ((view size).begun (State.fresh 5)).Reaches (unreliablePeers chain) (holdingFirst chain)
        (untilAttested chain top size).1 (.ask held mode (.consensusClient (.verifyLightBlocks prev blocks)) next)
        (untilAttested chain top size).2.2 := by
  have hreaches := InProgress.reaches_playUntil (answers_respond_unreliable hheight (serves_nodeUpTo chain htop))
    isVerification ((view size).begun (State.fresh 5)) (holdingFirst chain)
  obtain ⟨c, hc, hrun⟩ := Option.bind_eq_some_iff.mp h
  obtain ⟨held, mode, next, hleft⟩ := InProgress.exists_of_next? hc
  obtain ⟨prev, blocks, rfl, hheaders⟩ := exists_of_runOf? hrun
  refine ⟨held, mode, prev, blocks, next, hheaders, ?_⟩
  rw [← hleft]
  exact hreaches

/-- Without rotations, a run passes. -/
theorem plain_run_announced :
    ∃ held mode prev blocks next, ((view 2).begun (State.fresh 5)).Reaches (unreliablePeers plainChain)
        (holdingFirst plainChain) (untilAttested plainChain 12 2).1
        (.ask held mode (.consensusClient (.verifyLightBlocks prev blocks)) next) (untilAttested plainChain 12 2).2.2 ∧
      (prev :: blocks.map fun b : LightBlock => b.header) = [plainChain 1, plainChain 6, plainChain 11] ∧
      (prev :: blocks.map fun b : LightBlock => b.header).IsChain Announced := by
  have hcall : (untilAttested plainChain 12 2).2.1.next?.bind runOf? =
      some [plainChain 1, plainChain 6, plainChain 11] := by decide +kernel
  obtain ⟨held, mode, prev, blocks, next, hrun, hreaches⟩ :=
    reaches_untilAttested (fun _ => rfl) (by decide : 1 ≤ 12) hcall
  obtain ⟨-, -, hiff, -⟩ := attested_run_announced_iff (fun _ => rfl) (fun _ => rfl) .start hreaches
  refine ⟨held, mode, prev, blocks, next, hreaches, hrun, hiff.mpr ?_⟩
  rw [hrun]
  exact .cons_cons rfl (.cons_cons rfl (.singleton _))

/-- A chain whose validator set changes at height 4. -/
def rotatingChain (height : Nat) : Header :=
  ⟨height, .replicate (UInt8.ofNat height), .replicate (if height < 4 then 1 else 2),
    .replicate (if height + 1 < 4 then 1 else 2), .zero⟩

/-- **A rotation.** No call of the cycle fails, and the run that it wants attested does not pass the check: the header
of the height at which the set changes follows one that announces the old set. -/
theorem rotation_breaks_run :
    (∀ h, (rotatingChain h).height = h) ∧
      (∀ h, (rotatingChain h).nextValidatorsHash = (rotatingChain (h + 1)).validatorsHash) ∧
      ∃ moves held mode prev blocks next e', ((view 1).begun (State.fresh 5)).Reaches (unreliablePeers rotatingChain)
          (holdingFirst rotatingChain) moves (.ask held mode (.consensusClient (.verifyLightBlocks prev blocks)) next)
          e' ∧
        (∀ m ∈ moves, m.answer.isOk = true) ∧
        (prev :: blocks.map fun b : LightBlock => b.header) = [rotatingChain 1, rotatingChain 4] ∧
        ¬ (prev :: blocks.map fun b : LightBlock => b.header).IsChain Announced := by
  refine ⟨fun _ => rfl, fun _ => rfl, ?_⟩
  have hcall : (untilAttested rotatingChain 6 1).2.1.next?.bind runOf? = some [rotatingChain 1, rotatingChain 4] := by
    decide +kernel
  obtain ⟨held, mode, prev, blocks, next, hrun, hreaches⟩ :=
    reaches_untilAttested (fun _ => rfl) (by decide : 1 ≤ 6) hcall
  have hok : (untilAttested rotatingChain 6 1).1.all (fun m => m.answer.isOk) = true := by decide +kernel
  refine ⟨_, held, mode, prev, blocks, next, _, hreaches, List.all_eq_true.mp hok, hrun, ?_⟩
  rw [hrun, List.isChain_cons_cons]
  exact fun h => absurd h.1 (by decide : ¬ (rotatingChain 4).validatorsHash = (rotatingChain 1).nextValidatorsHash)

end HeaderRelay.Sync.Batched
