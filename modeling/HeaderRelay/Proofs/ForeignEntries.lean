import HeaderRelay.Proofs.ConsensusSubmissions
import HeaderRelay.Proofs.PlayedRaces
import HeaderRelay.Proofs.Selection

/-!
# Entries of the relay that are not the node's

Between the cycles of a batched engine others may append any entries to the relay. A cycle begins by looking for the
node's header of the relay's best entry and refuses to go on if the hashes differ, but an engine that remembers a
header at the height of that entry compares the heights only. So an entry that is not the node's stops every cycle if
its height is another one, and is taken for the node's otherwise (`foreign_entry_passes_iff`): what the cycle then asks
to attest follows the node's header, whatever the relay holds (`foreign_entry_extended`).

That the header remembered is always one of the node (`Genuine`) needs both places where the engine comes to remember
it: the check, and its own flushes, whose last header comes from the queue.
-/
namespace HeaderRelay.Sync.Batched

open Consensus (Header LightBlock ChainEntry)
open HeaderRelay.Cycle (View)
open Peer (Call Conduct)

/-- The peers with a node that serves the chain; their calls may fail if `faulty`. -/
abbrev peersOf (chain : Nat → Header) (knows tops : Nat → Prop) (faulty : Prop) : Conduct ConsensusPeers :=
  (consensusPeers chain knows tops).failing faulty

/-- States of the engine and of its peers after some cycles, however these ended, between which others have appended
entries to the relay. -/
inductive Visited (chain : Nat → Header) (size : Nat) (s₀ : State Header) (e₀ : ConsensusPeers) :
    State Header → ConsensusPeers → Prop where
  | start : Visited chain size s₀ e₀ s₀ e₀
  | cycle {s e r s' e'} : Visited chain size s₀ e₀ s e →
    ((runCycle size).start s).Runs (unreliablePeers chain) e (r, s') e' → Visited chain size s₀ e₀ s' e'
  | append {s e} (entry : ChainEntry) : Visited chain size s₀ e₀ s e →
    Visited chain size s₀ e₀ s { e with store := e.store.push entry }

/-! ## What the engine remembers -/

structure Genuine (chain : Nat → Header) (s : State Header) : Prop where
  best : ∀ b, s.contractBest = some b → b = chain b.height
  pending : ∀ h ∈ s.pending, h = chain h.height

variable {chain : Nat → Header} {knows tops : Nat → Prop} {faulty : Prop} {batchSize : Nat} {s s₀ : State Header}
  {e e₀ : ConsensusPeers} {moves : List (Move (State Header))}

theorem Genuine.fresh (chain : Nat → Header) (m : Nat) : Genuine chain (State.fresh m) := ⟨nofun, nofun⟩

theorem Genuine.subset {kept : List Header} (h : Genuine chain s) (hkept : kept ⊆ s.pending) :
    Genuine chain { s with pending := kept } :=
  ⟨h.best, fun x hx => h.pending x (hkept hx)⟩

theorem Genuine.push {x : Header} (h : Genuine chain s) (hx : x = chain x.height) :
    Genuine chain { s with lastSeenHeight := x.height, pending := s.pending ++ [x] } := by
  refine ⟨h.best, fun y hy => ?_⟩
  rcases List.mem_append.mp hy with hy | hy
  · exact h.pending y hy
  · obtain rfl := List.mem_singleton.mp hy
    exact hx

theorem Genuine.withBest {b : Header} (h : Genuine chain s) (hb : b = chain b.height) :
    Genuine chain { s with contractBest := some b } :=
  ⟨fun _ hb' => Option.some.inj hb' ▸ hb, h.pending⟩

/-! ## The check -/

/-- The relay's best entry has the hash of the node's header at its height. -/
def Native (chain : Nat → Header) (e : ConsensusPeers) : Prop :=
  e.store.best.hash = (chain e.store.best.height).hash

instance : Decidable (Native chain e) := inferInstanceAs (Decidable (_ = _))

def Recalls (s : State Header) (e : ConsensusPeers) : Prop :=
  ∃ known, s.contractBest = some known ∧ known.height = e.store.best.height

/-- The relay's best entry passes the check. -/
def Passes (chain : Nat → Header) (s : State Header) (e : ConsensusPeers) : Prop := Native chain e ∨ Recalls s e

def foreignEntry (chain : Nat → Header) (e : ConsensusPeers) : RelayError :=
  let best := e.store.best
  .inconsistent s!"relay holds {best.hash.hex} at height {best.height}, node has {(chain best.height).hash.hex}"

/-- The calls by which the header of the relay's best entry is looked for. -/
def Looks (e : ConsensusPeers) (c : Call) : Prop :=
  c = .relayStore .bestHeight ∨ c = .relayStore .bestHash ∨ c = .consensusNode (.header e.store.best.height)

theorem Looks.prepares {c : Call} (h : Looks e c) : Prepares c := by
  obtain rfl | rfl | rfl := h <;> exact ⟨rfl, rfl⟩

theorem reads_header (e : ConsensusPeers) {height : Nat} :
    (consensusPeers chain knows tops).Reads (.consensusNode (.header height)) e (knows height) (· = chain height) :=
  reads_node (fun _ => trivial) fun _ h => h

/-- **The check.** What passes it has the node's hash, or the height of a header that the engine remembers. -/
theorem looks_storedHeader (hheight : ∀ h, (chain h).height = h) (h : Genuine chain s) :
    storedHeader.Ensures ((peersOf chain knows tops faulty).asking (Looks e)) s e
      (fun header s' e' => header = chain e.store.best.height ∧ Passes chain s e ∧ Genuine chain s' ∧ e' = e)
      fun x s' e' => s' = s ∧ e' = e ∧ (faulty ∨ ¬ knows e.store.best.height ∨
        x = foreignEntry chain e ∧ ¬ Passes chain s e) := by
  show Cycle.Ensures (((consensusPeers chain knows tops).asking (Looks e)).failing faulty) _ _ _ _ _
  have hfails : ∀ {x : RelayError}, faulty ∨ ¬ True →
      s = s ∧ e = e ∧ (faulty ∨ ¬ knows e.store.best.height ∨
        x = foreignEntry chain e ∧ ¬ Passes chain s e) :=
    fun hx => ⟨rfl, rfl, .inl (hx.resolve_right (absurd trivial))⟩
  have hstore : ∀ {c : Peer.RelayStore} {a : c.Answer}, (e.store.serve c).1 = .ok a → Looks e (.relayStore c) →
      (∀ op, (consensusPeers chain knows tops).attends (.read op) (.relayStore c)) →
      ((consensusPeers chain knows tops).asking (Looks e)).Reads (.relayStore c) e True (· = a) :=
    fun ha hc hattends => (reads_store hattends ha).asking hc
  refine Cycle.ensures_bind.mpr (Cycle.ensures_read_failing
    (hstore (c := .bestHeight) rfl (.inl rfl) fun _ => trivial) ?_ fun _ => hfails)
  rintro _ rfl
  refine Cycle.ensures_bind.mpr (Cycle.ensures_get.mpr ?_)
  split
  · rename_i known hknown
    obtain ⟨hbest, hsame⟩ := Option.filter_eq_some_iff.mp hknown
    have hsame : known.height = e.store.best.height := of_decide_eq_true hsame
    exact ⟨hsame ▸ h.best known hbest, .inr ⟨known, hbest, hsame⟩, h, rfl⟩
  · rename_i hnone
    refine Cycle.ensures_bind.mpr (Cycle.ensures_read_failing
      (hstore (c := .bestHash) rfl (.inr (.inl rfl)) fun _ => trivial) ?_ fun _ => hfails)
    rintro _ rfl
    refine Cycle.ensures_bind.mpr (Cycle.ensures_read_failing ((reads_header e).asking (.inr (.inr rfl))) ?_
      fun _ hx => ⟨rfl, rfl, hx.imp id .inl⟩)
    rintro _ rfl
    refine Cycle.ensures_ite (fun hne => ⟨rfl, rfl, .inr (.inr ⟨rfl, ?_⟩)⟩) fun heq => ?_
    · rintro (hnative | ⟨known, hbest, hsame⟩)
      · exact hne hnative.symm
      · exact Option.filter_eq_none_iff.mp hnone known hbest (decide_eq_true hsame)
    · exact ⟨rfl, .inl (Decidable.not_not.mp heq).symm, h.withBest (by rw [hheight]), rfl⟩

/-! ## After the check -/

theorem prepares_dropStored {height : Nat} {err : RelayError → State Header → ConsensusPeers → Prop}
    (h : Genuine chain s) :
    (dropStored height).Ensures ((peersOf chain knows tops faulty).asking Prepares) s e
      (fun _ s' _ => Genuine chain s') err := by
  have hkept := h.subset (List.dropWhile_suffix fun h : Header => h.height ≤ height).subset
  refine Cycle.ensures_bind.mpr (Cycle.ensures_get.mpr (Cycle.ensures_bind.mpr (Cycle.ensures_modify.mpr ?_)))
  exact Cycle.ensures_ite (fun _ => hkept) fun _ => hkept

theorem prepares_read {op : String} {c : Call}
    (hc : (consensusPeers chain knows tops).attends (.read op) c ∧ Prepares c) (h : Genuine chain s) :
    (Cycle.read op c : Cycle (State Header) c.Answer).Ensures ((peersOf chain knows tops faulty).asking Prepares)
      s e (fun _ s' _ => Genuine chain s') fun _ s' _ => Genuine chain s' :=
  ensures_read_stays hc (fun _ => h) fun _ => h

theorem prepares_readHeaders (hheight : ∀ h, (chain h).height = h) {count height : Nat} :
    (readHeaders count height).Ensures ((peersOf chain knows tops faulty).asking Prepares) s e
      (fun headers s' _ => s' = s ∧ ∀ h ∈ headers, h = chain h.height) fun _ s' _ => s' = s := by
  induction count generalizing height with
  | zero => exact ⟨rfl, nofun⟩
  | succ count ih =>
    show Cycle.Ensures (((consensusPeers chain knows tops).asking Prepares).failing faulty) _ _ _ _ _
    refine Cycle.ensures_bind.mpr (Cycle.ensures_read_failing ((reads_header e).asking ⟨rfl, rfl⟩) ?_ fun _ _ => rfl)
    rintro _ rfl
    refine Cycle.ensures_bind.mpr (Cycle.Ensures.mono ih ?_ fun _ _ _ h => h)
    rintro headers _ e' ⟨rfl, hheaders⟩
    refine ⟨rfl, fun h hh => ?_⟩
    rcases List.mem_cons.mp hh with rfl | hh
    · rw [hheight]
    · exact hheaders h hh

theorem prepares_enqueue {headers : List Header} {err : RelayError → State Header → ConsensusPeers → Prop}
    (h : Genuine chain s) (hheaders : ∀ h ∈ headers, h = chain h.height) :
    (enqueue headers).Ensures ((peersOf chain knows tops faulty).asking Prepares) s e
      (fun _ s' _ => Genuine chain s') err := by
  induction headers generalizing s e with
  | nil => exact h
  | cons x headers ih =>
    refine Cycle.ensures_bind.mpr (Cycle.ensures_log.mpr (Cycle.ensures_bind.mpr (Cycle.ensures_modify.mpr ?_)))
    exact ih (h.push (hheaders x List.mem_cons_self)) fun y hy => hheaders y (List.mem_cons_of_mem x hy)

/-- What a call may be in a cycle that began in `s₀` and `e₀`: but for the check itself, it comes after a check that was
passed, and the first run to be attested follows the node's header at the relay's best height. -/
def Asks (chain : Nat → Header) (s₀ : State Header) (e₀ : ConsensusPeers) (moves : List (Move (State Header)))
    (c : Call) : Prop :=
  (¬ Looks e₀ c → Passes chain s₀ e₀) ∧
    ∀ prev blocks, c = .consensusClient (.verifyLightBlocks prev blocks) →
      (∀ m ∈ moves, isVerification m.call = false) → prev = chain e₀.store.best.height

theorem asks_of_prepares {c : Call} (hpasses : ¬ Looks e₀ c → Passes chain s₀ e₀) (hc : Prepares c) :
    Asks chain s₀ e₀ moves c :=
  ⟨hpasses, by rintro prev blocks rfl; cases hc.2⟩

theorem asks_prepare {α : Type} {x : Cycle (State Header) α} {v : x.View}
    {ok : α → State Header → ConsensusPeers → Prop}
    {ok' : α → List (Move (State Header)) → State Header → ConsensusPeers → Prop}
    (hpasses : Passes chain s₀ e₀) (hmoves : ∀ m ∈ moves, isVerification m.call = false)
    (hx : x.Ensures ((peersOf chain knows tops faulty).asking Prepares) s e ok fun _ s' _ => Genuine chain s')
    (hok : ∀ a moves s e, (∀ m ∈ moves, isVerification m.call = false) → ok a s e → ok' a moves s e) :
    v.Ensures (peersOf chain knows tops faulty) (fun moves _ c => Asks chain s₀ e₀ moves c) moves s e ok'
      fun _ _ s' _ => Genuine chain s' := by
  refine (View.ensures_of_reads (P := Prepares) (fun _ _ _ hc => asks_of_prepares (fun _ => hpasses) hc) hx).mono ?_
    fun _ _ _ _ h => h.1
  rintro a _ s' e' ⟨ha, new, rfl, hnew⟩
  refine hok a _ s' e' (fun m hm => ?_) ha
  rcases List.mem_append.mp hm with hm | hm
  · exact hmoves m hm
  · exact (hnew m hm).2

/-- The first batch follows what the check found; after a batch, the last header of it is the node's. -/
theorem asks_sendBatch {prev : Header} (hpasses : Passes chain s₀ e₀) (h : Genuine chain s)
    (hprev : (∀ m ∈ moves, isVerification m.call = false) → prev = chain e₀.store.best.height) :
    (sendBatchView (max 1 batchSize) prev).Ensures (peersOf chain knows tops faulty)
      (fun moves _ c => Asks chain s₀ e₀ moves c) moves s e
      (fun tip moves' s' _ => ¬ (∀ m ∈ moves', isVerification m.call = false) ∧ tip = chain tip.height ∧
        Genuine chain s')
      fun _ _ s' _ => Genuine chain s' := by
  refine ensures_sendBatchView (fun _ _ _ hc => asks_of_prepares (fun _ => hpasses) hc) (fun _ _ => trivial)
    (fun _ _ => trivial) (fun _ _ _ => h) fun blocks new _ _ => ⟨⟨trivial, fun _ => hpasses, ?_⟩, ?_⟩
  · rintro _ _ ⟨⟩ hnone
    exact hprev fun m hm => hnone m (List.mem_append_left new hm)
  · rintro attested last _ verified - hverified hlast -
    refine ⟨⟨rfl, fun _ => hpasses, nofun⟩, fun response _ => ⟨fun hnone => ?_,
      h.pending last (List.mem_of_mem_take (List.mem_of_getLast? hlast)), h.subset (List.drop_subset ..)⟩⟩
    have hread := hnone verified (by simp)
    rw [hverified] at hread
    cases hread

theorem asks_sendBatches {count : Nat} {prev : Header} {report : Report} (hpasses : Passes chain s₀ e₀)
    (h : Genuine chain s) (hprev : (∀ m ∈ moves, isVerification m.call = false) → prev = chain e₀.store.best.height) :
    (sendBatchesView (max 1 batchSize) count prev report).Ensures (peersOf chain knows tops faulty)
      (fun moves _ c => Asks chain s₀ e₀ moves c) moves s e (fun _ _ s' _ => Genuine chain s')
      fun _ _ s' _ => Genuine chain s' := by
  induction count generalizing prev report moves s e with
  | zero => exact h
  | succ count ih =>
    refine View.ensures_bind.mpr (View.ensures_bind.mpr ((asks_sendBatch hpasses h hprev).mono ?_ fun _ _ _ _ h => h))
    rintro tip moves' s' e' ⟨hverified, htip, h'⟩
    exact View.ensures_bind.mpr (View.ensures_bind.mpr (ih (h'.withBest htip) (absurd · hverified)))

/-- **A cycle.** It goes on after a check that was passed only; if the check is not passed, nothing changes. -/
theorem asks_view (hheight : ∀ h, (chain h).height = h) (h : Genuine chain s) :
    (view batchSize).Ensures (peersOf chain knows tops faulty) (fun moves _ c => Asks chain s e moves c) [] s e
      (fun _ _ s' _ => Genuine chain s' ∧ Passes chain s e)
      fun x _ s' e' => Genuine chain s' ∧ (Passes chain s e ∨
        s' = s ∧ e' = e ∧ (faulty ∨ ¬ knows e.store.best.height ∨ x = foreignEntry chain e)) := by
  refine View.ensures_bind.mpr ((View.ensures_of_reads ?_ (looks_storedHeader hheight h)).mono ?_ ?_)
  · exact fun moves _ c hc => asks_of_prepares (absurd hc) hc.prepares
  case refine_3 =>
    rintro x _ _ _ ⟨⟨rfl, rfl, hx⟩, -⟩
    exact ⟨h, .inr ⟨rfl, rfl, hx.imp_right (Or.imp_right And.left)⟩⟩
  rintro _ moves s₁ e₁ ⟨⟨rfl, hpasses, h₁, -⟩, _, rfl, hlooks⟩
  have hmoves : ∀ m ∈ moves, isVerification m.call = false := fun m hm => (hlooks m hm).prepares.2
  -- from here on the check is passed
  refine View.Ensures.mono (?_ : View.Ensures _ _ _ _ _ _ (fun _ _ s' _ => Genuine chain s') fun _ _ s' _ =>
    Genuine chain s') (fun _ _ _ _ h => ⟨h, hpasses⟩) fun _ _ _ _ h => ⟨h, .inl hpasses⟩
  refine View.ensures_bind.mpr (asks_prepare hpasses hmoves (prepares_dropStored h₁) fun _ moves s e hmoves h => ?_)
  refine View.ensures_bind.mpr (asks_prepare hpasses hmoves (prepares_read ⟨trivial, rfl, rfl⟩ h)
    fun (top : Nat) moves s e hmoves h => ?_)
  refine View.ensures_bind.mpr (asks_prepare hpasses hmoves (prepares_read ⟨trivial, rfl, rfl⟩ h)
    fun (networkBest : Header) moves s e hmoves h => ?_)
  refine View.ensures_bind.mpr (View.ensures_bind.mpr (View.ensures_bind.mpr (View.ensures_bind.mpr ?_)))
  have hread : Genuine chain { s with networkBest := some networkBest } := ⟨h.best, h.pending⟩
  refine asks_prepare hpasses hmoves (Cycle.Ensures.mono (prepares_readHeaders hheight) (fun _ _ _ h => h) ?_)
    fun examined moves s' e hmoves hexamined => ?_
  · rintro _ _ _ rfl
    exact hread
  obtain ⟨rfl, hexamined⟩ := hexamined
  refine View.ensures_bind.mpr (asks_prepare hpasses hmoves
    (prepares_enqueue hread fun x hx => hexamined x ((dueHeaders_sublist _ _).subset hx))
    fun _ moves s e hmoves h => ?_)
  have hraised : Genuine chain (s.raiseChecked top) := ⟨h.best, h.pending⟩
  refine View.ensures_bind.mpr (View.ensures_bind.mpr (View.ensures_bind.mpr ?_))
  exact (asks_sendBatches hpasses hraised fun _ => rfl).mono (fun _ _ _ _ h => h) fun _ _ _ _ h => h

/-! ## Every cycle -/

theorem Visited.genuine (hheight : ∀ h, (chain h).height = h) {m : Nat}
    (h : Visited chain batchSize (State.fresh m) e₀ s e) : Genuine chain s := by
  induction h with
  | start => exact .fresh chain m
  | @cycle s e r s' e' _ hrun ih =>
    have hcycle : Cycle.Ensures (unreliablePeers chain) (runCycle batchSize) s e _ _ := (asks_view hheight ih).cycle
    have hend := hcycle.of_runs hrun
    cases r with
    | error x =>
      obtain ⟨-, h', -⟩ := hend
      exact h'
    | ok report =>
      obtain ⟨-, h', -⟩ := hend
      exact h'
  | append entry _ ih => exact ih

/-- **Entries of others.** In every cycle of every run, whatever others have appended: the cycle has something attested
or appends only if the relay's best entry has the node's hash, or the engine remembers a header at its height, and what
is attested first follows the node's header there. Otherwise it ends with an error, and nothing has changed. If no call
fails, the check ends well exactly in these two cases, with the node's header, and in the others with the error that
names both hashes. -/
theorem foreign_entry_passes_iff (hheight : ∀ h, (chain h).height = h) {m : Nat}
    (h : Visited chain batchSize (State.fresh m) e₀ s e) (knows tops : Nat → Prop) (faulty : Prop) :
    (∀ moves held mode c next e', ((view batchSize).begun s).Reaches (peersOf chain knows tops faulty) e moves
          (.ask held mode c next) e' →
        (isVerification c = true ∨ c.isSubmission = true → Passes chain s e) ∧
          ∀ prev blocks, c = .consensusClient (.verifyLightBlocks prev blocks) →
            (∀ m ∈ moves, isVerification m.call = false) → prev = chain e.store.best.height) ∧
      (¬ Passes chain s e →
        ∀ r s' e', ((runCycle batchSize).start s).Runs (peersOf chain knows tops faulty) e (r, s') e' →
          s' = s ∧ e' = e ∧ ∃ x, r = .error x ∧ (faulty ∨ ¬ knows e.store.best.height ∨ x = foreignEntry chain e)) ∧
      (¬ faulty → knows e.store.best.height →
        ∀ r s' e', (storedHeader.start s).Runs (peersOf chain knows tops faulty) e (r, s') e' →
          r = .ok (chain e.store.best.height) ∧ Passes chain s e ∨
            r = .error (foreignEntry chain e) ∧ ¬ Passes chain s e) := by
  have hgenuine := h.genuine hheight
  refine ⟨fun moves held mode c next e' hreaches => ?_, fun hforeign r s' e' hrun => ?_,
    fun hfaulty hknows r s' e' hrun => ?_⟩
  · have hasks : Asks chain s e moves c := ((asks_view hheight hgenuine).of_reaches hreaches).1.2
    refine ⟨fun hc => hasks.1 fun hlooks => ?_, hasks.2⟩
    obtain ⟨hnone, hnone'⟩ := hlooks.prepares
    rcases hc with hc | hc
    · exact absurd hc (by simp [hnone'])
    · exact absurd hc (by simp [hnone])
  · have hcycle : Cycle.Ensures (peersOf chain knows tops faulty) (runCycle batchSize) s e _ _ :=
      (asks_view hheight hgenuine).cycle
    have hend := hcycle.of_runs hrun
    cases r with
    | ok report =>
      obtain ⟨-, -, hpasses⟩ := hend
      exact absurd hpasses hforeign
    | error x =>
      obtain ⟨-, -, hstop⟩ := hend
      obtain ⟨rfl, rfl, hx⟩ := hstop.resolve_left hforeign
      exact ⟨rfl, rfl, x, rfl, hx⟩
  · have hchecks : Cycle.Ensures (((consensusPeers chain knows tops).asking (Looks e)).failing faulty) _ _ _ _ _ :=
      looks_storedHeader hheight hgenuine
    have hend := hchecks.of_asking.of_runs hrun
    cases r with
    | ok header =>
      obtain ⟨rfl, hpasses, -⟩ := hend
      exact .inl ⟨rfl, hpasses⟩
    | error x =>
      obtain ⟨-, -, hx⟩ := hend
      obtain ⟨rfl, hforeign⟩ := (hx.resolve_left hfaulty).resolve_left (not_not_intro hknows)
      exact .inr ⟨rfl, hforeign⟩

/-! ## A run of two cycles -/

def plainStart : ConsensusPeers := ⟨.trusting (plainChain 1), .holding (plainChain 1).entry, []⟩

def plainCycle (top : Nat) (s : State Header) (e : ConsensusPeers) : (Relayed Report × State Header) × ConsensusPeers :=
  ((runCycle 2).start s).play (unreliablePeers plainChain).hears
    (ConsensusPeers.respond (grow plainChain top plainPeers).consensusNode) e

theorem runs_plainCycle {top : Nat} (htop : 1 ≤ top) (s : State Header) (e : ConsensusPeers) :
    ((runCycle 2).start s).Runs (unreliablePeers plainChain) e (plainCycle top s e).1 (plainCycle top s e).2 :=
  Program.runs_play (answers_respond_unreliable (fun _ => rfl)
    ((plainPeers_honest []).toSided.grow (fun _ => rfl) htop).node) _ e

/-- An engine that remembers height 1 after a cycle at height 2, and its peers after others have appended an entry. -/
def afterAppend (entry : ChainEntry) : State Header × ConsensusPeers :=
  let (r, e) := plainCycle 2 (State.fresh 5) plainStart
  (r.2, { e with store := e.store.push entry })

theorem visited_afterAppend (entry : ChainEntry) :
    Visited plainChain 2 (State.fresh 5) plainStart (afterAppend entry).1 (afterAppend entry).2 :=
  .append entry (.cycle .start (runs_plainCycle (by decide : 1 ≤ 2) _ _))

theorem contractBest_afterAppend (entry : ChainEntry) : (afterAppend entry).1.contractBest = some (plainChain 1) := by
  show (plainCycle 2 (State.fresh 5) plainStart).1.2.contractBest = _
  decide +kernel

def foreignHash : Hash := .replicate 0x99

/-- The foreign hash passes at the height that the engine remembers, and stops every cycle at another height. -/
theorem plain_foreign_entry_passes :
    (∀ r s' e', (storedHeader.start (afterAppend ⟨1, foreignHash⟩).1).Runs
        (peersOf plainChain (fun _ => True) (fun _ => True) False) (afterAppend ⟨1, foreignHash⟩).2 (r, s') e' →
          r = .ok (plainChain 1)) ∧
      ∀ r s' e', ((runCycle 2).start (afterAppend ⟨2, foreignHash⟩).1).Runs (unreliablePeers plainChain)
          (afterAppend ⟨2, foreignHash⟩).2 (r, s') e' →
        s' = (afterAppend ⟨2, foreignHash⟩).1 ∧ e' = (afterAppend ⟨2, foreignHash⟩).2 ∧ ∃ x, r = .error x := by
  refine ⟨fun r s' e' hrun => ?_, fun r s' e' hrun => ?_⟩
  · obtain ⟨-, -, hcheck⟩ := foreign_entry_passes_iff (fun _ => rfl) (visited_afterAppend ⟨1, foreignHash⟩)
      (fun _ => True) (fun _ => True) False
    obtain ⟨hr, -⟩ | ⟨-, hforeign⟩ := hcheck id trivial r s' e' hrun
    · exact hr
    · exact absurd (.inr ⟨plainChain 1, contractBest_afterAppend _, rfl⟩) hforeign
  · obtain ⟨-, hstops, -⟩ := foreign_entry_passes_iff (fun _ => rfl) (visited_afterAppend ⟨2, foreignHash⟩)
      (fun _ => True) (fun _ => True) True
    have hforeign : ¬ Passes plainChain (afterAppend ⟨2, foreignHash⟩).1 (afterAppend ⟨2, foreignHash⟩).2 := by
      rintro (hnative | ⟨known, hknown, hsame⟩)
      · exact absurd hnative (by decide +kernel)
      · rw [contractBest_afterAppend] at hknown
        obtain rfl := Option.some.inj hknown
        exact absurd hsame (by decide +kernel)
    obtain ⟨hs, he, x, hx, -⟩ := hstops hforeign r s' e' hrun
    exact ⟨hs, he, x, hx⟩

/-- **A foreign entry is extended.** The relay's best entry does not have the node's hash, and the next cycle ends well
and appends two headers to it. -/
theorem foreign_entry_extended :
    ∃ s e report s' e', Visited plainChain 2 (State.fresh 5) plainStart s e ∧
      e.store.best.hash ≠ (plainChain e.store.best.height).hash ∧
      ((runCycle 2).start s).Runs (unreliablePeers plainChain) e (.ok report, s') e' ∧ report.submitted = 2 ∧
      e'.store.entries = e.store.entries ++ [(plainChain 6).entry, (plainChain 11).entry] := by
  have hsubmitted : (plainCycle 12 (afterAppend ⟨1, foreignHash⟩).1 (afterAppend ⟨1, foreignHash⟩).2).1.1.toOption.map
      Report.submitted = some 2 := by decide +kernel
  have hentries : (plainCycle 12 (afterAppend ⟨1, foreignHash⟩).1 (afterAppend ⟨1, foreignHash⟩).2).2.store.entries =
      (afterAppend ⟨1, foreignHash⟩).2.store.entries ++ [(plainChain 6).entry, (plainChain 11).entry] := by
    decide +kernel
  have hrun := runs_plainCycle (by decide : 1 ≤ 12) (afterAppend ⟨1, foreignHash⟩).1 (afterAppend ⟨1, foreignHash⟩).2
  revert hsubmitted hentries hrun
  generalize plainCycle 12 _ _ = left
  obtain ⟨⟨r, s'⟩, e'⟩ := left
  intro hsubmitted hentries hrun
  cases r with
  | error x => cases hsubmitted
  | ok report =>
    exact ⟨_, _, report, s', e', visited_afterAppend ⟨1, foreignHash⟩, by decide +kernel, hrun,
      Option.some.inj hsubmitted, hentries⟩

end HeaderRelay.Sync.Batched
