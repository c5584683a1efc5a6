import HeaderRelay.Proofs.ConsensusSubmissions
import HeaderRelay.Proofs.HonestPeers

/-!
# What a flush hands to the relay

Headers leave the queue of the batched engine when the relay has taken a chain for them. That chain is the light
client's: it is what was answered when light blocks of these headers were to be attested, as it was answered
(`flush_submits_attested`). The engine looks at its last entry only, which has to be that of the last header. So the
chain lists the headers that leave the queue if the light client is faithful (`FaithfulClient`), and need not otherwise
(`flush_omits_header`).

What is attested and what is submitted is read off the exchanges of a timed run. `Answered` says that an exchange was
answered well, and the transcript of a path has one for each call that was (`Transcript.answered`).
-/
namespace HeaderRelay

open Peer (Call Conduct Handler Exchange)

variable {ρ σ : Type}

/-- An exchange on record in which the call was answered by `a`. -/
def Answered (record : List (Exchange ρ)) (c : Call) (a : c.Answer) : Prop :=
  ∃ deadline before after, (⟨c, deadline, before, .done (.ok a), after⟩ : Exchange ρ) ∈ record

theorem Transcript.answered {H : Handler ρ} {limit : Nat} {moves : List (Move σ)} {l : List (Exchange ρ)}
    (h : Transcript H limit moves l) (m : Move σ) (hm : m ∈ moves) {a : m.call.Answer} (ha : m.answer = .ok a) :
    Answered l m.call a := by
  induction h with
  | nil => cases hm
  | @cons m' moves es later hcarries _ ih =>
    rcases List.mem_cons.mp hm with rfl | hm
    · obtain ⟨deadline, before, o, after, earlier, rfl, rfl | ⟨-, hx⟩⟩ := hcarries.answer
      · rw [ha]
        exact ⟨deadline, before, after, by simp⟩
      · cases ha.symm.trans hx
    · obtain ⟨deadline, before, after, hmem⟩ := ih hm
      exact ⟨deadline, before, after, List.mem_append_left _ hmem⟩

namespace Sync.Batched

open Consensus (Header LightBlock ChainEntry)

/-- The chain has the entries of the headers, in their order, and no others. -/
def Lists (chain : List ChainEntry) (headers : List Header) : Prop :=
  (headers.map Header.entry).Sublist chain ∧ ∀ entry ∈ chain, entry ∈ headers.map Header.entry

/-- The relay has taken, as the only submission on record, the chain that the light client answered for light blocks
of the headers, which follow `prev`; it ends with the entry of the last of them. -/
structure Attested (record : List (Exchange ρ)) (prev : Header) (headers : List Header) (tip : Header)
    (chain : List ChainEntry) : Prop where
  answered : ∃ blocks : List LightBlock, blocks.map (fun b => b.header) = headers ∧
    Answered record (.consensusClient (.verifyLightBlocks prev blocks)) chain
  taken : ∃ response : Channel.Response, Answered record (.relayStore (.submitHashChain chain)) response
  once : submissionsOf (record.map Exchange.call).reverse = [.relayStore (.submitHashChain chain)]
  tip_last : headers.getLast? = some tip
  ends : chain.getLast? = some tip.entry

variable {record : List (Exchange ρ)} {prev tip : Header} {headers : List Header} {chain : List ChainEntry}

/-- The light client answers with the entries of the headers that it is asked about. -/
def FaithfulClient (record : List (Exchange ρ)) (prev : Header) : Prop :=
  ∀ (blocks : List LightBlock) (chain : List ChainEntry),
    Answered record (.consensusClient (.verifyLightBlocks prev blocks)) chain →
      Lists chain (blocks.map fun b => b.header)

theorem Attested.lists (h : Attested record prev headers tip chain) (hclient : FaithfulClient record prev) :
    Lists chain headers := by
  obtain ⟨blocks, rfl, hanswered⟩ := h.answered
  exact hclient blocks chain hanswered

/-! ## The path of a flush -/

def attestation (s : State Header) (prev : Header) (blocks : List LightBlock) (chain : List ChainEntry) :
    Move (State Header) :=
  ⟨s, .read "consensus_lc.verify_light_blocks", .consensusClient (.verifyLightBlocks prev blocks), .ok chain⟩

def acceptance (s : State Header) (chain : List ChainEntry) (response : Channel.Response) : Move (State Header) :=
  ⟨s, .submit, .relayStore (.submitHashChain chain), .ok response⟩

/-- How a flush of the queue that `s` holds went: after calls that prepare it, one run is attested, and what is
attested is submitted. -/
def Flushed (size : Nat) (prev : Header) (s : State Header) (tip : Header) (moves : List (Move (State Header)))
    (s' : State Header) : Prop :=
  ∃ (blocks : List LightBlock) (chain : List ChainEntry) (response : Channel.Response)
    (reads : List (Move (State Header))),
    blocks.map (fun b => b.header) = s.pending.take size ∧ (s.pending.take size).getLast? = some tip ∧
      chain.getLast? = some tip.entry ∧ (∀ m ∈ reads, Prepares m.call) ∧
      moves = reads ++ [attestation s prev blocks chain, acceptance s chain response] ∧
      s' = { s with pending := s.pending.drop size }

/-- Whatever its peers answer, a flush that ends well went so, and one that does not leaves the engine as it was. -/
theorem flushed_sendBatchView {size : Nat} {s : State Header} :
    (sendBatchView size prev).Ensures .everyone (fun _ _ _ => True) [] s ()
      (fun tip moves s' _ => Flushed size prev s tip moves s') fun _ _ s' _ => s' = s := by
  refine ensures_sendBatchView (fun _ _ _ _ => trivial) (fun _ _ => trivial) (fun _ _ => trivial)
    (fun _ _ _ => rfl) fun blocks reads hblocks hreads => ⟨⟨trivial, trivial⟩, ?_⟩
  rintro chain tip _ _ - rfl htip hends
  refine ⟨⟨trivial, trivial⟩, fun response _ => ⟨blocks, chain, response, reads, hblocks, htip, hends, hreads, ?_, ?_⟩⟩
  · rw [List.nil_append, List.append_assoc]
    rfl
  · rw [drop_length_take]

theorem Flushed.attested {H : Handler ρ} {limit size : Nat} {s s' : State Header} {moves : List (Move (State Header))}
    (h : Flushed size prev s tip moves s') (htranscript : Transcript H limit moves record) :
    ∃ chain, Attested record prev (s.pending.take size) tip chain := by
  obtain ⟨blocks, chain, response, reads, hblocks, htip, hends, hreads, rfl, -⟩ := h
  have hmode : ∀ m ∈ reads ++ [attestation s prev blocks chain, acceptance s chain response],
      m.call.isSubmission = true → m.mode = .submit := by
    intro m hm hsubmits
    simp only [List.mem_append, List.mem_cons, List.not_mem_nil, or_false] at hm
    obtain hm | rfl | rfl := hm
    · exact absurd hsubmits (by simp [(hreads m hm).1])
    · cases hsubmits
    · rfl
  have hnone : submissionsOf (([] ++ reads).map Move.call) = [] := submissionsOf_moves fun m hm => (hreads m hm).1
  have honce := htranscript.submissions hmode
  rw [List.map_append, submissionsOf_append, ← List.nil_append reads, hnone] at honce
  have hanswered := htranscript.answered (attestation s prev blocks chain) (by simp) rfl
  have htaken := htranscript.answered (acceptance s chain response) (by simp) rfl
  exact ⟨chain, ⟨blocks, hblocks, hanswered⟩, ⟨response, htaken⟩, honce, htip, hends⟩

/-- **Flushes.** In every timed run of a flush, whoever the peers are and whatever they answer: if it ends well, the
headers that leave the queue are its first ones, and the relay has taken for them, in the one submission that was made,
what the light client answered, which lists them if the client is faithful; a flush that does not end well leaves the
engine as it was. -/
theorem flush_submits_attested {H : Handler ρ} {followed size : Nat} {policy : Policy} {s s' : State Header}
    {w w' : World (ρ × List (Exchange ρ))} {r : Relayed Header} (hrecord : w.record = [])
    (hrun : ((sendBatch size prev).start s).run followed policy H.recorded none w = (.done (r, s'), w')) :
    (∀ tip, r = .ok tip → s.pending = s.pending.take size ++ s'.pending ∧
      ∃ chain, Attested w'.record prev (s.pending.take size) tip chain ∧
        (FaithfulClient w'.record prev → Lists chain (s.pending.take size))) ∧
    ∀ x, r = .error x → s' = s := by
  rw [← (sendBatchView size prev).program_begun] at hrun
  obtain ⟨moves, l, hl, hwent⟩ := InProgress.run_went hrun
  rw [hrecord, List.append_nil] at hl
  rw [hl]
  cases hwent with
  | ended hreaches htranscript =>
    have hview : (sendBatchView size prev).Ensures .everyone (fun _ _ _ => True) [] s () _ _ := flushed_sendBatchView
    have hend := hview.of_reaches hreaches
    refine ⟨?_, ?_⟩
    · rintro tip rfl
      have hflushed : Flushed size prev s tip moves s' := hend
      obtain ⟨chain, hattested⟩ := hflushed.attested htranscript
      refine ⟨?_, chain, hattested, hattested.lists⟩
      obtain ⟨-, -, -, -, -, -, -, -, -, rfl⟩ := hflushed
      exact (List.take_append_drop size s.pending).symm
    · rintro x rfl
      exact hend
  | stopped _ _ _ ho => exact absurd rfl (ho _)

/-! ## A flush of two headers -/

/-- A plain node, a light client that attests what `client` says, and a relay that takes every chain. -/
def plainScript (client : List LightBlock → List ChainEntry) : (c : Call) → Option (Relayed c.Answer)
  | .consensusNode (.commit height) => some (.ok (⟨height, 0, (plainChain height).hash, []⟩ : Consensus.Commit))
  | .consensusNode (.validatorSet _) => some (.ok (⟨[]⟩ : Consensus.ValidatorSet))
  | .consensusClient (.verifyLightBlocks _ blocks) => some (.ok (client blocks))
  | .relayStore (.submitHashChain _) => some (.ok (⟨"", 0, "", 0, 0⟩ : Channel.Response))
  | _ => none

def twoQueued : State Header := { State.fresh 5 with pending := [plainChain 6, plainChain 11] }

def plainFlush (client : List LightBlock → List ChainEntry) :
    Outcome (Relayed Header × State Header) × World (Unit × List (Exchange Unit)) :=
  ((sendBatch 2 (plainChain 1)).start twoQueued).run 3 ⟨1000, 3, 10⟩ (Handler.scripted (plainScript client)).recorded
    none (.start ((), []))

def everyEntry (blocks : List LightBlock) : List ChainEntry := blocks.map fun b => b.header.entry

def lastEntry (blocks : List LightBlock) : List ChainEntry := (everyEntry blocks).getLast?.toList

/-- Both headers are submitted by a client that answers with all entries. -/
theorem plain_flush_submits :
    (plainFlush everyEntry).1.map Prod.snd = .done { twoQueued with pending := [] } ∧
      ∃ tip chain,
        Attested (plainFlush everyEntry).2.record (plainChain 1) [plainChain 6, plainChain 11] tip chain := by
  have hleft : (plainFlush everyEntry).1.map Prod.snd = .done { twoQueued with pending := [] } := by decide +kernel
  have htip : (plainFlush everyEntry).1.map Prod.fst = .done (.ok (plainChain 11)) := by decide +kernel
  refine ⟨hleft, ?_⟩
  cases hrun : plainFlush everyEntry with
  | mk o w' =>
    rw [hrun] at hleft htip
    cases o with
    | done a =>
      obtain ⟨r, s'⟩ := a
      obtain ⟨-, chain, hattested, -⟩ := (flush_submits_attested rfl hrun).1 (plainChain 11) (Outcome.done.inj htip)
      exact ⟨_, chain, hattested⟩
    | unanswered | unfollowed => cases hleft

/-- **A header is left out.** A client that answers with the last entry only is believed: both headers leave the queue,
and the only chain that was submitted does not have the entry of the first. -/
theorem flush_omits_header :
    ∃ (w' : World (Unit × List (Exchange Unit))) (tip : Header) (s' : State Header),
      plainFlush lastEntry = (.done (.ok tip, s'), w') ∧ twoQueued.pending = [plainChain 6, plainChain 11] ∧
        s'.pending = [] ∧
        submissionsOf (w'.record.map Exchange.call).reverse =
          [.relayStore (.submitHashChain [(plainChain 11).entry])] ∧
        ¬ Lists [(plainChain 11).entry] [plainChain 6, plainChain 11] := by
  refine ⟨_, plainChain 11, _, rfl, rfl, rfl, rfl, ?_⟩
  rintro ⟨hsublist, -⟩
  exact absurd hsublist.length_le (by decide)

end Sync.Batched

end HeaderRelay
