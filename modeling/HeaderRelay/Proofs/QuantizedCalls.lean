import HeaderRelay.Proofs.LayeredReads
import HeaderRelay.Proofs.Padding
import HeaderRelay.Proofs.RunPaths

/-!
# What contracts send over the channel

A call to a contract has one message (`unpadded?`), and what the channel is handed is that message, padded: in every
exchange of the call, so in every attempt of a query (`SendsFor`). The messages have an object under their action that
has no padding field, so the padding can be taken away again (`unpad_pad`), and what is sent fills its blocks or lacks
less than the least that is filled (`quantized_pad`).

A submission is one execution. Its result is a response with code zero, a response with another code is the error that
carries the message as it was before padding, and errors of the channel are handed on (`Executed`). An error of the
channel may itself be one of an execution, with whatever text the channel gave it (`channel_execution_error`).
-/
namespace HeaderRelay

open Peer (Call Handler Exchange)

variable {ρ α β : Type}

/-! ## Padding that can be taken away -/

namespace Channel

variable {blockSize minPadding : Nat} {action key : String} {inner arguments rest : List (String × Json)}

def unpad : Json → Json
  | .obj ((key, .obj inner) :: rest) => .obj ((key, .obj (inner.filter fun f => f.1 != paddingKey)) :: rest)
  | msg => msg

/-- The message fills its blocks, or lacks less than is ever filled. -/
def Quantized (blockSize minPadding : Nat) (msg : Json) : Prop :=
  msg.size % blockSize = 0 ∨ missing blockSize msg < max minPadding 7

theorem filter_fresh (h : "p" ∉ inner.map (·.1)) : (inner.filter fun f => f.1 != paddingKey) = inner := by
  rw [List.filter_eq_self]
  intro f hf
  have hne : f.1 ≠ paddingKey := fun heq => h (List.mem_map.mpr ⟨f, hf, heq⟩)
  simp [hne]

theorem unpad_fresh (h : "p" ∉ inner.map (·.1)) :
    unpad (.obj ((key, .obj inner) :: rest)) = .obj ((key, .obj inner) :: rest) := by
  rw [unpad, filter_fresh h]

theorem unpad_concat (h : "p" ∉ inner.map (·.1)) (value : Json) :
    unpad (.obj ((key, .obj (inner ++ [("p", value)])) :: rest)) = .obj ((key, .obj inner) :: rest) := by
  rw [unpad, List.filter_append, filter_fresh h, List.filter_cons_of_neg (by simp [paddingKey]), List.filter_nil,
    List.append_nil]

theorem unpad_pad (hblock : 0 < blockSize) (minPadding : Nat) (action : String)
    (hfresh : "p" ∉ arguments.map (·.1)) :
    unpad (pad blockSize minPadding (message action arguments)) = message action arguments := by
  by_cases htakes : ∃ key inner rest, Takes blockSize minPadding (message action arguments) key inner rest
  · obtain ⟨key, inner, rest, htakes⟩ := htakes
    rw [htakes.pad_eq hblock, unpad_concat htakes.fresh, htakes.first]
  · rw [pad_of_not_takes fun key inner rest h => htakes ⟨key, inner, rest, h⟩]
    exact unpad_fresh hfresh

/-- A padded message fills its blocks, or lacks less than the field or the configured minimum. -/
theorem quantized_pad (hblock : 0 < blockSize) (minPadding : Nat) (action : String)
    (hfresh : "p" ∉ arguments.map (·.1)) :
    Quantized blockSize minPadding (pad blockSize minPadding (message action arguments)) := by
  by_cases htakes : ∃ key inner rest, Takes blockSize minPadding (message action arguments) key inner rest
  · obtain ⟨key, inner, rest, htakes⟩ := htakes
    left
    rw [htakes.size_pad_eq_mul hblock]
    exact Nat.mul_mod_left ..
  · rw [pad_of_not_takes fun key inner rest h => htakes ⟨key, inner, rest, h⟩, Quantized]
    by_contra hneither
    obtain ⟨hpartly, hmissing⟩ := not_or.mp hneither
    refine htakes ⟨action, arguments, [], rfl, hfresh, hpartly, ?_, ?_⟩
    · omega
    · split <;> omega

/-! ## The message of a call -/

/-- The message of a call to a contract, before padding. A leaf that is not the proven one is refused without a
message, and recent executions are asked for without one. -/
def unpadded? : Call → Option Json
  | .bitcoinClient .bestHeaderHash | .bitcoinClient .bestHeight => some (message "best_header" [])
  | .bitcoinClient (.headerHashAt height) => some (message "header_at" [("height", .nat height)])
  | .bitcoinClient (.submitHeaders tipHeight headers _) =>
    some (message submitHeadersAction
      [("tip_height", .nat tipHeight), ("headers", .arr (headers.map fun h => Json.hexText h.raw))])
  | .consensusClient .bestCommittedHash | .consensusClient .currentHeight => some (message "best_header" [])
  | .consensusClient (.submitLightBlocks prev blocks) =>
    some (message "submit_light_blocks" (lightBlocks prev blocks))
  | .consensusClient (.verifyLightBlocks prev blocks) =>
    some (message "verify_subsequent_light_blocks" (lightBlocks prev blocks))
  | .consensusClient (.verifyInclusion height leaf proof) =>
    if leafHash leaf ≠ proof.leafHash then none
    else some (message "verify_tx_result" [("height", .nat height), ("proof", proof.toWire.toJson)])
  | .relayStore .bestHeight | .relayStore .bestHash => some (message "best_hash" [])
  | .relayStore (.submitHashChain chain) =>
    some (message "append_hash_chain" [("chain", .arr (chain.map Consensus.ChainEntry.toJson))])
  | _ => none

def gasOf : Call → Option Nat
  | .bitcoinClient (.submitHeaders _ _ gas) => gas
  | _ => none

/-- What a call to a contract sends over the channel: its message, padded, or the question for recent executions. -/
def SendsFor (client : Client) (c sent : Call) : Prop :=
  (∃ msg, unpadded? c = some msg ∧ sent = .messages (if c.isSubmission then
    .execute client.address (client.pad msg) (gasOf c) else .query client.address (client.pad msg))) ∨
  c = .bitcoinClient .lastSubmissionGas ∧
    sent = .messages (.recent ⟨client.address, client.sender, submitHeadersAction⟩)

/-- Every message is an action with arguments, none of which has the padding's key. -/
theorem exists_of_unpadded? {c : Call} {msg : Json} (h : unpadded? c = some msg) :
    ∃ action arguments, msg = message action arguments ∧ "p" ∉ arguments.map (·.1) := by
  have hform : ∀ {action arguments}, "p" ∉ arguments.map (·.1) → some (message action arguments) = some msg →
      ∃ action arguments, msg = message action arguments ∧ "p" ∉ arguments.map (·.1) :=
    fun hfresh heq => ⟨_, _, (Option.some.inj heq).symm, hfresh⟩
  cases c with
  | bitcoinClient c =>
    cases c with
    | lastSubmissionGas => cases h
    | _ => exact hform (by simp) h
  | consensusClient c =>
    cases c with
    | verifyInclusion height leaf proof =>
      have h : (if leafHash leaf ≠ proof.leafHash then none else some _) = some msg := h
      split at h
      · cases h
      · exact hform (by simp) h
    | submitLightBlocks | verifyLightBlocks => exact hform (by simp [lightBlocks]) h
    | _ => exact hform (by simp) h
  | relayStore c => cases c <;> exact hform (by simp) h
  | _ => cases h

end Channel

/-! ## What is sent -/

/-- Computations over peers on record that send calls of some kind only. -/
def Timed.Sends (P : Call → Prop) (x : Timed (ρ × List (Exchange ρ)) α) : Prop :=
  x.Leaves fun sent => ∀ e ∈ sent, P e.call

/-- Programs that make calls of some kind only. -/
def Program.AsksOnly (P : Call → Prop) : Program α → Prop
  | .done _ => True
  | .note _ next => next.AsksOnly P
  | .ask _ c next => P c ∧ ∀ r, (next r).AsksOnly P

section Sending

variable {P : Call → Prop}

theorem Timed.sends_recorded (H : Handler ρ) {c : Call} (hc : P c) : (H.recorded c).Sends P := by
  intro deadline w o w' h
  obtain ⟨after, -, rfl⟩ := Handler.recorded_cases h
  exact ⟨[_], rfl, List.forall_mem_singleton.mpr hc⟩

/-- **Runs.** A program sends the calls that it makes. -/
theorem Program.AsksOnly.sends {p : Program α} {followed : Nat} {policy : Policy}
    {H : Handler (ρ × List (Exchange ρ))} (h : p.AsksOnly P) (hH : ∀ c, P c → (H c).Sends P) :
    (p.run followed policy H).Sends P := by
  induction p with
  | done a =>
    intro deadline w o w' hrun
    cases hrun
    exact ⟨[], rfl, by simp⟩
  | note ev next ih =>
    intro deadline w o w' hrun
    exact ih h deadline { w with log := ev :: w.log } o w' hrun
  | ask mode c next ih =>
    obtain ⟨hc, hnext⟩ := h
    have happend : ∀ first later : List (Exchange ρ), (∀ e ∈ first, P e.call) → (∀ e ∈ later, P e.call) →
        ∀ e ∈ later ++ first, P e.call :=
      fun first later hfirst hlater => List.forall_mem_append.mpr ⟨hlater, hfirst⟩
    have hcarry : (mode.carry followed policy (H c)).Sends P := Mode.leaves (hH c hc) (by simp) happend
    exact Timed.Leaves.bind hcarry (fun r => ih r (hnext r)) (fun _ hfirst => hfirst) happend

theorem Program.AsksOnly.andThen_done {p : Program α} (h : p.AsksOnly P) (f : α → β) :
    (p.andThen fun a => .done (f a)).AsksOnly P := by
  induction p with
  | done a => exact trivial
  | note ev next ih => exact ih h
  | ask mode c next ih => exact ⟨h.1, fun r => ih r (h.2 r)⟩

end Sending

/-! ## The calls of the contracts -/

def Peer.Call.toContract : Call → Bool
  | .bitcoinClient _ | .consensusClient _ | .relayStore _ => true
  | _ => false

namespace Channel

variable {client : Client} {msg : Json}

theorem Client.asksOnly_query {P : Call → Prop} {decode : Json → Option α}
    (h : P (.messages (.query client.address (client.pad msg)))) : (client.query msg decode).AsksOnly P := by
  unfold query
  split
  · exact trivial
  · refine ⟨h, ?_⟩
    rintro (x | answer)
    · exact trivial
    · dsimp only
      cases decode answer <;> exact trivial

theorem Client.asksOnly_execute {P : Call → Prop} {gas : Option Nat}
    (h : P (.messages (.execute client.address (client.pad msg) gas))) : (client.execute msg gas).AsksOnly P := by
  unfold execute
  split
  · exact trivial
  · refine ⟨h, ?_⟩
    rintro (x | response)
    · exact trivial
    · show Program.AsksOnly P (if _ then _ else _)
      split <;> exact trivial

theorem asksOnly_bitcoinClient (client : Client) (c : Peer.BitcoinClient) :
    (bitcoinClient client c).AsksOnly (SendsFor client (.bitcoinClient c)) := by
  cases c with
  | submitHeaders tipHeight headers gas =>
    unfold bitcoinClient
    exact Client.asksOnly_execute (.inl ⟨_, rfl, rfl⟩)
  | lastSubmissionGas =>
    have hrecent : (client.recent submitHeadersAction).AsksOnly (SendsFor client (.bitcoinClient .lastSubmissionGas)) :=
      ⟨.inr ⟨rfl, rfl⟩, fun _ => trivial⟩
    exact hrecent.andThen_done _
  | _ => exact (Client.asksOnly_query (.inl ⟨_, rfl, rfl⟩)).andThen_done _

theorem asksOnly_consensusClient (client : Client) (c : Peer.ConsensusClient) :
    (consensusClient client c).AsksOnly (SendsFor client (.consensusClient c)) := by
  cases c with
  | submitLightBlocks prev blocks =>
    unfold consensusClient
    exact Client.asksOnly_execute (.inl ⟨_, rfl, rfl⟩)
  | verifyLightBlocks prev blocks =>
    unfold consensusClient
    exact Client.asksOnly_query (.inl ⟨_, rfl, rfl⟩)
  | verifyInclusion height leaf proof =>
    show Program.AsksOnly _ (if _ then _ else _)
    split
    · exact trivial
    · rename_i hleaf
      exact Client.asksOnly_query (.inl ⟨_, if_neg hleaf, rfl⟩)
  | _ => exact (Client.asksOnly_query (.inl ⟨_, rfl, rfl⟩)).andThen_done _

theorem asksOnly_relayStore (client : Client) (c : Peer.RelayStore) :
    (relayStore client c).AsksOnly (SendsFor client (.relayStore c)) := by
  cases c with
  | submitHashChain chain =>
    unfold relayStore
    exact Client.asksOnly_execute (.inl ⟨_, rfl, rfl⟩)
  | _ => exact (Client.asksOnly_query (.inl ⟨_, rfl, rfl⟩)).andThen_done _

theorem sends_overChannel (followed : Nat) (client : Client) (H : Handler ρ) {c : Call} (hc : c.toContract = true) :
    (overChannel followed client H.recorded c).Sends (SendsFor client c) := by
  have hchannel : ∀ {H' : Handler (ρ × List (Exchange ρ))}, (∀ m, H' (.messages m) = H.recorded (.messages m)) →
      ∀ c', SendsFor client c c' → (H' c').Sends (SendsFor client c) := by
    intro H' hH' c' hc'
    obtain ⟨m, rfl⟩ : ∃ m, c' = .messages m := by
      obtain ⟨msg, -, rfl⟩ | ⟨-, rfl⟩ := hc' <;> exact ⟨_, rfl⟩
    rw [hH']
    exact Timed.sends_recorded H hc'
  cases c with
  | bitcoinClient c => exact (asksOnly_bitcoinClient client c).sends (hchannel fun _ => rfl)
  | consensusClient c => exact (asksOnly_consensusClient client c).sends (hchannel fun _ => rfl)
  | relayStore c => exact (asksOnly_relayStore client c).sends (hchannel fun _ => rfl)
  | _ => cases hc

/-! ## Executions -/

/-- What a submission comes to, `sent` being what its execution came to on the channel. -/
structure Executed (msg : Json) (sent : Outcome (Relayed Response)) (o : Outcome (Relayed α)) : Prop where
  ok_iff : (∃ a, o = .done (.ok a)) ↔ ∃ response, sent = .done (.ok response) ∧ response.code = 0
  refused : ∀ response, sent = .done (.ok response) → response.code ≠ 0 →
    o = .done (.error (.execution msg.text response.code response.rawLog))
  failed : ∀ x, sent = .done (.error x) → o = .done (.error x)
  execution : ∀ request code log, o = .done (.error (.execution request code log)) →
    (∃ response, sent = .done (.ok response) ∧ response.code ≠ 0 ∧ request = msg.text ∧ code = response.code ∧
      log = response.rawLog) ∨ sent = .done (.error (.execution request code log))

theorem executed (msg : Json) {limit : Nat} {sent o₁ : Outcome (Relayed Response)}
    (hsent : o₁ = sent ∨ sent = .unanswered ∧ o₁ = .done (.error (.timeout limit))) :
    Executed msg sent (match o₁ with
      | .done (.ok r) =>
        if r.succeeded then .done (.ok r) else .done (.error (.execution msg.text r.code r.rawLog))
      | o₁ => o₁) := by
  obtain rfl | ⟨rfl, rfl⟩ := hsent
  · cases o₁ with
    | done r =>
      cases r with
      | ok response =>
        by_cases hcode : response.code = 0
        · have hok : response.succeeded = true := by simp [Response.succeeded, hcode]
          simp only [hok, if_true]
          exact ⟨by simp [hcode], by simp [hcode], by simp, by simp⟩
        · have hbad : ¬ response.succeeded = true := by simp [Response.succeeded, hcode]
          simp only [hbad]
          exact ⟨by simp [hcode], by simp, by simp, by simp [hcode, eq_comm]⟩
      | error x => exact ⟨by simp, by simp, by simp, fun _ _ _ h => .inr h⟩
    | unanswered | unfollowed => exact ⟨by simp, by simp, by simp, by simp⟩
  · exact ⟨by simp, by simp, by simp, by simp⟩

/-- **Executions.** An execution sends one message and tells what became of it. -/
theorem Client.execute_run {action : String} {gas : Option Nat} {followed : Nat} {policy : Policy} {H : Handler ρ}
    {H' : Handler (ρ × List (Exchange ρ))} {deadline : Option Nat} {w w' : World (ρ × List (Exchange ρ))}
    {o : Outcome (Relayed Response)}
    (hrun : (client.execute msg gas).run followed policy H' deadline w = (o, w'))
    (hH' : ∀ m, H' (.messages m) = H.recorded (.messages m)) (haction : actionName msg = .ok action) :
    ∃ d sent after, w'.record =
        ⟨.messages (.execute client.address (client.pad msg) gas), d, w.bare, sent, after⟩ :: w.record ∧
      Executed msg sent o := by
  unfold execute at hrun
  rw [haction] at hrun
  simp only [Program.run, Mode.carry, Policy.submit, hH', bind, Timed.andThen] at hrun
  cases hcall : Timed.within policy.timeout (H.recorded (.messages (.execute client.address (client.pad msg) gas)))
      deadline w with
  | mk o₁ w₁ =>
    obtain ⟨d, sent, after, hrecord, -, hsent⟩ := Timed.within_exchange hcall
    have hexecuted := executed msg hsent
    rw [hcall] at hrun
    refine ⟨d, sent, after, ?_⟩
    rw [← hrecord]
    cases o₁ with
    | done r =>
      cases r with
      | ok response =>
        dsimp only at hrun hexecuted
        split at hrun
        all_goals
          rename_i hcode
          cases hrun
          simp only [hcode] at hexecuted
          exact ⟨rfl, hexecuted⟩
      | error x =>
        cases hrun
        exact ⟨rfl, hexecuted⟩
    | unanswered | unfollowed =>
      cases hrun
      exact ⟨rfl, hexecuted⟩

theorem executes_overChannel {followed : Nat} {client : Client} {H : Handler ρ} {c : Call}
    (hc : c.toContract = true) (hsubmits : c.isSubmission = true) {deadline : Option Nat}
    {w w' : World (ρ × List (Exchange ρ))} {o : Outcome (Relayed c.Answer)}
    (hrun : overChannel followed client H.recorded c deadline w = (o, w')) :
    ∃ msg d sent after, unpadded? c = some msg ∧
      w'.record = ⟨.messages (.execute client.address (client.pad msg) (gasOf c)), d, w.bare, sent, after⟩ :: w.record ∧
      Executed msg sent o := by
  cases c with
  | bitcoinClient c =>
    cases c with
    | submitHeaders tipHeight headers gas =>
      simp only [overChannel, viaBitcoinClient, bitcoinClient] at hrun
      obtain ⟨d, sent, after, hrecord, hexecuted⟩ := Client.execute_run hrun (fun _ => rfl) rfl
      exact ⟨_, d, sent, after, rfl, hrecord, hexecuted⟩
    | _ => cases hsubmits
  | consensusClient c =>
    cases c with
    | submitLightBlocks prev blocks =>
      simp only [overChannel, viaBitcoinClient, viaConsensusClient, consensusClient] at hrun
      obtain ⟨d, sent, after, hrecord, hexecuted⟩ := Client.execute_run hrun (fun _ => rfl) rfl
      exact ⟨_, d, sent, after, rfl, hrecord, hexecuted⟩
    | _ => cases hsubmits
  | relayStore c =>
    cases c with
    | submitHashChain chain =>
      simp only [overChannel, viaBitcoinClient, viaConsensusClient, viaRelayStore, relayStore] at hrun
      obtain ⟨d, sent, after, hrecord, hexecuted⟩ := Client.execute_run hrun (fun _ => rfl) rfl
      exact ⟨_, d, sent, after, rfl, hrecord, hexecuted⟩
    | _ => cases hsubmits
  | _ => cases hc

/-- **Calls over the channel.** Whatever the channel does: in all its attempts a call to a contract sends the same
padded message, from which the message comes back when the padding is taken away, and which fills its blocks or lacks
less than is ever filled. A submission sends it once, ends well exactly if the response has code zero, and ends with the
error that carries the message as it was before padding if the response has another code; any other error of an
execution is the channel's own. -/
theorem contract_calls_quantized {client : Client} (hblock : 0 < client.config.blockSize) {followed : Nat}
    {H : Handler ρ} {c : Call} (hc : c.toContract = true) {deadline : Option Nat}
    {w w' : World (ρ × List (Exchange ρ))} {o : Outcome (Relayed c.Answer)}
    (hrun : overChannel followed client H.recorded c deadline w = (o, w')) :
    (∃ sent, w'.record = sent ++ w.record ∧ ∀ e ∈ sent, SendsFor client c e.call) ∧
    (∀ msg, unpadded? c = some msg → unpad (client.pad msg) = msg ∧
      Quantized client.config.blockSize client.config.minPadding (client.pad msg)) ∧
    (c.isSubmission = true → ∃ msg d sent after, unpadded? c = some msg ∧
      w'.record = ⟨.messages (.execute client.address (client.pad msg) (gasOf c)), d, w.bare, sent, after⟩ :: w.record ∧
      Executed msg sent o) := by
  refine ⟨sends_overChannel followed client H hc _ _ _ _ hrun, fun msg hmsg => ?_,
    fun hsubmits => executes_overChannel hc hsubmits hrun⟩
  obtain ⟨action, arguments, rfl, hfresh⟩ := exists_of_unpadded? hmsg
  exact ⟨unpad_pad hblock _ action hfresh, quantized_pad hblock _ action hfresh⟩

/-! ## An empty chain -/

def plainClient : Client := ⟨"contract", "sender", ⟨64, 7, 1000, 3, 10⟩⟩

/-- The submission of an empty chain over a channel that gives one answer to all executions. -/
def emptyChainSubmission (answer : Relayed Response) :
    Outcome (Relayed Response) × World (Unit × List (Exchange Unit)) :=
  overChannel 3 plainClient (Handler.scripted fun
    | .messages (.execute ..) => some answer
    | _ => none).recorded (.relayStore (.submitHashChain [])) none (.start ((), []))

def emptyChainMessage : Json := message "append_hash_chain" [("chain", .arr [])]

/-- A submission that the chain refuses: one message of 64 bytes, and the error carries the one of 34 that it was. -/
theorem refused_submission :
    (emptyChainSubmission (.ok ⟨"", 11, "out of gas", 0, 0⟩)).1 =
        .done (.error (.execution emptyChainMessage.text 11 "out of gas")) ∧
      unpad (plainClient.pad emptyChainMessage) = emptyChainMessage ∧ emptyChainMessage.size = 34 ∧
      (plainClient.pad emptyChainMessage).size = 64 := by
  obtain ⟨-, hpadded, hsubmission⟩ := contract_calls_quantized (by decide : 0 < plainClient.config.blockSize)
    (by rfl : Call.toContract (.relayStore (.submitHashChain [])) = true)
    (rfl : overChannel 3 plainClient _ (.relayStore (.submitHashChain [])) none _ =
      emptyChainSubmission (.ok ⟨"", 11, "out of gas", 0, 0⟩))
  obtain ⟨msg, d, sent, after, hmsg, hrecord, hexecuted⟩ := hsubmission rfl
  cases hmsg
  cases hrecord
  exact ⟨hexecuted.refused _ rfl (by decide), (hpadded _ rfl).1, by decide +kernel, by decide +kernel⟩

/-- **An error of the channel.** The channel may itself fail with the error of an execution, and the text in it is then
not the message. -/
theorem channel_execution_error :
    (emptyChainSubmission (.error (.execution "x" 3 "boom"))).1 = .done (.error (.execution "x" 3 "boom")) ∧
      unpadded? (.relayStore (.submitHashChain [])) = some emptyChainMessage ∧ emptyChainMessage.text ≠ "x" :=
  ⟨rfl, rfl, by decide +kernel⟩

end Channel

end HeaderRelay
