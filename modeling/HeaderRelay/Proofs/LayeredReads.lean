import HeaderRelay.Channel.Routing
import HeaderRelay.Proofs.Exchanges
import Mathlib.Data.Nat.Find

/-!
# Reads in two layers

An engine reads a contract through an adapter that itself reads the channel: two loops, one inside the other,
each with all the attempts of the policy. A `Reading` is what an adapter makes of a read, an outcome on the spot
or a read over the channel whose answer is then looked at (`reading_overChannel`).

One attempt of the engine has one deadline for everything inside it, so it sends no more queries than fit into
it with the pauses between them (`Policy.burst`), and the engine makes as many attempts as the policy allows.
Both bounds are met at once by a channel that is always down. So the number of queries is the product, and it is
the number of attempts only when there is one attempt or when not even the first pause fits
(`queries_within_attempts_iff`).
-/
namespace HeaderRelay

open Peer (Call Handler Exchange)

variable {σ α β : Type}

/-- Calls to a contract that do not ask it to change its state. -/
def Peer.Call.readsContract : Call → Bool
  | .bitcoinClient c => !(Call.bitcoinClient c).isSubmission
  | .consensusClient c => !(Call.consensusClient c).isSubmission
  | .relayStore c => !(Call.relayStore c).isSubmission
  | _ => false

namespace Channel

open Relayed (final_ok final_error)

def overChannel (followed : Nat) (client : Client) (H : Handler σ) : Handler σ :=
  viaBitcoinClient followed client (viaConsensusClient followed client (viaRelayStore followed client H))

def layeredRead (followed : Nat) (client : Client) (H : Handler σ) (op : String) (c : Call) :
    Timed σ (Relayed c.Answer) :=
  (Mode.read op).carry followed client.config.policy (overChannel followed client H c)

/-! ## What an adapter makes of a read -/

/-- Programs that make at most one call, a read over the channel, hand on its error and turn its answer into an
outcome that is final. -/
inductive Queries : Program (Relayed α) → Prop where
  | spot {r : Relayed α} : r.Final → Queries (.done r)
  | ask {action : String} {m : Peer.Messages} {next : Relayed (Call.messages m).Answer → Program (Relayed α)}
      (finish : (Call.messages m).Answer → Relayed α) : (∀ x, next (.error x) = .done (.error x)) →
    (∀ a, next (.ok a) = .done (finish a)) → (∀ a, (finish a).Final) →
    Queries (.ask (.read action) (.messages m) next)

/-- What a read comes to behind its adapter. -/
inductive Reading (followed : Nat) (policy : Policy)
    (channel : (m : Peer.Messages) → Timed σ (Relayed (Call.messages m).Answer)) : Timed σ (Relayed α) → Prop where
  | spot {r : Relayed α} : r.Final → Reading followed policy channel (pure r)
  | query (action : String) (m : Peer.Messages) (finish : (Call.messages m).Answer → Relayed α) :
    (∀ a, (finish a).Final) →
    Reading followed policy channel
      (policy.read followed action (channel m) >>= fun r => pure (r >>= finish))

theorem final_bind {r : Relayed α} {f : α → Relayed β} (hr : r.Final) (hf : ∀ a, (f a).Final) : (r >>= f).Final := by
  cases r with
  | ok a => exact hf a
  | error x => exact final_error (hr x rfl)

def decoded (action : String) : Option α → Relayed α
  | some a => .ok a
  | none => .error (.serialization (action ++ " answer did not decode"))

theorem queries_query (c : Client) (msg : Json) (decode : Json → Option α) : Queries (c.query msg decode) := by
  unfold Client.query Client.actionName
  cases action? msg with
  | none => exact .spot (final_error rfl)
  | some action =>
    have hfinal : ∀ answer : Json, (decoded action (decode answer)).Final := by
      intro answer
      cases decode answer with
      | some a => exact final_ok a
      | none => exact final_error rfl
    refine .ask (fun answer : Json => decoded action (decode answer)) (fun _ => rfl) (fun answer => ?_) hfinal
    cases hdecode : decode answer with
    | some a =>
      simp only [hdecode]
      rfl
    | none =>
      simp only [hdecode]
      rfl

theorem Queries.answered {p : Program (Relayed α)} (h : Queries p) {f : α → Relayed β} (hf : ∀ a, (f a).Final) :
    Queries (Channel.answered p f) := by
  cases h with
  | spot hr => exact .spot (final_bind hr hf)
  | @ask action m next finish herror hok hfinal =>
    refine .ask (fun a => finish a >>= f) ?_ ?_ fun a => final_bind (hfinal a) hf
    · intro x
      rw [herror]
      rfl
    · intro a
      rw [hok]
      rfl

theorem final_ofDisplay (text : String) : (Hash.ofDisplay text).Final := by
  unfold Hash.ofDisplay
  split
  · exact final_ok _
  · exact final_error rfl

theorem final_hashOfHex (text : String) : (hashOfHex text).Final := by
  unfold hashOfHex
  split
  · exact final_ok _
  · exact final_error rfl

theorem queries_bitcoinClient (client : Client) (c : Peer.BitcoinClient)
    (hc : (Call.bitcoinClient c).isSubmission = false) : Queries (bitcoinClient client c) := by
  cases c with
  | bestHeaderHash => exact (queries_query ..).answered fun a => final_ofDisplay a.hash
  | bestHeight => exact (queries_query ..).answered fun a => final_ok a.height
  | headerHashAt height =>
    refine (queries_query ..).answered fun text => ?_
    cases text with
    | none => exact final_ok none
    | some text => exact final_bind (final_ofDisplay text) (f := fun h => .ok (some h)) fun h => final_ok _
  | submitHeaders => cases hc
  | lastSubmissionGas =>
    exact Queries.answered (.ask .ok (fun _ => rfl) (fun _ => rfl) final_ok) fun txs => final_ok _

theorem queries_consensusClient (client : Client) (c : Peer.ConsensusClient)
    (hc : (Call.consensusClient c).isSubmission = false) : Queries (consensusClient client c) := by
  cases c with
  | bestCommittedHash => exact (queries_query ..).answered fun a => final_hashOfHex a.hash
  | currentHeight => exact (queries_query ..).answered fun a => final_ok a.height
  | submitLightBlocks => cases hc
  | verifyLightBlocks prev blocks => exact queries_query client (message _ (lightBlocks prev blocks)) verifiedChain?
  | verifyInclusion height leaf proof =>
    simp only [consensusClient]
    by_cases hleaf : leafHash leaf ≠ proof.leafHash
    · rw [if_pos hleaf]
      exact .spot (final_ok false)
    · rw [if_neg hleaf]
      exact queries_query client _ validity?

theorem queries_relayStore (client : Client) (c : Peer.RelayStore)
    (hc : (Call.relayStore c).isSubmission = false) : Queries (relayStore client c) := by
  cases c with
  | bestHeight => exact (queries_query ..).answered fun a => final_ok a.height
  | bestHash => exact (queries_query ..).answered fun a => final_hashOfHex a.hash
  | submitHashChain => cases hc

theorem Queries.run_ask {mode : Mode} {c : Call} {next : Relayed c.Answer → Program (Relayed α)}
    (h : Queries (.ask mode c next)) (followed : Nat) (policy : Policy) (H : Handler σ) :
    ∃ action m, ∃ finish : (Call.messages m).Answer → Relayed α, (∀ a, (finish a).Final) ∧
      (Program.ask mode c next).run followed policy H =
        policy.read followed action (H (.messages m)) >>= fun r => pure (r >>= finish) := by
  cases h with
  | @ask action m next finish herror hok hfinal =>
    have hnext : ∀ r, (next r).run followed policy H = pure (r >>= finish) := by
      intro r
      cases r with
      | ok a =>
        rw [hok]
        rfl
      | error x =>
        rw [herror]
        rfl
    refine ⟨action, m, finish, hfinal, ?_⟩
    rw [← funext hnext]
    rfl

theorem Queries.reading {p : Program (Relayed α)} (h : Queries p) (followed : Nat) (policy : Policy)
    (H : Handler σ) : Reading followed policy (fun m => H (.messages m)) (p.run followed policy H) := by
  cases p with
  | done r =>
    cases h with
    | spot hr => exact .spot hr
  | note ev next => cases h
  | ask mode c next =>
    obtain ⟨action, m, finish, hfinish, hrun⟩ := h.run_ask followed policy H
    rw [hrun]
    exact .query action m finish hfinish

/-- A read of a contract is a reading of the channel. -/
theorem reading_overChannel (followed : Nat) (client : Client) (H : Handler σ) {c : Call}
    (hc : c.readsContract = true) :
    Reading followed client.config.policy (fun m => H (.messages m)) (overChannel followed client H c) := by
  have hread : c.isSubmission = false := by
    cases c with
    | bitcoinClient | consensusClient | relayStore => simpa [Call.readsContract] using hc
    | bitcoinNode | consensusNode | messages => cases hc
  -- behind each adapter, the channel is the handler's own
  cases c with
  | bitcoinClient c =>
    exact (queries_bitcoinClient client c hread).reading followed client.config.policy
      (viaConsensusClient followed client (viaRelayStore followed client H))
  | consensusClient c =>
    exact (queries_consensusClient client c hread).reading followed client.config.policy
      (viaRelayStore followed client H)
  | relayStore c => exact (queries_relayStore client c hread).reading followed client.config.policy _
  | bitcoinNode | consensusNode | messages => cases hc

/-- An adapter waits for the pauses that the channel asks for, and asks for none itself. -/
theorem Reading.unlimited {followed : Nat} {policy : Policy}
    {channel : (m : Peer.Messages) → Timed σ (Relayed (Call.messages m).Answer)} {x : Timed σ (Relayed α)}
    (h : Reading followed policy channel x) : x.Unlimited := by
  have hfinal : ∀ {r : Relayed α} {seconds : Nat}, r.Final → r ≠ .error (.rateLimited seconds) := by
    intro r seconds hr heq
    exact absurd (hr _ heq) (by simp [RelayError.isTransient, RelayError.kind])
  intro deadline w seconds w' heq
  cases h with
  | spot hr =>
    cases heq
    exact hfinal hr rfl
  | query action m finish hfinish =>
    obtain ⟨o₁, hread, ho⟩ := Timed.bind_pure_cases heq
    cases o₁ with
    | done r =>
      cases r with
      | ok a => exact hfinal (hfinish a) (Outcome.done.inj ho.symm)
      | error x =>
        cases ho
        exact (Policy.read_runs hread).not_limited seconds rfl
    | unanswered => cases ho
    | unfollowed => cases ho

end Channel

/-! ## How many queries fit into an attempt -/

namespace Policy

def pause (p : Policy) (n : Nat) : Nat := sleepTime (pauseAfter p.backoff n)

/-- How long the first `n` pauses last. -/
def pauses (p : Policy) : Nat → Nat
  | 0 => 0
  | n + 1 => p.pauses n + p.pause (n + 1)

/-- The queries that one deadline has room for: the first, and one after each pause that still fits. -/
def burst (p : Policy) : Nat := Nat.findGreatest (fun n => p.pauses n ≤ p.timeout) (p.attempts - 1) + 1

variable {p : Policy}

theorem attempts_left {k : Nat} (h : k < p.attempts) (n : Nat) :
    (p.attempts - k) * n = (p.attempts - (k + 1)) * n + n := by
  rw [← Nat.succ_mul]
  congr 1
  omega

theorem pauses_mono (p : Policy) {m n : Nat} (h : m ≤ n) : p.pauses m ≤ p.pauses n := by
  induction h with
  | refl => exact Nat.le_refl _
  | step _ ih => exact Nat.le_trans ih (Nat.le_add_right _ _)

theorem lt_burst {k : Nat} : k < p.burst ↔ k < p.attempts ∧ p.pauses k ≤ p.timeout := by
  have hpos := p.attempts_pos
  unfold burst
  constructor
  · intro h
    have hle : k ≤ Nat.findGreatest (fun n => p.pauses n ≤ p.timeout) (p.attempts - 1) := Nat.le_of_lt_succ h
    have hfits : p.pauses (Nat.findGreatest (fun n => p.pauses n ≤ p.timeout) (p.attempts - 1)) ≤ p.timeout :=
      Nat.findGreatest_spec (P := fun n => p.pauses n ≤ p.timeout) (Nat.zero_le _) (Nat.zero_le _)
    have hlast : Nat.findGreatest (fun n => p.pauses n ≤ p.timeout) (p.attempts - 1) ≤ p.attempts - 1 :=
      Nat.findGreatest_le _
    exact ⟨by omega, Nat.le_trans (p.pauses_mono hle) hfits⟩
  · intro h
    obtain ⟨hk, hfits⟩ := h
    exact Nat.lt_succ_of_le (Nat.le_findGreatest (by omega) hfits)

theorem burst_pos : 0 < p.burst := lt_burst.mpr ⟨p.attempts_pos, Nat.zero_le _⟩

end Policy

namespace Channel

/-! ## One attempt -/

/-- What an attempt with the deadline `due` makes of how the read over the channel ended. -/
inductive Attempted (limit due : Nat) :
    Outcome (Relayed β) → World σ → Outcome (Relayed α) → World σ → Prop where
  | answered {a : β} {r : Relayed α} {w} : r.Final → Attempted limit due (.done (.ok a)) w (.done r) w
  | failed {x w} : Attempted limit due (.done (.error x)) w (.done (.error x)) w
  | late {w} : Attempted limit due .unanswered w (.done (.error (.timeout limit))) { w with now := due }
  | unfollowed {w} : Attempted limit due .unfollowed w .unfollowed w

section Attempts

variable {followed : Nat} {policy : Policy} {op action : String} {c : Call} {H : Handler σ}
  {w w' : World (σ × List (Exchange σ))}

theorem attempt_runs {call : Timed σ (Relayed β)} {finish : β → Relayed α} {w w' : World σ} {o : Outcome (Relayed α)}
    (hfinish : ∀ a, (finish a).Final)
    (h : Timed.within policy.timeout (policy.read followed action call >>= fun r => pure (r >>= finish)) none w =
      (o, w')) :
    ∃ o₁ w₁, Retry.Runs action policy.attempts (pauseAfter policy.backoff) (Timed.within policy.timeout call)
        (some (w.now + policy.timeout)) followed 0 w o₁ w₁ ∧
      Attempted policy.timeout (w.now + policy.timeout) o₁ w₁ o w' := by
  obtain ⟨d, hd, -⟩ | ⟨-, ⟨hcall, hne⟩ | ⟨w₁, hcall, rfl, rfl⟩⟩ := Timed.within_cases h
  · cases hd
  · obtain ⟨o₁, hread, rfl⟩ := Timed.bind_pure_cases hcall
    refine ⟨o₁, w', Policy.read_runs hread, ?_⟩
    cases o₁ with
    | done r =>
      cases r with
      | ok a => exact .answered (hfinish a)
      | error x => exact .failed
    | unanswered => exact absurd rfl hne
    | unfollowed => exact .unfollowed
  · obtain ⟨o₁, hread, ho⟩ := Timed.bind_pure_cases hcall
    cases o₁ with
    | unanswered => exact ⟨.unanswered, w₁, Policy.read_runs hread, .late⟩
    | done r => cases ho
    | unfollowed => cases ho

theorem length_record_within {limit : Nat} {deadline : Option Nat} {o : Outcome (Relayed c.Answer)} (hH : H.Punctual)
    (h : Timed.within limit (H.recorded c) deadline w = (o, w')) : w'.record.length = w.record.length + 1 := by
  obtain ⟨d, o₁, after, -, -, rfl, -⟩ := Peer.Handler.within_recorded_cases hH h
  rfl

theorem queries_of_attempt {start fuel failures : Nat} {deadline : Option Nat} {o : Outcome (Relayed c.Answer)}
    (hH : H.Punctual) (hlimit : H.Unlimited)
    (h : Retry.Runs action policy.attempts (pauseAfter policy.backoff) (Timed.within policy.timeout (H.recorded c))
      deadline fuel failures w o w') (hdeadline : deadline = some (start + policy.timeout))
    (hnow : start + policy.pauses failures ≤ w.now) (hin : InTime deadline w.now)
    (hfailures : failures < policy.burst) : w'.record.length + failures ≤ w.record.length + policy.burst := by
  induction h with
  | final hcall | unanswered hcall | lost hcall =>
    have hone := length_record_within hH hcall
    omega
  | @exhausted fuel failures w x w₁ hcall =>
    have hone := length_record_within hH hcall
    show w₁.record.length + failures ≤ _
    omega
  | @again fuel failures w x w₁ ev pause failures' o w' hcall hagain hpause _ ih =>
    have hone := length_record_within hH hcall
    have honward := ((hH.recorded c).within policy.timeout).onward hcall hin
    cases hagain with
    | limited seconds => exact absurd hcall (((hlimit.recorded c).within policy.timeout) _ _ _ _)
    | failed _ _ hless =>
      -- the pause fits into the deadline with those before it
      have hlasts : start + policy.pauses (failures + 1) ≤
          w₁.now + sleepTime (pauseAfter policy.backoff (failures + 1)) := by
        simp only [Policy.pauses, Policy.pause]
        omega
      have hfits : policy.pauses (failures + 1) ≤ policy.timeout := by
        rw [hdeadline, inTime_some] at hpause
        omega
      have hrest := ih hlasts hpause (Policy.lt_burst.mpr ⟨hless, hfits⟩)
      rw [World.record_paused] at hrest
      omega
  | cut hcall =>
    have hone := length_record_within hH hcall
    rw [World.record_paused]
    omega
  | unfollowed => omega

/-- One attempt of an engine comes to an end, after no more queries than there is room for. -/
theorem queries_within {finish : c.Answer → Relayed α} {o : Outcome (Relayed α)} (hH : H.Punctual)
    (hlimit : H.Unlimited) (hfinish : ∀ a, (finish a).Final) (hfollowed : policy.attempts ≤ followed)
    (h : Timed.within policy.timeout
      (policy.read followed action (H.recorded c) >>= fun r => pure (r >>= finish)) none w = (o, w')) :
    o ≠ .unfollowed ∧ w'.record.length ≤ w.record.length + policy.burst := by
  obtain ⟨o₁, w₁, hruns, hattempted⟩ := attempt_runs hfinish h
  have hends := Policy.followed_recorded hH hlimit hfollowed hruns
  have hcount := queries_of_attempt hH hlimit hruns rfl (Nat.le_refl _) (inTime_some.mpr (Nat.le_add_right _ _))
    Policy.burst_pos
  cases hattempted with
  | answered | failed => exact ⟨by simp, hcount⟩
  | late => exact ⟨by simp, hcount⟩
  | unfollowed => exact absurd rfl hends

/-- The attempts that are left bound the queries that are still sent. -/
theorem queries_of_read {x : Timed (σ × List (Exchange σ)) (Relayed α)} {fuel failures : Nat}
    {o : Outcome (Relayed α)} (hlimit : x.Unlimited)
    (hattempt : ∀ {w o w'}, Timed.within policy.timeout x none w = (o, w') →
      w'.record.length ≤ w.record.length + policy.burst)
    (h : Retry.Runs op policy.attempts (pauseAfter policy.backoff) (Timed.within policy.timeout x) none fuel failures
      w o w') (hfailures : failures < policy.attempts) :
    w'.record.length ≤ w.record.length + (policy.attempts - failures) * policy.burst := by
  induction h with
  | final hcall | unanswered hcall | lost hcall =>
    have hone := hattempt hcall
    rw [Policy.attempts_left hfailures]
    omega
  | @exhausted fuel failures w x w₁ hcall =>
    have hone := hattempt hcall
    show w₁.record.length ≤ _
    rw [Policy.attempts_left hfailures]
    omega
  | again hcall hagain _ _ ih =>
    have hone := hattempt hcall
    cases hagain with
    | limited seconds => exact absurd hcall ((hlimit.within policy.timeout) _ _ _ _)
    | failed _ _ hless =>
      have hrest := ih hless
      rw [World.record_paused] at hrest
      rw [Policy.attempts_left hfailures]
      omega
  | cut _ _ hd _ => cases hd
  | unfollowed => omega

end Attempts

/-! ## A channel that is down -/

def down : Handler σ := fun _ => pure (.error (.network "down"))

theorem punctual_down : (down : Handler σ).Punctual := by
  intro c
  exact .of_now fun _ w => ⟨_, w, rfl, rfl⟩

theorem unlimited_down : (down : Handler σ).Unlimited := by
  intro c deadline w seconds w' h
  cases h

section Down

variable {followed : Nat} {policy : Policy} {op action : String} {c : Call} {w w' : World (σ × List (Exchange σ))}

theorem within_down {limit : Nat} {deadline : Option Nat} {o : Outcome (Relayed c.Answer)}
    (h : Timed.within limit ((down : Handler σ).recorded c) deadline w = (o, w')) :
    o = .done (.error (.network "down")) ∧ w'.now = w.now ∧ w'.record.length = w.record.length + 1 := by
  obtain ⟨d, o₁, after, -, hcall, rfl, ho⟩ := Peer.Handler.within_recorded_cases punctual_down h
  cases hcall
  obtain rfl | ⟨hun, -⟩ := ho
  · exact ⟨rfl, rfl, rfl⟩
  · cases hun

theorem queries_of_attempt_down {start fuel failures : Nat} {deadline : Option Nat} {o : Outcome (Relayed c.Answer)}
    (h : Retry.Runs action policy.attempts (pauseAfter policy.backoff)
      (Timed.within policy.timeout ((down : Handler σ).recorded c)) deadline fuel failures w o w')
    (hdeadline : deadline = some (start + policy.timeout)) (hnow : w.now = start + policy.pauses failures)
    (hfailures : failures < policy.burst) (hfollowed : o ≠ .unfollowed) :
    w'.record.length + failures = w.record.length + policy.burst ∧
      (o = .done (.error (.network "down")) ∨ o = .unanswered) := by
  induction h with
  | final hcall hfinal =>
    obtain ⟨ho, -, -⟩ := within_down hcall
    cases ho
    exact absurd (hfinal _ rfl) (by simp [RelayError.isTransient, RelayError.kind])
  | @exhausted fuel failures w x w₁ hcall _ _ hlast =>
    obtain ⟨ho, -, hone⟩ := within_down hcall
    have hfull : ¬ failures + 1 < policy.burst := by
      rw [Policy.lt_burst]
      omega
    refine ⟨?_, .inl (by cases ho; rfl)⟩
    show w₁.record.length + failures = _
    omega
  | @again fuel failures w x w₁ ev pause failures' o w' hcall hagain hpause _ ih =>
    obtain ⟨ho, hstands, hone⟩ := within_down hcall
    cases hagain with
    | limited seconds => cases ho
    | failed _ _ hless =>
      have hlasts : w₁.now + sleepTime (pauseAfter policy.backoff (failures + 1)) =
          start + policy.pauses (failures + 1) := by
        simp only [Policy.pauses, Policy.pause]
        omega
      have hfits : policy.pauses (failures + 1) ≤ policy.timeout := by
        rw [hdeadline, inTime_some] at hpause
        omega
      obtain ⟨hrest, hend⟩ := ih hlasts (Policy.lt_burst.mpr ⟨hless, hfits⟩) hfollowed
      rw [World.record_paused] at hrest
      exact ⟨by omega, hend⟩
  | @cut fuel failures w x w₁ ev pause failures' d hcall hagain hd hlate =>
    obtain ⟨ho, hstands, hone⟩ := within_down hcall
    cases hagain with
    | limited seconds => cases ho
    | failed _ _ hless =>
      have hfull : ¬ failures + 1 < policy.burst := by
        rw [Policy.lt_burst, Policy.pauses, Policy.pause]
        cases hdeadline.symm.trans hd
        omega
      refine ⟨?_, .inr rfl⟩
      rw [World.record_paused]
      omega
  | unanswered hcall => cases (within_down hcall).1
  | lost hcall => cases (within_down hcall).1
  | unfollowed => exact absurd rfl hfollowed

/-- One attempt of an engine over a channel that is down sends as many queries as there is room for, and fails. -/
theorem queries_within_down {finish : c.Answer → Relayed α} {o : Outcome (Relayed α)}
    (hfollowed : policy.attempts ≤ followed) (hfinish : ∀ a, (finish a).Final)
    (h : Timed.within policy.timeout
      (policy.read followed action ((down : Handler σ).recorded c) >>= fun r => pure (r >>= finish)) none w =
        (o, w')) :
    w'.record.length = w.record.length + policy.burst ∧
      ∃ x, o = .done (.error x) ∧ x.isTransient = true ∧ ∀ seconds, x ≠ .rateLimited seconds := by
  obtain ⟨o₁, w₁, hruns, hattempted⟩ := attempt_runs hfinish h
  have hends := Policy.followed_recorded punctual_down unlimited_down hfollowed hruns
  obtain ⟨hcount, rfl | rfl⟩ := queries_of_attempt_down hruns rfl rfl Policy.burst_pos hends
  · cases hattempted
    exact ⟨hcount, _, rfl, rfl, by simp⟩
  · cases hattempted
    exact ⟨hcount, _, rfl, rfl, by simp⟩

theorem queries_of_read_down {finish : c.Answer → Relayed α} {fuel failures : Nat} {o : Outcome (Relayed α)}
    (hfollowed : policy.attempts ≤ followed) (hfinish : ∀ a, (finish a).Final)
    (h : Retry.Runs op policy.attempts (pauseAfter policy.backoff)
      (Timed.within policy.timeout
        (policy.read followed action ((down : Handler σ).recorded c) >>= fun r => pure (r >>= finish)))
      none fuel failures w o w') (hfailures : failures < policy.attempts) (hend : o ≠ .unfollowed) :
    w.record.length + (policy.attempts - failures) * policy.burst ≤ w'.record.length := by
  induction h with
  | final hcall hfinal =>
    obtain ⟨-, x, ho, hx, -⟩ := queries_within_down hfollowed hfinish hcall
    cases ho
    exact absurd (hfinal _ rfl) (by simp [hx])
  | @exhausted fuel failures w x w₁ hcall _ _ hlast =>
    obtain ⟨hone, -⟩ := queries_within_down hfollowed hfinish hcall
    show _ ≤ w₁.record.length
    rw [Policy.attempts_left hfailures, Nat.sub_eq_zero_of_le hlast]
    omega
  | again hcall hagain _ _ ih =>
    obtain ⟨hone, x, ho, -, hx⟩ := queries_within_down hfollowed hfinish hcall
    cases ho
    cases hagain with
    | limited seconds => exact absurd rfl (hx seconds)
    | failed _ _ hless =>
      have hrest := ih hless hend
      rw [World.record_paused] at hrest
      rw [Policy.attempts_left hfailures]
      omega
  | cut _ _ hd _ => cases hd
  | unanswered hcall =>
    obtain ⟨-, x, ho, -⟩ := queries_within_down hfollowed hfinish hcall
    cases ho
  | lost hcall =>
    obtain ⟨-, x, ho, -⟩ := queries_within_down hfollowed hfinish hcall
    cases ho
  | unfollowed => exact absurd rfl hend

end Down

/-! ## Engines over the channel -/

/-- Whatever the channel does, if it never asks for a pause, an engine's read of a contract returns, after at most
`n` queries. -/
def SendsAtMost (followed : Nat) (client : Client) (n : Nat) : Prop :=
  ∀ (c : Call), c.readsContract = true →
    ∀ (σ : Type) (H : Handler σ), H.Punctual → H.Unlimited →
      ∀ (op : String) (w : World (σ × List (Exchange σ))), w.record = [] →
        ∃ r w', layeredRead followed client H.recorded op c none w = (.done r, w') ∧ w'.record.length ≤ n

theorem sendsAtMost (client : Client) {followed : Nat} (hfollowed : client.config.policy.attempts ≤ followed) :
    SendsAtMost followed client (client.config.policy.attempts * client.config.policy.burst) := by
  intro c hc σ H hH hlimit op w hw
  have hpos := client.config.policy.attempts_pos
  have hreading := reading_overChannel followed client H.recorded hc
  have hunlimited := hreading.unlimited
  unfold layeredRead
  generalize overChannel followed client H.recorded c = x at hreading hunlimited
  cases hreading with
  | spot hr =>
    refine ⟨_, w, Mode.carry_eq (by omega) hr fun _ _ => rfl, ?_⟩
    simp [hw]
  | query action m finish hfinish =>
    generalize hrun : (Mode.read op).carry followed client.config.policy _ none w = res
    obtain ⟨o, w'⟩ := res
    have hruns := Policy.read_runs hrun
    have hcount := queries_of_read hunlimited (fun h => (queries_within hH hlimit hfinish hfollowed h).2) hruns hpos
    obtain ⟨r, rfl⟩ := Policy.runs_done (fun h => (queries_within hH hlimit hfinish hfollowed h).1) hunlimited
      hfollowed hruns
    exact ⟨r, w', rfl, by simpa [hw] using hcount⟩

theorem le_of_sendsAtMost {client : Client} {followed n : Nat}
    (hfollowed : client.config.policy.attempts ≤ followed) (h : SendsAtMost followed client n) :
    client.config.policy.attempts * client.config.policy.burst ≤ n := by
  obtain ⟨r, w', hrun, hcount⟩ := h (.bitcoinClient .bestHeaderHash) rfl Unit down punctual_down unlimited_down
    "btc_lc.best_header_hash" ⟨0, [], 0, ((), [])⟩ rfl
  have hask : Queries (.ask (.read "best_header") (.messages _) _) :=
    queries_bitcoinClient client .bestHeaderHash rfl
  obtain ⟨action, m, finish, hfinish, hquery⟩ := hask.run_ask followed client.config.policy
    (viaConsensusClient followed client (viaRelayStore followed client (down : Handler Unit).recorded))
  have hread : overChannel followed client (down : Handler Unit).recorded (.bitcoinClient .bestHeaderHash) =
      client.config.policy.read followed action ((down : Handler Unit).recorded (.messages m)) >>=
        fun r => pure (r >>= finish) := hquery
  have hruns := Policy.read_runs hrun
  rw [hread] at hruns
  have hend : (Outcome.done r) ≠ .unfollowed := by simp
  have hsent := queries_of_read_down hfollowed hfinish hruns client.config.policy.attempts_pos hend
  simp only [World.record, List.length_nil, Nat.zero_add, Nat.sub_zero] at hsent
  exact Nat.le_trans hsent hcount

/-- **Queries.** The most that an engine's read sends over a channel that never asks for a pause is the product of
its attempts and of the queries that each has room for. That is no more than the attempts exactly if there is one
attempt or not even the first pause fits into the deadline. -/
theorem queries_within_attempts_iff (client : Client) {followed : Nat}
    (hfollowed : client.config.policy.attempts ≤ followed) :
    (∀ n, SendsAtMost followed client n ↔ client.config.policy.attempts * client.config.policy.burst ≤ n) ∧
    (SendsAtMost followed client client.config.policy.attempts ↔
      client.config.policy.attempts = 1 ∨ client.config.policy.timeout < client.config.policy.pause 1) := by
  have hmost : ∀ n, SendsAtMost followed client n ↔
      client.config.policy.attempts * client.config.policy.burst ≤ n := by
    refine fun n => ⟨le_of_sendsAtMost hfollowed, fun h c hc σ H hH hlimit op w hw => ?_⟩
    obtain ⟨r, w', hrun, hcount⟩ := sendsAtMost client hfollowed c hc σ H hH hlimit op w hw
    exact ⟨r, w', hrun, Nat.le_trans hcount h⟩
  refine ⟨hmost, (hmost _).trans ?_⟩
  have hpos := client.config.policy.attempts_pos
  -- no second query in an attempt
  have hone : client.config.policy.attempts * client.config.policy.burst ≤ client.config.policy.attempts ↔
      ¬ 1 < client.config.policy.burst := by
    rw [Nat.not_lt]
    constructor
    · intro h
      exact Nat.le_of_mul_le_mul_left (by simpa using h) hpos
    · intro h
      simpa using Nat.mul_le_mul_left client.config.policy.attempts h
  have hfirst : client.config.policy.pauses 1 = client.config.policy.pause 1 := Nat.zero_add _
  rw [hone, Policy.lt_burst, hfirst]
  omega

/-- With two attempts and time for the first pause, an engine's read may send four queries. -/
theorem two_attempts_send_four :
    SendsAtMost 2 ⟨"contract", "relayer", ⟨256, 16, 1000, 2, 10⟩⟩ 4 ∧
      ¬ SendsAtMost 2 ⟨"contract", "relayer", ⟨256, 16, 1000, 2, 10⟩⟩ 3 := by
  have hfollowed : (CallConfig.policy ⟨256, 16, 1000, 2, 10⟩).attempts ≤ 2 := by decide
  have hmost := (queries_within_attempts_iff ⟨"contract", "relayer", ⟨256, 16, 1000, 2, 10⟩⟩ hfollowed).1
  have hburst : (CallConfig.policy ⟨256, 16, 1000, 2, 10⟩).burst = 2 := by decide
  rw [hmost, hmost, hburst]
  decide

/-- They are sent to a channel that is down, although the policy allows for two attempts. -/
theorem down_takes_four_queries :
    ¬ SendsAtMost 2 ⟨"contract", "relayer", ⟨256, 16, 1000, 2, 10⟩⟩
      (CallConfig.policy ⟨256, 16, 1000, 2, 10⟩).attempts := by
  intro h
  obtain ⟨r, w', hrun, hcount⟩ := h (.bitcoinClient .bestHeaderHash) rfl Unit down punctual_down unlimited_down
    "btc_lc.best_header_hash" ⟨0, [], 0, ((), [])⟩ rfl
  have hfour : (layeredRead 2 ⟨"contract", "relayer", ⟨256, 16, 1000, 2, 10⟩⟩ (down : Handler Unit).recorded
      "btc_lc.best_header_hash" (.bitcoinClient .bestHeaderHash) none ⟨0, [], 0, ((), [])⟩).2.record.length = 4 := by
    decide +kernel
  rw [hrun] at hfour
  change w'.record.length = 4 at hfour
  have hattempts : (CallConfig.policy ⟨256, 16, 1000, 2, 10⟩).attempts = 2 := by decide
  rw [hfour, hattempts] at hcount
  omega

end Channel

end HeaderRelay
