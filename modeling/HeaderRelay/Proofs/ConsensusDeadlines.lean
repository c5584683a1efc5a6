import HeaderRelay.Proofs.AttestedFlushes
import HeaderRelay.Proofs.LayeredReads
import HeaderRelay.Sync.Proving
import Mathlib.Algebra.BigOperators.Group.Finset.Basic
import Mathlib.Algebra.Order.BigOperators.Group.Finset

/-!
# Consensus cycles and proof requests come to an end

A read takes at most all its attempts, each up to its deadline, and the pauses between them (`Policy.readTime`), and a
submission at most its deadline (`Mode.limit?`). Only a direct call may take longer, and neither consensus engine makes
one, nor does a request for a proof (`Bounded`). So whatever their peers do, short of asking for pauses, the cycles and
the requests end, each of their calls in its time (`Program.Bounded.endsInTime`). `Program.legs` are the calls of a run
with the times at which they were made and answered.

The loop that flushes a queue is bounded by the full batches that it finds there. It goes on exactly as long as the
queue holds a full batch (`flushWhile_eq`).
-/
namespace HeaderRelay

open Peer (Call Conduct Handler Exchange)

variable {σ τ α β : Type}

/-! ## How long a call takes -/

/-- How long a read takes at most: its attempts, each up to its deadline, and the pauses between them. -/
def Policy.readTime (p : Policy) : Nat :=
  max 1 p.maxAttempts * p.timeout + ∑ i ∈ Finset.range p.maxAttempts, p.backoff * i ^ 2

/-- How long a call takes at most that is made in some way; a direct call has no limit. -/
def Mode.limit? (p : Policy) : Mode → Option Nat
  | .read _ => some p.readTime
  | .submit => some p.timeout
  | .direct => none

theorem Policy.pause_le (p : Policy) (n : Nat) : p.pause n ≤ p.backoff * n ^ 2 := by
  have hsleeps : p.pause n ≤ pauseAfter p.backoff n := Nat.min_le_left ..
  have hpauses : pauseAfter p.backoff n ≤ p.backoff * (n * n) := Nat.min_le_left ..
  rw [Nat.pow_two]
  exact Nat.le_trans hsleeps hpauses

theorem Policy.pauses_le (p : Policy) (n : Nat) : p.pauses n ≤ ∑ i ∈ Finset.range (n + 1), p.backoff * i ^ 2 := by
  induction n with
  | zero => exact Nat.zero_le _
  | succ n ih =>
    rw [Finset.sum_range_succ]
    exact Nat.add_le_add ih (p.pause_le (n + 1))

/-- There is a pause after every attempt but the last. -/
theorem Policy.attempts_le_readTime (p : Policy) :
    p.attempts * p.timeout + p.pauses (p.attempts - 1) ≤ p.readTime := by
  refine Nat.add_le_add_left ?_ _
  cases hmax : p.maxAttempts with
  | zero =>
    rw [attempts, hmax]
    exact Nat.zero_le _
  | succ n =>
    rw [attempts, hmax, Nat.max_eq_right (Nat.succ_pos n)]
    exact p.pauses_le n

section Calls

variable {policy : Policy} {followed limit : Nat} {w w' : World σ}

theorem Timed.elapsed_within {x : Timed σ (Relayed α)} {o : Outcome (Relayed α)} (hx : x.Punctual)
    (h : within limit x none w = (o, w')) : w'.now ≤ w.now + limit := by
  obtain ⟨d, hd, -⟩ | ⟨-, ⟨hcall, -⟩ | ⟨w₁, -, -, rfl⟩⟩ := within_cases h
  · cases hd
  · exact inTime_some.mp (hx.inTime hcall (inTime_some.mpr (Nat.le_add_right ..)))
  · exact Nat.le_refl _

/-- What is left of the attempts, with the pauses that are left, bounds what is left of the time. -/
theorem Retry.Runs.elapsed {op : String} {call : Timed σ (Relayed α)} {deadline : Option Nat} {fuel failures : Nat}
    {o : Outcome (Relayed α)} (hcall : call.Punctual) (hunlimited : call.Unlimited)
    (h : Retry.Runs op policy.attempts (pauseAfter policy.backoff) (Timed.within policy.timeout call) deadline fuel
      failures w o w')
    (hnone : deadline = none) (hfailures : failures < policy.attempts) :
    w'.now + policy.pauses failures ≤
      w.now + (policy.attempts - failures) * policy.timeout + policy.pauses (policy.attempts - 1) := by
  subst hnone
  have hleft : ∀ {failures}, failures < policy.attempts →
      policy.timeout ≤ (policy.attempts - failures) * policy.timeout ∧
        policy.pauses failures ≤ policy.pauses (policy.attempts - 1) := by
    intro failures hfailures
    exact ⟨Nat.le_mul_of_pos_left _ (by omega), policy.pauses_mono (by omega)⟩
  induction h with
  | final hwithin | unanswered hwithin | lost hwithin =>
    have hone := Timed.elapsed_within hcall hwithin
    obtain ⟨htime, hpauses⟩ := hleft hfailures
    omega
  | @exhausted fuel failures w x w₁ hwithin =>
    have hone := Timed.elapsed_within hcall hwithin
    obtain ⟨htime, hpauses⟩ := hleft hfailures
    show w₁.now + _ ≤ _
    omega
  | @again fuel failures w x w₁ ev pause failures' o w' hwithin hagain _ _ ih =>
    have hone := Timed.elapsed_within hcall hwithin
    cases hagain with
    | limited seconds => exact absurd hwithin (hunlimited.within policy.timeout _ _ _ _)
    | failed _ _ hless =>
      have hrest := ih hless
      have hpause : policy.pauses (failures + 1) =
          policy.pauses failures + sleepTime (pauseAfter policy.backoff (failures + 1)) := rfl
      rw [Policy.attempts_left hfailures]
      dsimp only [World.paused] at hrest
      omega
  | cut _ _ hd _ => cases hd
  | unfollowed =>
    obtain ⟨htime, hpauses⟩ := hleft hfailures
    omega

/-- **A call.** One that has a limit is answered within it. -/
theorem Mode.carry_elapsed {mode : Mode} {call : Timed σ (Relayed α)} {o : Outcome (Relayed α)}
    (hcall : call.Punctual) (hunlimited : call.Unlimited) (hfollowed : policy.attempts ≤ followed)
    (hmode : mode ≠ .direct) (h : mode.carry followed policy call none w = (o, w')) :
    (∃ r, o = .done r) ∧ ∃ limit, mode.limit? policy = some limit ∧ w'.now ≤ w.now + limit := by
  cases mode with
  | read op =>
    have hruns := Policy.read_runs h
    refine ⟨Policy.runs_done (hcall.within policy.timeout).followed hunlimited hfollowed hruns, _, rfl, ?_⟩
    have helapsed := hruns.elapsed hcall hunlimited rfl policy.attempts_pos
    have htime := policy.attempts_le_readTime
    rw [Nat.sub_zero] at helapsed
    show w'.now ≤ w.now + policy.readTime
    omega
  | submit =>
    have h : Timed.within policy.timeout call none w = (o, w') := h
    refine ⟨?_, _, rfl, Timed.elapsed_within hcall h⟩
    cases o with
    | done r => exact ⟨r, rfl⟩
    | unanswered => exact absurd rfl (Timed.within_none_ne_unanswered h)
    | unfollowed => exact absurd rfl ((hcall.within policy.timeout).followed h)
  | direct => exact absurd rfl hmode

end Calls

/-! ## The calls of a run -/

/-- A call of a run, when it was made and when it was answered or given up. -/
structure Leg where
  mode : Mode
  call : Call
  began : Nat
  ended : Nat

namespace Program

def legs (followed : Nat) (policy : Policy) (H : Handler σ) : Program α → World σ → List Leg
  | .done _, _ => []
  | .note ev next, w => next.legs followed policy H { w with log := ev :: w.log }
  | .ask mode c next, w =>
    match mode.carry followed policy (H c) none w with
    | (.done r, w₁) => ⟨mode, c, w.now, w₁.now⟩ :: (next r).legs followed policy H w₁
    | (.unanswered, w₁) | (.unfollowed, w₁) => [⟨mode, c, w.now, w₁.now⟩]

/-- The program ends, each of its calls within the limit that it has. -/
def EndsInTime (followed : Nat) (policy : Policy) (H : Handler σ) (w : World σ) (p : Program α) : Prop :=
  ∃ a w', p.run followed policy H none w = (.done a, w') ∧
    ∀ leg ∈ p.legs followed policy H w, ∃ limit, leg.mode.limit? policy = some limit ∧ leg.ended ≤ leg.began + limit

/-- The program makes no direct calls. -/
def Bounded : Program α → Prop
  | .done _ => True
  | .note _ next => next.Bounded
  | .ask mode _ next => mode ≠ .direct ∧ ∀ r, (next r).Bounded

/-- **Runs.** A program that makes no direct calls ends in time. -/
theorem Bounded.endsInTime {p : Program α} {followed : Nat} {policy : Policy} {H : Handler σ} {w : World σ}
    (hp : p.Bounded) (hH : H.Punctual) (hunlimited : H.Unlimited) (hfollowed : policy.attempts ≤ followed) :
    p.EndsInTime followed policy H w := by
  induction p generalizing w with
  | done a => exact ⟨a, w, rfl, by simp [legs]⟩
  | note ev next ih => exact ih hp
  | ask mode c next ih =>
    obtain ⟨hmode, hnext⟩ := hp
    cases hcarry : mode.carry followed policy (H c) none w with
    | mk o w₁ =>
      obtain ⟨⟨r, rfl⟩, limit, hlimit, hin⟩ := Mode.carry_elapsed (hH c) (hunlimited c) hfollowed hmode hcarry
      obtain ⟨a, w', hrun, hlegs⟩ := ih r (hnext r) (w := w₁)
      refine ⟨a, w', ?_, ?_⟩
      · simp only [run, bind, Timed.andThen, hcarry]
        exact hrun
      · simp only [legs, hcarry, List.mem_cons, forall_eq_or_imp]
        exact ⟨⟨limit, hlimit, hin⟩, hlegs⟩

theorem Bounded.andThen {p : Program β} {f : β → Program α} (hp : p.Bounded) (hf : ∀ b, (f b).Bounded) :
    (p.andThen f).Bounded := by
  induction p with
  | done b => exact hf b
  | note ev next ih => exact ih hp
  | ask mode c next ih => exact ⟨hp.1, fun r => ih r (hp.2 r)⟩

theorem andThen_congr {p : Program β} {f g : β → Program α}
    (h : p.Ensures Conduct.everyone () fun b _ => f b = g b) : p.andThen f = p.andThen g := by
  induction p with
  | done b => exact h
  | note ev next ih => exact congrArg (Program.note ev) (ih h)
  | ask mode c next ih => exact congrArg (Program.ask mode c) (funext fun r => ih r (h.2 r () trivial))

end Program

/-! ## Cycles without direct calls -/

def Cycle.Bounded (x : Cycle τ α) : Prop := ∀ s, (x.start s).Bounded

namespace Cycle

variable {x y : Cycle τ α}

theorem bounded_pure (a : α) : (pure a : Cycle τ α).Bounded := fun _ => trivial

theorem bounded_throw (e : RelayError) : (throw e : Cycle τ α).Bounded := fun _ => trivial

theorem bounded_get : (get : Cycle τ τ).Bounded := fun _ => trivial

theorem bounded_modify (f : τ → τ) : (modify f : Cycle τ PUnit).Bounded := fun _ => trivial

theorem bounded_log (ev : Log.Event) : (log ev : Cycle τ Unit).Bounded := fun _ => trivial

theorem bounded_read {op : String} {c : Call} : (read op c : Cycle τ c.Answer).Bounded :=
  fun _ => ⟨nofun, fun _ => trivial⟩

theorem bounded_submission {c : Call} : (call .submit c : Cycle τ c.Answer).Bounded :=
  fun _ => ⟨nofun, fun _ => trivial⟩

theorem bounded_submissionOutcome {c : Call} : (outcome .submit c : Cycle τ (Relayed c.Answer)).Bounded :=
  fun _ => ⟨nofun, fun _ => trivial⟩

theorem Bounded.bind {x : Cycle τ β} {f : β → Cycle τ α} (hx : x.Bounded) (hf : ∀ b, (f b).Bounded) :
    (x >>= f).Bounded := by
  refine fun s => Program.Bounded.andThen (hx s) ?_
  rintro ⟨e | b, s'⟩
  · exact trivial
  · exact hf b s'

theorem Bounded.ite {p : Prop} [Decidable p] (hx : x.Bounded) (hy : y.Bounded) :
    (if p then x else y).Bounded := by
  split
  · exact hx
  · exact hy

theorem start_bind_congr {x : Cycle τ β} {f g : β → Cycle τ α} {s : τ}
    (h : x.Ensures .everyone s () (fun b s' _ => (f b).start s' = (g b).start s') fun _ _ _ => True) :
    (x >>= f).start s = (x >>= g).start s := by
  refine Program.andThen_congr (Program.Ensures.mono h ?_)
  rintro ⟨e | b, s'⟩ _ hb
  · rfl
  · exact hb

end Cycle

namespace Sync

open Consensus (Header LightBlock ChainEntry)
open HeaderRelay.Cycle (bounded_pure bounded_throw bounded_get bounded_modify bounded_log bounded_read
  bounded_submission bounded_submissionOutcome)

theorem bounded_lightBlockOf (header : Header) : (lightBlockOf header : Cycle τ LightBlock).Bounded := by
  refine .bind bounded_read fun commit => .bind bounded_read fun validators => ?_
  exact .ite (bounded_throw _) (bounded_pure _)

namespace Sequential

theorem bounded_trustedHeader : trustedHeader.Bounded := by
  refine .bind bounded_read fun hash => .bind bounded_read fun height => .bind bounded_get fun s => ?_
  split
  · exact bounded_pure _
  · refine .bind bounded_read fun header => ?_
    exact .ite (bounded_throw _) (.bind (bounded_modify _) fun _ => bounded_pure _)

theorem bounded_submitHeader (height : Nat) (header last : Header) : (submitHeader height header last).Bounded :=
  .bind (bounded_lightBlockOf header) fun _ => .bind bounded_submission fun _ =>
    .bind (bounded_log _) fun _ => bounded_modify _

theorem bounded_examine (count height : Nat) (last : Header) (report : Report) :
    (examine count height last report).Bounded := by
  induction count generalizing height last report with
  | zero => exact bounded_pure _
  | succ count ih =>
    refine .bind bounded_read fun header => .bind bounded_get fun s => .ite ?_ (ih _ _ _)
    exact .bind (bounded_submitHeader _ _ _) fun _ => ih _ _ _

theorem bounded_survey {next : Header → Nat → Nat → Step α}
    (hnext : ∀ last networkHeight checked, (next last networkHeight checked).Bounded) : (survey next).Bounded := by
  refine .bind bounded_trustedHeader fun last => .bind bounded_read fun top => .bind bounded_read fun best => ?_
  exact .bind (bounded_modify _) fun _ => .bind bounded_get fun s => hnext _ _ _

theorem bounded_syncFrom (start : Nat) (last : Header) (networkHeight checked : Nat) :
    (syncFrom start last networkHeight checked).Bounded := by
  refine .bind (bounded_log _) fun _ => .bind (bounded_examine _ _ _ _) fun report => ?_
  refine .bind (bounded_modify _) fun _ => .bind bounded_get fun s => ?_
  exact .bind (bounded_log _) fun _ => .bind (bounded_log _) fun _ => bounded_pure _

theorem bounded_runCycleOn (machine : Machine) : (runCycleOn machine).Bounded :=
  bounded_survey fun last networkHeight checked => by
    cases machine.above (max checked last.height) with
    | none => exact bounded_pure _
    | some start => exact .bind (bounded_syncFrom _ _ _ _) fun _ => bounded_pure _

end Sequential

namespace Batched

theorem bounded_storedHeader : storedHeader.Bounded := by
  refine .bind bounded_read fun height => .bind bounded_get fun s => ?_
  split
  · exact bounded_pure _
  · refine .bind bounded_read fun hash => .bind bounded_read fun header => ?_
    exact .ite (bounded_throw _) (.bind (bounded_modify _) fun _ => bounded_pure _)

theorem bounded_dropStored (height : Nat) : (dropStored height).Bounded :=
  .bind bounded_get fun _ => .bind (bounded_modify _) fun _ => .ite (bounded_log _) (bounded_pure _)

theorem bounded_readHeaders (count height : Nat) : (readHeaders count height).Bounded := by
  induction count generalizing height with
  | zero => exact bounded_pure _
  | succ count ih => exact .bind bounded_read fun header => .bind (ih _) fun rest => bounded_pure _

theorem bounded_enqueue (headers : List Header) : (enqueue headers).Bounded := by
  induction headers with
  | nil => exact bounded_pure _
  | cons h headers ih => exact .bind (bounded_log _) fun _ => .bind (bounded_modify _) fun _ => ih

theorem bounded_lightBlocksOf (headers : List Header) : (lightBlocksOf headers).Bounded := by
  induction headers with
  | nil => exact bounded_pure _
  | cons h headers ih => exact .bind (bounded_lightBlockOf h) fun block => .bind ih fun rest => bounded_pure _

theorem bounded_sendBatch (size : Nat) (prev : Header) : (sendBatch size prev).Bounded := by
  refine .bind bounded_get fun s => .bind (bounded_lightBlocksOf _) fun blocks => .bind bounded_read fun chain => ?_
  dsimp only
  split
  · refine .ite (bounded_throw _) (.bind bounded_submissionOutcome fun r => ?_)
    cases r with
    | error x => exact .bind (bounded_log _) fun _ => bounded_throw _
    | ok response => exact .bind (bounded_log _) fun _ => .bind (bounded_modify _) fun _ => bounded_pure _
  · exact bounded_throw _

theorem bounded_sendBatches (size count : Nat) (prev : Header) (report : Report) :
    (sendBatches size count prev report).Bounded := by
  induction count generalizing prev report with
  | zero => exact bounded_pure _
  | succ count ih =>
    refine .bind bounded_get fun s => .bind (bounded_sendBatch _ _) fun tip => .bind bounded_get fun s' => ?_
    exact .bind (bounded_modify _) fun _ => ih _ _

theorem bounded_survey {next : Header → Nat → State Header → Step α}
    (hnext : ∀ relayBest networkHeight s, (next relayBest networkHeight s).Bounded) : (survey next).Bounded := by
  refine .bind bounded_storedHeader fun best => .bind (bounded_dropStored _) fun _ => ?_
  refine .bind bounded_read fun top => .bind bounded_read fun networkBest => .bind (bounded_modify _) fun _ => ?_
  exact .bind bounded_get fun s => hnext _ _ _

theorem bounded_syncFrom (size start : Nat) (relayBest : Header) (networkHeight : Nat) (s : State Header) :
    (syncFrom size start relayBest networkHeight s).Bounded := by
  refine .bind (bounded_readHeaders _ _) fun examined => .bind (bounded_enqueue _) fun _ => ?_
  refine .bind (bounded_modify _) fun _ => .bind bounded_get fun s' => .bind (bounded_sendBatches _ _ _ _) fun report => ?_
  exact .bind bounded_get fun s'' => .bind (bounded_log _) fun _ => bounded_pure _

theorem bounded_runCycleOn (machine : Machine) (batchSize : Nat) : (runCycleOn machine batchSize).Bounded :=
  bounded_survey fun relayBest networkHeight s => by
    cases machine.above (doneHeight s relayBest) with
    | none => exact bounded_pure _
    | some start =>
      refine .bind (bounded_log _) fun _ => .ite (bounded_pure _) ?_
      exact .bind (bounded_syncFrom _ _ _ _ _) fun _ => bounded_pure _

/-! ### The loop that flushes -/

/-- Flushes batches while the queue holds a full one, `rounds` of them at most. -/
def flushWhile (size : Nat) : (rounds : Nat) → (prev : Header) → Report → Step Report
  | 0, _, report => return report
  | rounds + 1, prev, report => do
    let before := (← get).pending.length
    if before < size then return report
    else
      let tip ← sendBatch size prev
      let after := (← get).pending.length
      modify fun s => { s with contractBest := some tip }
      flushWhile size rounds tip
        { report with submitted := report.submitted + (before - after), batches := report.batches + 1 }

theorem everyone_sendBatch {size : Nat} {prev : Header} {s : State Header} :
    (sendBatch size prev).Ensures .everyone s () (fun _ s' _ => s'.pending = s.pending.drop size)
      fun _ _ _ => True := by
  have hview : (sendBatchView size prev).Ensures .everyone (fun _ _ _ => True) [] s () _ _ := flushed_sendBatchView
  refine Cycle.Ensures.mono hview.cycle ?_ fun _ _ _ _ => trivial
  rintro tip s' - ⟨moves, -, -, -, -, -, -, -, -, -, rfl⟩
  rfl

/-- **The loop.** The full batches that a flush finds in the queue are those that it sends while there is a full batch:
with more rounds it does not go on. -/
theorem flushWhile_eq {size rounds : Nat} (hsize : 0 < size) (prev : Header) (report : Report) (s : State Header)
    (hrounds : s.pending.length / size ≤ rounds) :
    (flushWhile size rounds prev report).start s =
      (sendBatches size (s.pending.length / size) prev report).start s := by
  induction rounds generalizing prev report s with
  | zero =>
    rw [Nat.le_zero.mp hrounds]
    rfl
  | succ rounds ih =>
    show Cycle.start (if s.pending.length < size then _ else _) s = _
    rcases Nat.lt_or_ge s.pending.length size with hless | hfull
    · rw [if_pos hless, Nat.div_eq_of_lt hless]
      rfl
    · have hcount : s.pending.length / size = (s.pending.length - size) / size + 1 := by
        rw [← Nat.add_div_right _ hsize, Nat.sub_add_cancel hfull]
      rw [if_neg (Nat.not_lt.mpr hfull), hcount]
      refine Cycle.start_bind_congr (Cycle.Ensures.mono everyone_sendBatch ?_ fun _ _ _ h => h)
      intro tip s' _ hs'
      have hrest : s.pending.length - size = s'.pending.length := by rw [hs', List.length_drop]
      rw [hcount, hrest] at hrounds
      rw [hrest]
      exact ih _ _ { s' with contractBest := some tip } (Nat.le_of_succ_le_succ hrounds)

end Batched

/-! ## Requests for proofs -/

def Request.Bounded (x : Request α) : Prop := x.run.Bounded

namespace Request

theorem bounded_pure (a : α) : (pure a : Request α).Bounded := trivial

theorem bounded_throw (e : RelayError) : (throw e : Request α).Bounded := trivial

theorem bounded_read {op : String} {c : Call} : (read op c).Bounded := ⟨nofun, fun _ => trivial⟩

theorem bounded_lift (r : Relayed α) : (liftM r : Request α).Bounded := trivial

theorem Bounded.bind {x : Request β} {f : β → Request α} (hx : x.Bounded) (hf : ∀ b, (f b).Bounded) :
    (x >>= f).Bounded := by
  refine Program.Bounded.andThen hx ?_
  rintro (e | b)
  · exact trivial
  · exact hf b

theorem Bounded.ite {p : Prop} [Decidable p] {x y : Request α} (hx : x.Bounded) (hy : y.Bounded) :
    (if p then x else y).Bounded := by
  split
  · exact hx
  · exact hy

end Request

theorem bounded_proveTransaction (block txid : Hash) : (proveTransaction block txid).Bounded := by
  refine .bind Request.bounded_read fun header => .bind Request.bounded_read fun txids => ?_
  refine .bind (Request.bounded_lift _) fun tree => .ite (Request.bounded_throw _) ?_
  refine .bind (Request.bounded_lift _) fun proof => .bind (Request.bounded_lift _) fun implied => ?_
  exact .ite (Request.bounded_throw _) (Request.bounded_pure _)

theorem bounded_proveResultUnder (next height index : Nat) (results : List Consensus.TxResult) :
    (proveResultUnder next height index results).Bounded := by
  refine .bind Request.bounded_read fun committing => .bind (Request.bounded_lift _) fun proved => ?_
  refine .ite (Request.bounded_throw _) ?_
  split
  · exact Request.bounded_throw _
  · exact .bind (Request.bounded_lift _) fun _ => Request.bounded_pure _

theorem bounded_proveResultOn (machine : Machine) (height index : Nat) :
    (proveResultOn machine height index).Bounded := by
  refine .bind Request.bounded_read fun results => ?_
  split
  · exact Request.bounded_pure _
  · exact .bind (bounded_proveResultUnder ..) fun _ => Request.bounded_pure _

end Sync

end HeaderRelay
