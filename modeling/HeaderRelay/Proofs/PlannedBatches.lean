import HeaderRelay.Proofs.BitcoinSubmissions
import HeaderRelay.Proofs.BitcoinSync

/-!
# The batches of a Bitcoin cycle

A cycle that has found a gap submits its headers in chunks, one after the other, up to the first that fails. Each
submission is one exchange on record, and so is the question for the gas of the last submission, which is asked if no
gas is fixed. What an exchange tells of the gas (`Exchange.gasTold?`) sets the gas of the submission after it.

A timed run of a cycle is taken apart into the runs of its parts (`Cycle.run_bind_cases` and the two lemmas on calls).
`Submits` follows the loop over the batches, and `getElem?_batchesFrom` gives the batches by their numbers.

Result: `planned_batches_submitted`, for every timed run of a cycle.
-/
namespace HeaderRelay

open Peer (Call Exchange Handler)

variable {ρ σ α β : Type}

/-! ## Runs, one part after the other -/

section Runs

variable {followed : Nat} {policy : Policy} {H : Handler ρ} {w w' : World ρ}

theorem Cycle.run_outcome_cases {mode : Mode} {c : Call} {f : Relayed c.Answer → Cycle σ α} {s : σ}
    {o : Outcome (Relayed α × σ)}
    (h : ((Cycle.outcome mode c >>= f).start s).run followed policy H none w = (o, w')) :
    ∃ o₁ w₁, mode.carry followed policy (H c) none w = (o₁, w₁) ∧
      ((∃ r, o₁ = .done r ∧ ((f r).start s).run followed policy H none w₁ = (o, w')) ∨
        (∀ r, o₁ ≠ .done r) ∧ w' = w₁ ∧ ∀ a, o ≠ .done a) := by
  have h : (Program.ask mode c fun r => (f r).start s).run followed policy H none w = (o, w') := h
  cases hcarry : mode.carry followed policy (H c) none w with
  | mk o₁ w₁ =>
    simp only [Program.run, bind, Timed.andThen, hcarry] at h
    refine ⟨o₁, w₁, rfl, ?_⟩
    cases o₁ with
    | done r => exact .inl ⟨r, rfl, h⟩
    | unanswered | unfollowed =>
      cases h
      exact .inr ⟨by simp, rfl, by simp⟩

end Runs

/-! ## Answers -/

namespace Peer.Exchange

def AnsweredWell (e : Exchange ρ) : Prop := ∃ a, e.outcome = .done (.ok a)

/-- The gas that an exchange tells to have been used last: what the contract has on record, or what a submission has
used. -/
def gasTold? : Exchange ρ → Option Nat
  | ⟨.bitcoinClient .lastSubmissionGas, _, _, .done (.ok used), _⟩ => used
  | ⟨.bitcoinClient (.submitHeaders ..), _, _, .done (.ok response), _⟩ => some response.gasUsed
  | _ => none

end Peer.Exchange

section Calls

variable {followed : Nat} {policy : Policy} {H : Handler ρ} {c : Call} {f : Relayed c.Answer → Cycle σ α} {s : σ}
  {w w' : World (ρ × List (Exchange ρ))} {o : Outcome (Relayed α × σ)}

/-- A submission is one exchange. If it is answered well the cycle goes on with the answer, and otherwise with an error,
unless it stops there. -/
theorem Cycle.run_submission_cases
    (h : ((Cycle.outcome .submit c >>= f).start s).run followed policy H.recorded none w = (o, w')) :
    ∃ deadline o₁ after w₁, w₁.record = ⟨c, deadline, w.bare, o₁, after⟩ :: w.record ∧
      ((∃ a, o₁ = .done (.ok a) ∧ ((f (.ok a)).start s).run followed policy H.recorded none w₁ = (o, w')) ∨
        (∀ a, o₁ ≠ .done (.ok a)) ∧
          ((∃ x, ((f (.error x)).start s).run followed policy H.recorded none w₁ = (o, w')) ∨
            w' = w₁ ∧ ∀ r, o ≠ .done r)) := by
  obtain ⟨o₂, w₁, hcarry, hends⟩ := run_outcome_cases h
  have hcall : Timed.within policy.timeout (H.recorded c) none w = (o₂, w₁) := hcarry
  obtain ⟨deadline, o₁, after, hrecord, -, ho⟩ := Timed.within_exchange hcall
  refine ⟨deadline, o₁, after, w₁, hrecord, ?_⟩
  obtain ⟨x | a, rfl, hrest⟩ | ⟨hnone, hstopped⟩ := hends
  · refine .inr ⟨fun a ha => ?_, .inl ⟨x, hrest⟩⟩
    obtain ho | ⟨ho, -⟩ := ho
    · cases ho.trans ha
    · cases ho.symm.trans ha
  · obtain rfl | ⟨-, ho⟩ := ho
    · exact .inl ⟨a, rfl, hrest⟩
    · cases ho
  · refine .inr ⟨fun a ha => ?_, .inr hstopped⟩
    obtain rfl | ⟨rfl, -⟩ := ho
    · exact hnone _ ha
    · cases ha

theorem Cycle.run_direct_cases
    (h : ((Cycle.outcome .direct c >>= f).start s).run followed policy H.recorded none w = (o, w')) :
    ∃ o₁ after w₁, w₁.record = ⟨c, none, w.bare, o₁, after⟩ :: w.record ∧
      ((∃ r, o₁ = .done r ∧ ((f r).start s).run followed policy H.recorded none w₁ = (o, w')) ∨
        (∀ r, o₁ ≠ .done r) ∧ w' = w₁ ∧ ∀ r, o ≠ .done r) := by
  obtain ⟨o₁, w₁, hcarry, hends⟩ := run_outcome_cases h
  obtain ⟨after, -, rfl⟩ := Handler.recorded_cases hcarry
  exact ⟨o₁, after, _, rfl, hends⟩

end Calls

namespace Sync.Bitcoin

open HeaderRelay.Bitcoin (Header)

variable {config : Config} {gap : Gap} {followed : Nat} {policy : Policy} {H : Handler ρ} {s : State}
  {w w' : World (ρ × List (Exchange ρ))}

/-! ## Chunks -/

theorem getElem?_batchesFrom {size fuel : Nat} {headers : List α} {tip j : Nat} (hsize : 0 < size)
    (hfuel : headers.length ≤ fuel) :
    (batchesFrom size fuel headers tip)[j]? =
      if j * size < headers.length then some ⟨tip + j * size, (headers.drop (j * size)).take size⟩ else none := by
  induction fuel generalizing headers tip j with
  | zero => simp [batchesFrom, List.eq_nil_of_length_eq_zero (Nat.le_zero.mp hfuel)]
  | succ fuel ih =>
    cases hnil : headers with
    | nil => simp [batchesFrom]
    | cons first rest =>
      rw [← hnil]
      have hpos : 0 < headers.length := by simp [hnil]
      have hdrop : (headers.drop size).length = headers.length - size := List.length_drop
      have hbatches : batchesFrom size (fuel + 1) headers tip = ⟨tip, headers.take size⟩ ::
          batchesFrom size fuel (headers.drop size) (tip + (headers.take size).length) := by
        rw [batchesFrom, if_neg (by simp [hnil])]
      rw [hbatches]
      cases j with
      | zero => simp [hpos]
      | succ j =>
        rw [List.getElem?_cons_succ, ih (by omega), hdrop, List.drop_drop, Nat.succ_mul, Nat.add_comm size]
        by_cases hlt : j * size < headers.length - size
        · have htake : (headers.take size).length = size := List.length_take_of_le (by omega)
          rw [if_pos hlt, if_pos (by omega), htake, Nat.add_assoc, Nat.add_comm size]
        · rw [if_neg hlt, if_neg (by omega)]

/-! ## Submissions -/

/-- The gas of a submission before which `told` was told: the fixed one, or an estimate. -/
def gasFor (config : Config) (told : Option Nat) : Option Nat :=
  config.gasLimit.or (gasWithMargin told config.gasMargin.toFloat)

theorem gasAfter_gasFor (told : Option Nat) (used : Nat) :
    gasAfter config (gasFor config told) used = gasFor config (some used) := by
  unfold gasAfter gasFor
  cases config.gasLimit <;> rfl

/-- What is on record, oldest first, after batches were submitted one after the other, up to the first that was not
answered well. `told` is the gas that was told before, and the flag is whether all of them were answered well. -/
inductive Submits (config : Config) : (told : Option Nat) → List (Batch Header) → List (Exchange ρ) → Bool → Prop where
  | all {told : Option Nat} : Submits config told [] [] true
  | failed {told : Option Nat} {b : Batch Header} {rest : List (Batch Header)} {e : Exchange ρ} :
    e.call = .bitcoinClient (.submitHeaders b.tipHeight b.headers (gasFor config told)) → ¬ e.AnsweredWell →
    Submits config told (b :: rest) [e] false
  | taken {told : Option Nat} {b : Batch Header} {rest : List (Batch Header)} {e : Exchange ρ}
    {later : List (Exchange ρ)} {wholly : Bool} :
    e.call = .bitcoinClient (.submitHeaders b.tipHeight b.headers (gasFor config told)) → e.AnsweredWell →
    Submits config e.gasTold? rest later wholly → Submits config told (b :: rest) (e :: later) wholly

def toldBefore (told : Option Nat) (sent : List (Exchange ρ)) : Nat → Option Nat
  | 0 => told
  | j + 1 => sent[j]?.bind Exchange.gasTold?

namespace Submits

variable {told : Option Nat} {batches : List (Batch Header)} {sent : List (Exchange ρ)} {wholly : Bool}

theorem call_eq (h : Submits config told batches sent wholly) {j : Nat} {e : Exchange ρ} (hj : sent[j]? = some e) :
    ∃ b, batches[j]? = some b ∧ e.call =
      .bitcoinClient (.submitHeaders b.tipHeight b.headers (gasFor config (toldBefore told sent j))) := by
  induction h generalizing j with
  | all => cases hj
  | failed hcall =>
    cases j with
    | zero =>
      cases hj
      exact ⟨_, rfl, hcall⟩
    | succ j => cases hj
  | taken hcall _ _ ih =>
    cases j with
    | zero =>
      cases hj
      exact ⟨_, rfl, hcall⟩
    | succ j =>
      obtain ⟨b, hb, hcall⟩ := ih hj
      refine ⟨b, hb, ?_⟩
      rw [hcall]
      cases j <;> rfl

theorem answeredWell (h : Submits config told batches sent wholly) : ∀ e ∈ sent.dropLast, e.AnsweredWell := by
  induction h with
  | all | failed => exact List.forall_mem_nil _
  | @taken _ _ _ e later _ _ hwell _ ih =>
    cases later with
    | nil => exact List.forall_mem_nil _
    | cons e' later => exact List.forall_mem_cons.mpr ⟨hwell, ih⟩

/-- If the last submission is answered well, all of them are, and there is none that was not made. -/
theorem complete (h : Submits config told batches sent wholly) (hwholly : wholly = true) :
    sent.length = batches.length ∧ ∀ e ∈ sent, e.AnsweredWell := by
  induction h with
  | all => exact ⟨rfl, List.forall_mem_nil _⟩
  | failed => cases hwholly
  | taken _ hwell _ ih =>
    obtain ⟨hlength, hall⟩ := ih hwholly
    exact ⟨congrArg (· + 1) hlength, List.forall_mem_cons.mpr ⟨hwell, hall⟩⟩

theorem broken (h : Submits config told batches sent wholly) (hwholly : wholly = false) :
    ∃ e, sent.getLast? = some e ∧ ¬ e.AnsweredWell := by
  induction h with
  | all => cases hwholly
  | failed _ hill => exact ⟨_, rfl, hill⟩
  | taken _ _ _ ih =>
    obtain ⟨e, hlast, hill⟩ := ih hwholly
    exact ⟨e, by rw [List.getLast?_cons, hlast]; rfl, hill⟩

end Submits

/-- **Submissions.** One batch after the other is submitted, up to the first that is not answered well, which ends the
cycle. -/
theorem run_submitAll {batches : List (Batch Header)} {told : Option Nat} {report : Report}
    {o : Outcome (Relayed Report × State)}
    (h : ((submitAll config batches (gasFor config told) report).start s).run followed policy H.recorded none w =
      (o, w')) :
    ∃ sent wholly, w'.record = sent.reverse ++ w.record ∧ Submits config told batches sent wholly ∧
      (wholly = true ↔ ∃ report' s', o = .done (.ok report', s')) := by
  induction batches generalizing told report w with
  | nil =>
    cases h
    exact ⟨[], true, rfl, .all, iff_of_true rfl ⟨_, _, rfl⟩⟩
  | cons b rest ih =>
    obtain ⟨deadline, o₁, after, w₁, hrecord, ⟨response, rfl, hrest⟩ | ⟨hill, hends⟩⟩ := Cycle.run_submission_cases h
    · have hrest : ((submitAll config rest (gasAfter config (gasFor config told) (Channel.Response.gasUsed response))
          { report with submitted := report.submitted + b.headers.length, batches := report.batches + 1 }).start s).run
            followed policy H.recorded none { w₁ with log := batchSubmitted b response :: w₁.log } = (o, w') := hrest
      rw [gasAfter_gasFor] at hrest
      obtain ⟨later, wholly, hlater, hsubmits, hends⟩ := ih hrest
      let e : Exchange ρ := ⟨_, deadline, w.bare, .done (.ok response), after⟩
      refine ⟨e :: later, wholly, ?_, .taken (e := e) rfl ⟨response, rfl⟩ hsubmits, hends⟩
      rw [hlater, List.reverse_cons, List.append_assoc]
      exact congrArg _ hrecord
    · let e : Exchange ρ := ⟨_, deadline, w.bare, o₁, after⟩
      have hfailed : Submits config told (b :: rest) [e] false := .failed (e := e) rfl fun ⟨a, ha⟩ => hill a ha
      obtain ⟨x, hrest⟩ | ⟨rfl, hstopped⟩ := hends
      · -- after an error the cycle writes an event and ends with it
        cases hrest
        exact ⟨[e], false, hrecord, hfailed, iff_of_false nofun nofun⟩
      · exact ⟨[e], false, hrecord, hfailed, iff_of_false nofun fun ⟨_, _, ho⟩ => hstopped _ ho⟩

theorem Submits.covers {told : Option Nat} {sent : List (Exchange ρ)} {headers : List Header} {tip : Nat}
    (hsize : 0 < config.batchSize)
    (h : Submits config told (batchesFrom config.batchSize headers.length headers tip) sent true) :
    headers.length ≤ sent.length * config.batchSize := by
  have hend : (batchesFrom config.batchSize headers.length headers tip)[sent.length]? = none :=
    List.getElem?_eq_none (Nat.le_of_eq (h.complete rfl).1.symm)
  rw [getElem?_batchesFrom hsize (Nat.le_refl _)] at hend
  split at hend
  · cases hend
  · exact Nat.not_lt.mp ‹_›

/-! ## The gas of the first batch -/

/-- The history of the gas is asked for once, if no gas is fixed. -/
def LooksUp (config : Config) (lookup : List (Exchange ρ)) : Prop :=
  match config.gasLimit with
  | some _ => lookup = []
  | none => ∃ first, lookup = [first] ∧ first.call = .bitcoinClient .lastSubmissionGas

/-- Whatever the history tells, also if it fails, the cycle goes on with the gas that follows from it. Only an answer
that never comes holds it. -/
theorem run_firstGas {f : Option Nat → Cycle State α} {o : Outcome (Relayed α × State)}
    (h : ((firstGas config >>= f).start s).run followed policy H.recorded none w = (o, w')) :
    ∃ lookup w₁, w₁.record = lookup ++ w.record ∧ LooksUp config lookup ∧
      (((f (gasFor config (lookup.head?.bind Exchange.gasTold?))).start s).run followed policy H.recorded none w₁ =
          (o, w') ∨
        (∃ first ∈ lookup, ∀ r, first.outcome ≠ .done r) ∧ w'.record = w₁.record ∧ ∀ a, o ≠ .done a) := by
  unfold LooksUp gasFor
  cases hlimit : config.gasLimit with
  | some limit =>
    rw [firstGas, hlimit] at h
    exact ⟨[], w, rfl, rfl, .inl h⟩
  | none =>
    rw [firstGas, hlimit] at h
    obtain ⟨o₁, after, w₁, hrecord, ⟨r, rfl, hrest⟩ | ⟨hnone, rfl, hstopped⟩⟩ := Cycle.run_direct_cases h
    · let first : Exchange ρ := ⟨.bitcoinClient .lastSubmissionGas, none, w.bare, .done r, after⟩
      cases r with
      | error x => exact ⟨[first], { w₁ with log := _ :: w₁.log }, hrecord, ⟨first, rfl, rfl⟩, .inl hrest⟩
      | ok used => exact ⟨[first], w₁, hrecord, ⟨first, rfl, rfl⟩, .inl hrest⟩
    · let first : Exchange ρ := ⟨.bitcoinClient .lastSubmissionGas, none, w.bare, o₁, after⟩
      exact ⟨[first], w', hrecord, ⟨first, rfl, rfl⟩, .inr ⟨⟨first, List.mem_singleton_self _, hnone⟩, rfl, hstopped⟩⟩

/-! ## Closing a gap -/

/-- What a cycle that closes a gap asks of the gas before (`lookup`) and then submits (`sent`, oldest first, the
submission `j` with gas `gas j`). -/
structure SubmitsGap (config : Config) (gap : Gap) (lookup sent : List (Exchange ρ)) (gas : Nat → Option Nat) :
    Prop where
  /-- The submission `j` is of the chunk `j` of the headers, which is not empty; the chunks before it are full. -/
  chunk : ∀ j e, sent[j]? = some e → j * config.batchSize < gap.headers.length ∧
    e.call = .bitcoinClient (.submitHeaders (gap.tipHeight + j * config.batchSize)
      ((gap.headers.drop (j * config.batchSize)).take config.batchSize) (gas j))
  fixed : ∀ limit, config.gasLimit = some limit → lookup = [] ∧ ∀ j, gas j = some limit
  estimated : config.gasLimit = none → ∃ first, lookup = [first] ∧ first.call = .bitcoinClient .lastSubmissionGas ∧
    gas 0 = gasWithMargin first.gasTold? config.gasMargin.toFloat ∧
    ∀ j e, sent[j]? = some e → gas (j + 1) = gasWithMargin e.gasTold? config.gasMargin.toFloat

/-- How far a cycle came that ended as `o`. -/
structure EndsAt (config : Config) (gap : Gap) (lookup sent : List (Exchange ρ))
    (o : Outcome (Relayed Report × State)) : Prop where
  /-- Only the last submission may fail. -/
  untilFailure : ∀ e ∈ sent.dropLast, e.AnsweredWell
  /-- Unless one fails all headers are submitted, or the gas before is asked for and never told. -/
  whole : (∀ e ∈ sent, e.AnsweredWell) →
    gap.headers.length ≤ sent.length * config.batchSize ∨ sent = [] ∧ ∃ first ∈ lookup, ∀ r, first.outcome ≠ .done r
  well : ∀ report s', o = .done (.ok report, s') →
    (∀ e ∈ sent, e.AnsweredWell) ∧ gap.headers.length ≤ sent.length * config.batchSize
  failed : ∀ x s', o = .done (.error x, s') → ∃ e, sent.getLast? = some e ∧ ¬ e.AnsweredWell

section Closing

variable {lookup sent : List (Exchange ρ)} {o : Outcome (Relayed Report × State)}

theorem Submits.submitsGap {batches : List (Batch Header)} {wholly : Bool} (hsize : 0 < config.batchSize)
    (hlookup : LooksUp config lookup)
    (hbatches : batches <+: batchesFrom config.batchSize gap.headers.length gap.headers gap.tipHeight)
    (h : Submits config (lookup.head?.bind Exchange.gasTold?) batches sent wholly) :
    SubmitsGap config gap lookup sent fun j =>
      gasFor config (toldBefore (lookup.head?.bind Exchange.gasTold?) sent j) where
  chunk j e hj := by
    obtain ⟨b, hb, hcall⟩ := h.call_eq hj
    obtain ⟨hj', rfl⟩ := List.getElem?_eq_some_iff.mp hb
    have hchunk := List.prefix_iff_getElem?.mp hbatches j hj'
    rw [getElem?_batchesFrom hsize (Nat.le_refl _)] at hchunk
    split at hchunk
    · rename_i hlt
      rw [← Option.some.inj hchunk] at hcall
      exact ⟨hlt, hcall⟩
    · cases hchunk
  fixed limit hlimit := by
    rw [LooksUp, hlimit] at hlookup
    exact ⟨hlookup, fun j => by rw [gasFor, hlimit]; rfl⟩
  estimated hnone := by
    rw [LooksUp, hnone] at hlookup
    obtain ⟨first, rfl, hfirst⟩ := hlookup
    refine ⟨first, rfl, hfirst, by rw [gasFor, hnone]; rfl, fun j e hj => ?_⟩
    rw [gasFor, hnone, toldBefore, hj]
    rfl

theorem Submits.endsAt {told : Option Nat} {wholly : Bool} (hsize : 0 < config.batchSize)
    (h : Submits config told (batchesFrom config.batchSize gap.headers.length gap.headers gap.tipHeight) sent wholly)
    (hwell : ∀ report s', o = .done (.ok report, s') → wholly = true)
    (hfailed : ∀ x s', o = .done (.error x, s') → wholly = false) : EndsAt config gap lookup sent o where
  untilFailure := h.answeredWell
  whole hall := by
    cases wholly with
    | true => exact .inl (h.covers hsize)
    | false =>
      obtain ⟨e, hlast, hill⟩ := h.broken rfl
      exact absurd (hall e (List.mem_of_getLast? hlast)) hill
  well report s' ho := by
    obtain rfl := hwell report s' ho
    exact ⟨(h.complete rfl).2, h.covers hsize⟩
  failed x s' ho := h.broken (hfailed x s' ho)

theorem run_closeGap (hsize : 0 < config.batchSize)
    (h : ((closeGap config (some gap)).start s).run followed policy H.recorded none w = (o, w')) :
    ∃ lookup sent gas, w'.record = sent.reverse ++ (lookup ++ w.record) ∧
      SubmitsGap config gap lookup sent gas ∧ EndsAt config gap lookup sent o := by
  have hbatches : batchesOf gap.headers gap.tipHeight config.batchSize =
      .ok (batchesFrom config.batchSize gap.headers.length gap.headers gap.tipHeight) := by
    rw [batchesOf, checkBatchSize, if_neg (Nat.ne_of_gt hsize)]
    rfl
  rw [closeGap, hbatches] at h
  obtain ⟨lookup, w₁, hlookup, hlooks, hrest | ⟨hsilent, hrecord, hstopped⟩⟩ := run_firstGas h
  · generalize hgas : gasFor config _ = gas at hrest
    obtain ⟨report, s₁, w₂, hsubmit, hfinish⟩ | ⟨x, s₁, hsubmit, rfl⟩ | ⟨o₁, hsubmit, hnone, hstopped⟩ :=
      Cycle.run_bind_cases (x := submitAll config _ gas (Report.idle engine s.checkedHeight)) hrest
    all_goals
      rw [← hgas] at hsubmit
      obtain ⟨sent, wholly, hsent, hsubmits, hwholly⟩ := run_submitAll hsubmit
      have hgap := hsubmits.submitsGap hsize hlooks List.prefix_rfl
      rw [hlookup] at hsent
    · -- the cycle ends well, and its last two steps are no calls
      cases hfinish
      have hall : wholly = true := hwholly.mpr ⟨_, _, rfl⟩
      exact ⟨lookup, sent, _, hsent, hgap, hsubmits.endsAt hsize (fun _ _ _ => hall) (by simp)⟩
    · have hbroken : wholly = false := by simpa using hwholly
      exact ⟨lookup, sent, _, hsent, hgap, hsubmits.endsAt hsize (by simp) fun _ _ _ => hbroken⟩
    · exact ⟨lookup, sent, _, hsent, hgap, hsubmits.endsAt hsize (fun _ _ ho => absurd ho (hstopped _))
        fun _ _ ho => absurd ho (hstopped _)⟩
  · have hnone : Submits (ρ := ρ) config (lookup.head?.bind Exchange.gasTold?) [] [] true := .all
    refine ⟨lookup, [], _, hrecord.trans hlookup, hnone.submitsGap hsize hlooks List.nil_prefix, ?_⟩
    exact ⟨List.forall_mem_nil _, fun _ => .inr ⟨rfl, hsilent⟩, fun _ _ ho => absurd ho (hstopped _),
      fun _ _ ho => absurd ho (hstopped _)⟩

theorem run_findGap {found : Outcome (Relayed (Option Gap) × State)}
    (h : ((findGap config).start s).run followed policy H.recorded none w = (found, w')) :
    ∃ searched, w'.record = searched ++ w.record ∧ ∀ e ∈ searched, e.call.isSubmission = false := by
  rw [← (findGapView config).program_begun] at h
  obtain ⟨moves, searched, hsearched, hwent⟩ := InProgress.run_went h
  exact ⟨searched, hsearched, hwent.asked walked_findGap⟩

/-- **The planned batches.** A cycle searches for a gap, without a submission. If it finds one, its submissions are the
chunks of the gap, one after the other and up to the first that fails, each at the height that the chunks before it lead
to, and with the gas that is fixed, or that follows from what was told before it: for the first by the history, whose
failure does not end the cycle, and for every other by the response to the one before. If it finds none, it calls no one
any more. -/
theorem planned_batches_submitted (hsize : 0 < config.batchSize)
    (h : ((runCycle config).start s).run followed policy H.recorded none w = (o, w')) :
    ∃ found w₁ searched, ((findGap config).start s).run followed policy H.recorded none
        { w with log := Log.ofEngine engine .info "Sync cycle started" [] :: w.log } = (found, w₁) ∧
      w₁.record = searched ++ w.record ∧ (∀ e ∈ searched, e.call.isSubmission = false) ∧
      (∀ gap s₁, found = .done (.ok (some gap), s₁) → ∃ lookup sent gas,
        w'.record = sent.reverse ++ (lookup ++ w₁.record) ∧ SubmitsGap config gap lookup sent gas ∧
          EndsAt config gap lookup sent o) ∧
      ((∀ gap s₁, found ≠ .done (.ok (some gap), s₁)) → w'.record = w₁.record) := by
  have h : ((findGap config >>= closeGap config).start s).run followed policy H.recorded none
      { w with log := Log.ofEngine engine .info "Sync cycle started" [] :: w.log } = (o, w') := h
  obtain ⟨found, s₁, w₁, hfind, hrest⟩ | ⟨x, s₁, hfind, rfl⟩ | ⟨o₁, hfind, hnone, hstopped⟩ := Cycle.run_bind_cases h
  all_goals obtain ⟨searched, hsearched, hreads⟩ := run_findGap hfind
  · refine ⟨_, w₁, searched, hfind, hsearched, hreads, ?_, fun hnot => ?_⟩
    · rintro gap _ ⟨⟩
      exact run_closeGap hsize hrest
    · cases found with
      | none =>
        cases hrest
        rfl
      | some gap => exact absurd rfl (hnot gap s₁)
  · exact ⟨_, w', searched, hfind, hsearched, hreads, nofun, fun _ => rfl⟩
  · exact ⟨o₁, w', searched, hfind, hsearched, hreads, fun _ _ ho => absurd ho (hnone _), fun _ => rfl⟩

end Closing

def headerOn (parent : UInt8) : Header := ⟨.replicate (parent + 1), .replicate parent, .zero, []⟩

/-- A node with three headers on top of the contract's best, and a contract that takes what it is given and has no
history of its gas. -/
def unrecordedPeers : (c : Call) → Option (Relayed c.Answer)
  | .bitcoinNode .bestBlockHash => some (.ok (.replicate 4))
  | .bitcoinNode (.headerHeight _) => some (.ok (3 : Nat))
  | .bitcoinNode (.header hash) => some (.ok (([1, 2, 3].map headerOn).find? (·.hash = hash) |>.getD (headerOn 0)))
  | .bitcoinClient .bestHeaderHash => some (.ok (.replicate 1))
  | .bitcoinClient .bestHeight => some (.ok (0 : Nat))
  | .bitcoinClient (.headerHashAt _) => some (.ok (some (.replicate 1)))
  | .bitcoinClient .lastSubmissionGas => some (.error (.network "no history"))
  | .bitcoinClient (.submitHeaders ..) => some (.ok (⟨"", 0, "", 90, 70⟩ : Channel.Response))
  | _ => none

/-- Without a history the three headers are submitted all the same, in two batches. -/
theorem unrecorded_gas_submitted :
    ∃ (w' w₁ : World (Unit × List (Exchange Unit))) (lookup sent : List (Exchange Unit)) (gas : Nat → Option Nat),
      ((runCycle ⟨2, 6, ⟨0⟩, none⟩).start ⟨0⟩).run 1 ⟨1000, 1, 10⟩ (Handler.scripted unrecordedPeers).recorded none
          (World.start ((), [])) = (.done (.ok ⟨engine, 3, 2, 3⟩, ⟨3⟩), w') ∧
      w'.record = sent.reverse ++ (lookup ++ w₁.record) ∧ sent.length = 2 ∧
      SubmitsGap ⟨2, 6, ⟨0⟩, none⟩ ⟨0, [headerOn 1, headerOn 2, headerOn 3]⟩ lookup sent gas ∧
      EndsAt ⟨2, 6, ⟨0⟩, none⟩ ⟨0, [headerOn 1, headerOn 2, headerOn 3]⟩ lookup sent
        (.done (.ok ⟨engine, 3, 2, 3⟩, ⟨3⟩)) := by
  have hok : (((runCycle ⟨2, 6, ⟨0⟩, none⟩).start ⟨0⟩).run 1 ⟨1000, 1, 10⟩
      (Handler.scripted unrecordedPeers).recorded none (World.start ((), []))).1.success? =
        some (⟨engine, 3, 2, 3⟩, ⟨3⟩) := by decide +kernel
  have hgap : (((findGap ⟨2, 6, ⟨0⟩, none⟩).start (⟨0⟩ : State)).run 1 ⟨1000, 1, 10⟩
      (Handler.scripted unrecordedPeers).recorded none { World.start ((), []) with
        log := [Log.ofEngine engine .info "Sync cycle started" []] }).1.success? =
      some (some ⟨0, [headerOn 1, headerOn 2, headerOn 3]⟩, ⟨0⟩) := by decide +kernel
  obtain ⟨w', hrun⟩ := Outcome.exists_of_success? hok
  obtain ⟨found, w₁, searched, hfind, -, -, hclose, -⟩ := planned_batches_submitted (by decide) hrun
  obtain ⟨lookup, sent, gas, hrecord, hgap, hends⟩ := hclose _ _ <| by
    rw [← Outcome.success?_eq_some, ← hgap]
    exact congrArg (fun p => p.1.success?) hfind.symm
  refine ⟨w', w₁, lookup, sent, gas, hrun, hrecord, ?_, hgap, hends⟩
  -- two chunks cover the headers, and a third would be empty
  have hcover : 3 ≤ sent.length * 2 := (hends.well _ _ rfl).2
  by_contra hlength
  obtain ⟨e, he⟩ : ∃ e, sent[2]? = some e := ⟨_, List.getElem?_eq_getElem (by omega)⟩
  exact absurd (hgap.chunk 2 e he).1 (by decide)

end Sync.Bitcoin

end HeaderRelay
