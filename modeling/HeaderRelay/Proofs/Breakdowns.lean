import HeaderRelay.Proofs.ConsensusDeadlines

/-!
# Breakdowns

A machine grants room for so many headers and heights of one word, and what asks for more breaks down, with neither a
result nor an error. Otherwise it does what it would do if there were no such limits (`Cycle.Attempts`;
`attempts_runCycle` for each engine, `proveResultOn_eq` for requests), so that what is known of a cycle holds on every
machine, as far as the cycle gets.

A sequential cycle asks a machine for the height above those done, as does a request for the proof of a result. A
batched cycle asks for room as well, for all headers up to the height that the node claims, before it has read any of
them: a node that claims enough breaks it down. `Exceeds` says when. All calls before that are answered or given up in
their time (`consensus_calls_in_time`).
-/
namespace HeaderRelay

open Peer (Call Handler)

variable {ρ τ α β : Type} {followed : Nat} {policy : Policy} {H : Handler ρ} {w w₁ : World ρ} {s : τ}

/-! ## Cycles that may break down -/

def unbroken (r : Relayed α × τ) : Relayed (Option α) × τ := (r.1.map some, r.2)

def Outcome.result? : Outcome (Relayed α × τ) → Option (Relayed α)
  | .done (r, _) => some r
  | _ => none

theorem Outcome.exists_of_result? {ω : Type} {p : Outcome (Relayed α × τ) × ω} {r : Relayed α}
    (h : p.1.result? = some r) : ∃ s w, p = (.done (r, s), w) := by
  obtain ⟨_ | _ | _, w⟩ := p <;> cases h
  exact ⟨_, w, rfl⟩

namespace Cycle

/-- Run from `w`, the cycle breaks down. -/
def BreaksDown (followed : Nat) (policy : Policy) (H : Handler ρ) (w : World ρ) (x : Cycle τ (Option α)) (s : τ) :
    Prop :=
  ∃ s' w', (x.start s).run followed policy H none w = (.done (.ok none, s'), w')

/-- In every run, `x` does what `y` does, or it breaks down. -/
def Attempts (x : Cycle τ (Option α)) (y : Cycle τ α) : Prop :=
  ∀ {ρ : Type} (followed : Nat) (policy : Policy) (H : Handler ρ) (w : World ρ) (s : τ),
    x.BreaksDown followed policy H w s ∨
      ∃ o w', (y.start s).run followed policy H none w = (o, w') ∧
        (x.start s).run followed policy H none w = (o.map unbroken, w')

theorem breaksDown_none : (pure none : Cycle τ (Option α)).BreaksDown followed policy H w s := ⟨s, w, rfl⟩

theorem breaksDown_bind_iff {x : Cycle τ β} {f : β → Cycle τ (Option α)} :
    (x >>= f).BreaksDown followed policy H w s ↔ ∃ b s₁ w₁,
      (x.start s).run followed policy H none w = (.done (.ok b, s₁), w₁) ∧ (f b).BreaksDown followed policy H w₁ s₁ := by
  constructor
  · rintro ⟨s', w', h⟩
    obtain ⟨b, s₁, w₁, hx, hf⟩ | ⟨e, s₁, -, hend⟩ | ⟨o, -, -, hnone⟩ := run_bind_cases h
    · exact ⟨b, s₁, w₁, hx, s', w', hf⟩
    · cases hend
    · exact absurd rfl (hnone _)
  · rintro ⟨b, s₁, w₁, hx, s', w', hf⟩
    exact ⟨s', w', (run_bind_of_ok f hx).trans hf⟩

theorem not_breaksDown_some {x : Cycle τ α} : ¬ (x >>= fun a => pure (some a)).BreaksDown followed policy H w s := by
  rw [breaksDown_bind_iff]
  rintro ⟨a, s₁, w₁, -, s', w', hend⟩
  cases hend

theorem attempts_none (y : Cycle τ α) : (pure none : Cycle τ (Option α)).Attempts y :=
  fun _ _ _ _ _ => .inl breaksDown_none

theorem attempts_some (y : Cycle τ α) : (y >>= fun a => pure (some a)).Attempts y := by
  intro ρ followed policy H w s
  refine .inr ⟨_, _, rfl, ?_⟩
  rw [start_bind, Program.run_andThen]
  simp only [bind, Timed.andThen]
  obtain ⟨⟨_ | _, _⟩ | _ | _, _⟩ := (y.start s).run followed policy H none w <;> rfl

theorem Attempts.bind {z : Cycle τ β} {f : β → Cycle τ (Option α)} {g : β → Cycle τ α}
    (h : ∀ b, (f b).Attempts (g b)) : (z >>= f).Attempts (z >>= g) := by
  intro ρ followed policy H w s
  have hrun {x : Cycle τ β} {γ : Type} (k : β → Cycle τ γ) :
      ((x >>= k).start s).run followed policy H none w =
        ((x.start s).run followed policy H >>= fun r => (goOn k r).run followed policy H) none w := by
    rw [start_bind, Program.run_andThen]
  rw [hrun f, hrun g]
  simp only [Bind.bind, Timed.andThen]
  rcases hz : (z.start s).run followed policy H none w with ⟨⟨e | b, s₁⟩ | _ | _, w₁⟩
  · exact .inr ⟨_, _, rfl, rfl⟩
  · refine (h b followed policy H w₁ s₁).imp_left fun hbroken => ?_
    exact breaksDown_bind_iff.mpr ⟨b, s₁, w₁, hz, hbroken⟩
  · exact .inr ⟨_, _, rfl, rfl⟩
  · exact .inr ⟨_, _, rfl, rfl⟩

theorem Attempts.ite {p : Prop} [Decidable p] {x x' : Cycle τ (Option α)} {y : Cycle τ α} (hx : x.Attempts y)
    (hx' : x'.Attempts y) : (if p then x else x').Attempts y := by
  split
  · exact hx
  · exact hx'

end Cycle

namespace Sync

open Consensus (Header)

/-! ## The consensus engines -/

/-- A machine that breaks down where a height does not fit. -/
def Machine.Counts (machine : Machine) : Prop := ∀ height next, machine.above height = some next → next = height + 1

theorem Machine.counts_checked (room : Nat) : (Machine.checked room).Counts := by
  intro height next h
  obtain ⟨-, hnext⟩ := Option.ite_none_right_eq_some.mp h
  exact (Option.some.inj hnext).symm

namespace Sequential

def surveyed : Step (Header × Nat × Nat) :=
  survey fun last networkHeight checked => pure (last, networkHeight, checked)

theorem survey_eq (next : Header → Nat → Nat → Step α) :
    survey next = surveyed >>= fun x => next x.1 x.2.1 x.2.2 := by
  refine .symm <| (bind_assoc ..).trans <| bind_congr fun last => (bind_assoc ..).trans <| bind_congr fun top => ?_
  refine (bind_assoc ..).trans <| bind_congr fun best => (bind_assoc ..).trans <| bind_congr fun _ => ?_
  exact (bind_assoc ..).trans <| bind_congr fun s => pure_bind ..

/-- Run from `w`, the cycle finds that all heights are used up. -/
def Exceeds (followed : Nat) (policy : Policy) (H : Handler ρ) (w : World ρ) (machine : Machine) (s : State Header) :
    Prop :=
  ∃ last networkHeight checked s₁ w₁, (surveyed.start s).run followed policy H none w =
    (.done (.ok (last, networkHeight, checked), s₁), w₁) ∧ machine.above (max checked last.height) = none

theorem breaksDown_iff {machine : Machine} {s : State Header} :
    (runCycleOn machine).BreaksDown followed policy H w s ↔ Exceeds followed policy H w machine s := by
  unfold runCycleOn
  rw [survey_eq, Cycle.breaksDown_bind_iff]
  constructor
  · rintro ⟨⟨last, networkHeight, checked⟩, s₁, w₁, hsurvey, hrest⟩
    refine ⟨last, networkHeight, checked, s₁, w₁, hsurvey, ?_⟩
    dsimp only at hrest
    cases habove : machine.above (max checked last.height) with
    | none => rfl
    | some start =>
      rw [habove] at hrest
      exact absurd hrest Cycle.not_breaksDown_some
  · rintro ⟨last, networkHeight, checked, s₁, w₁, hsurvey, habove⟩
    refine ⟨_, s₁, w₁, hsurvey, ?_⟩
    dsimp only
    rw [habove]
    exact Cycle.breaksDown_none

/-- Where heights start again at zero, there is always one to go on from. -/
theorem not_breaksDown_wrapping {room : Nat} {s : State Header} :
    ¬ (runCycleOn (.wrapping room)).BreaksDown followed policy H w s := by
  rw [breaksDown_iff]
  rintro ⟨last, networkHeight, checked, s₁, w₁, -, habove⟩
  cases habove

/-- On a machine a cycle does what it does without limits, or it breaks down. -/
theorem attempts_runCycle {machine : Machine} (hcounts : machine.Counts) : (runCycleOn machine).Attempts runCycle := by
  unfold runCycleOn runCycle
  rw [survey_eq, survey_eq]
  refine Cycle.Attempts.bind fun x => ?_
  obtain ⟨last, networkHeight, checked⟩ := x
  dsimp only
  cases habove : machine.above (max checked last.height) with
  | none => exact Cycle.attempts_none _
  | some start =>
    obtain rfl := hcounts _ _ habove
    exact Cycle.attempts_some _

end Sequential

namespace Batched

def surveyed : Step (Header × Nat × State Header) :=
  survey fun relayBest networkHeight s => pure (relayBest, networkHeight, s)

theorem survey_eq (next : Header → Nat → State Header → Step α) :
    survey next = surveyed >>= fun x => next x.1 x.2.1 x.2.2 := by
  refine .symm <| (bind_assoc ..).trans <| bind_congr fun best => (bind_assoc ..).trans <| bind_congr fun _ => ?_
  refine (bind_assoc ..).trans <| bind_congr fun top => (bind_assoc ..).trans <| bind_congr fun networkBest => ?_
  refine (bind_assoc ..).trans <| bind_congr fun _ => (bind_assoc ..).trans <| bind_congr fun s => ?_
  exact pure_bind ..

/-- Run from `w`, the cycle finds that all heights are used up, or that there is no room for the headers up to the
height that the node claims. -/
def Exceeds (followed : Nat) (policy : Policy) (H : Handler ρ) (w : World ρ) (machine : Machine) (s : State Header) :
    Prop :=
  ∃ relayBest networkHeight s₀ s₁ w₁, (surveyed.start s).run followed policy H none w =
    (.done (.ok (relayBest, networkHeight, s₀), s₁), w₁) ∧
      ∀ start, machine.above (doneHeight s₀ relayBest) = some start → machine.room < networkHeight - start

theorem breaksDown_iff {machine : Machine} {size : Nat} {s : State Header} :
    (runCycleOn machine size).BreaksDown followed policy H w s ↔ Exceeds followed policy H w machine s := by
  unfold runCycleOn
  rw [survey_eq, Cycle.breaksDown_bind_iff]
  constructor
  · rintro ⟨⟨relayBest, networkHeight, s₀⟩, s₁, w₁, hsurvey, hrest⟩
    refine ⟨relayBest, networkHeight, s₀, s₁, w₁, hsurvey, fun start habove => ?_⟩
    dsimp only at hrest
    rw [habove] at hrest
    by_contra hroom
    obtain ⟨_, s₂, w₂, -, hrest⟩ := Cycle.breaksDown_bind_iff.mp hrest
    rw [if_neg hroom] at hrest
    exact absurd hrest Cycle.not_breaksDown_some
  · rintro ⟨relayBest, networkHeight, s₀, s₁, w₁, hsurvey, hroom⟩
    refine ⟨_, s₁, w₁, hsurvey, ?_⟩
    dsimp only
    cases habove : machine.above (doneHeight s₀ relayBest) with
    | none => exact Cycle.breaksDown_none
    | some start =>
      refine Cycle.breaksDown_bind_iff.mpr ⟨(), s₁, _, rfl, ?_⟩
      rw [if_pos (hroom start habove)]
      exact Cycle.breaksDown_none

/-- On a machine a cycle does what it does without limits, or it breaks down. -/
theorem attempts_runCycle {machine : Machine} (hcounts : machine.Counts) (size : Nat) :
    (runCycleOn machine size).Attempts (runCycle size) := by
  unfold runCycleOn runCycle
  rw [survey_eq, survey_eq]
  refine Cycle.Attempts.bind fun x => ?_
  obtain ⟨relayBest, networkHeight, s⟩ := x
  dsimp only
  cases habove : machine.above (doneHeight s relayBest) with
  | none => exact Cycle.attempts_none _
  | some start =>
    obtain rfl := hcounts _ _ habove
    exact Cycle.Attempts.bind fun _ => Cycle.Attempts.ite (Cycle.attempts_none _) (Cycle.attempts_some _)

end Batched

/-! ## Requests for proofs -/

namespace Request

/-- Run from `w`, the request breaks down. -/
def BreaksDown (followed : Nat) (policy : Policy) (H : Handler ρ) (w : World ρ) (x : Request (Option α)) : Prop :=
  ∃ w', x.run.run followed policy H none w = (.done (.ok none), w')

theorem not_breaksDown_some {x : Request α} : ¬ (x >>= fun a => pure (some a)).BreaksDown followed policy H w := by
  rintro ⟨w', h⟩
  obtain ⟨_ | a, w₁, -, hend⟩ | ⟨o, -, -, hnone⟩ := Program.run_andThen_cases h
  · cases hend
  · cases hend
  · exact hnone _ rfl

theorem breaksDown_read_iff {op : String} {c : Call} {f : c.Answer → Request (Option α)} :
    (read op c >>= f).BreaksDown followed policy H w ↔
      ∃ a w₁, policy.read followed op (H c) none w = (.done (.ok a), w₁) ∧ (f a).BreaksDown followed policy H w₁ := by
  constructor
  · rintro ⟨w', h⟩
    obtain ⟨r, w₁, hread, hend⟩ | ⟨o, -, -, hnone⟩ := Program.run_andThen_cases h
    · obtain ⟨o, hcall, hr⟩ := Timed.bind_pure_cases (f := id) hread
      cases o with
      | done a =>
        cases hr
        cases a with
        | error e => cases hend
        | ok a => exact ⟨a, w₁, hcall, w', hend⟩
      | unanswered | unfollowed => cases hr
    · exact absurd rfl (hnone _)
  · rintro ⟨a, w₁, hread, w', h⟩
    have hread : (Program.outcome (.read op) c).run followed policy H none w = (.done (.ok a), w₁) :=
      Timed.bind_of_done hread
    exact ⟨w', (Program.run_andThen_of_done _ hread).trans h⟩

end Request

theorem proveResultOn_breaksDown_iff {machine : Machine} {height index : Nat} :
    (proveResultOn machine height index).BreaksDown followed policy H w ↔
      machine.above height = none ∧ ∃ results w₁, policy.read followed "consensus.block_results"
        (H (.consensusNode (.blockResults height))) none w = (.done (.ok results), w₁) := by
  refine Request.breaksDown_read_iff.trans ?_
  cases machine.above height with
  | none =>
    constructor
    · rintro ⟨results, w₁, hread, -⟩
      exact ⟨rfl, results, w₁, hread⟩
    · rintro ⟨-, results, w₁, hread⟩
      exact ⟨results, w₁, hread, w₁, rfl⟩
  | some next =>
    refine iff_of_false ?_ nofun
    rintro ⟨results, w₁, -, hbroken⟩
    exact Request.not_breaksDown_some hbroken

/-- Where the next height fits, a request on a machine is one without limits. -/
theorem proveResultOn_eq {machine : Machine} {height : Nat} (h : machine.above height = some (height + 1))
    (index : Nat) : proveResultOn machine height index = proveResultAt height index >>= fun r => pure (some r) := by
  unfold proveResultOn proveResultAt
  refine (bind_congr fun results => ?_).trans (bind_assoc ..).symm
  rw [h]

/-! ## The calls of the consensus engines -/

/-- **Consensus cycles and requests.** Whatever peers do that answer at once or late, fail, or never answer, and that
ask for no pauses: every cycle of both consensus engines and every request for a proof comes to an end, with each of its
reads in the time of its attempts and the pauses between them, and each of its submissions in the time of one attempt.
That end is a breakdown exactly if it asks for more than the machine grants. -/
theorem consensus_calls_in_time {H : Handler ρ} (hH : H.Punctual) (hunlimited : H.Unlimited) {followed : Nat}
    {policy : Policy} (hfollowed : policy.attempts ≤ followed) (machine : Machine) (w : World ρ) :
    (∀ s, ((Sequential.runCycleOn machine).start s).EndsInTime followed policy H w ∧
      ((Sequential.runCycleOn machine).BreaksDown followed policy H w s ↔
        Sequential.Exceeds followed policy H w machine s)) ∧
    (∀ batchSize s, ((Batched.runCycleOn machine batchSize).start s).EndsInTime followed policy H w ∧
      ((Batched.runCycleOn machine batchSize).BreaksDown followed policy H w s ↔
        Batched.Exceeds followed policy H w machine s)) ∧
    (∀ block txid, (proveTransaction block txid).run.EndsInTime followed policy H w) ∧
    ∀ height index, (proveResultOn machine height index).run.EndsInTime followed policy H w ∧
      ((proveResultOn machine height index).BreaksDown followed policy H w ↔
        machine.above height = none ∧ ∃ results w₁, policy.read followed "consensus.block_results"
          (H (.consensusNode (.blockResults height))) none w = (.done (.ok results), w₁)) :=
  ⟨fun s => ⟨(Sequential.bounded_runCycleOn machine s).endsInTime hH hunlimited hfollowed, Sequential.breaksDown_iff⟩,
    fun batchSize s =>
      ⟨(Batched.bounded_runCycleOn machine batchSize s).endsInTime hH hunlimited hfollowed, Batched.breaksDown_iff⟩,
    fun block txid => (bounded_proveTransaction block txid).endsInTime hH hunlimited hfollowed,
    fun height index => ⟨(bounded_proveResultOn machine height index).endsInTime hH hunlimited hfollowed,
      proveResultOn_breaksDown_iff⟩⟩

def silence : Handler Unit := Handler.scripted fun _ => none

/-- Against silence, cycles and requests give up after the longest time that a read may take. -/
theorem silence_times_out :
    (((Sequential.runCycleOn (.checked 0)).start (State.fresh 5)).EndsInTime 3 ⟨1000, 3, 10⟩ silence (.start ()) ∧
      ((Batched.runCycleOn (.checked 0) 2).start (State.fresh 5)).EndsInTime 3 ⟨1000, 3, 10⟩ silence (.start ()) ∧
      (proveTransaction .zero .zero).run.EndsInTime 3 ⟨1000, 3, 10⟩ silence (.start ()) ∧
      (proveResultOn (.checked 0) 6 0).run.EndsInTime 3 ⟨1000, 3, 10⟩ silence (.start ()) ∧
      ¬ (proveResultOn (.checked 0) 6 0).BreaksDown 3 ⟨1000, 3, 10⟩ silence (.start ())) ∧
    (((Sequential.runCycleOn (.checked 0)).start (State.fresh 5)).legs 3 ⟨1000, 3, 10⟩ silence (.start ())).map
        (fun leg => (leg.began, leg.ended)) = [(0, 3050)] ∧
      Policy.readTime ⟨1000, 3, 10⟩ = 3050 := by
  obtain ⟨hsequential, hbatched, htransaction, hresult⟩ := consensus_calls_in_time (H := silence)
    Handler.punctual_scripted (Handler.unlimited_scripted nofun) (by decide : Policy.attempts ⟨1000, 3, 10⟩ ≤ 3)
    (.checked 0) (.start ())
  refine ⟨⟨(hsequential _).1, (hbatched _ _).1, htransaction _ _, (hresult _ _).1, ?_⟩, by decide +kernel, rfl⟩
  rw [(hresult 6 0).2]
  exact fun h => absurd h.1 (by decide)

/-- A node with one header that claims a height of `10 ^ 18`, and contracts that hold the header. -/
def boastfulNode : (c : Call) → Option (Relayed c.Answer)
  | .consensusNode .latestHeight => some (.ok (10 ^ 18 : Nat))
  | .consensusNode (.header height) =>
    some (if height = 1 ∨ height = 10 ^ 18 then .ok (plainChain height) else .error (.headerNotFound s!"height {height}"))
  | .consensusNode (.headerByHash _) => some (.ok (plainChain 1))
  | .consensusClient .bestCommittedHash => some (.ok (plainChain 1).hash)
  | .consensusClient .currentHeight => some (.ok (1 : Nat))
  | .relayStore .bestHeight => some (.ok (1 : Nat))
  | .relayStore .bestHash => some (.ok (plainChain 1).hash)
  | _ => none

/-- Such a node breaks a batched cycle down on every machine, before the cycle has read a header that it is to examine. A
sequential cycle finds out that the node does not have the second header, and ends with that error. -/
theorem boastful_node_breaks_down :
    (Handler.scripted boastfulNode).Punctual ∧ (Handler.scripted boastfulNode).Unlimited ∧
    (∀ machine : Machine, machine.room ≤ Machine.mostRoom → (Batched.runCycleOn machine 2).BreaksDown 3 ⟨1000, 3, 10⟩
      (Handler.scripted boastfulNode) (.start ()) (State.fresh 5)) ∧
    ∃ s' w', ((Sequential.runCycleOn (.checked Machine.mostRoom)).start (State.fresh 5)).run 3 ⟨1000, 3, 10⟩
      (Handler.scripted boastfulNode) none (.start ()) = (.done (.error (.headerNotFound "height 2"), s'), w') := by
  have hfinal : ∀ {c r}, boastfulNode c = some r → r.Final := by
    intro c r h
    unfold boastfulNode at h
    split at h
    case h_2 =>
      cases h
      split
      · exact Relayed.final_ok _
      · exact Relayed.final_error rfl
    all_goals cases h
    all_goals exact Relayed.final_ok _
  have hsurvey : ((Batched.surveyed.start (State.fresh 5)).run 3 ⟨1000, 3, 10⟩ (Handler.scripted boastfulNode) none
      (.start ())).1.result? = some (.ok (plainChain 1, 10 ^ 18,
        ⟨0, some (plainChain 1), some (plainChain (10 ^ 18)), 5, [], 0⟩)) := by decide +kernel
  have hread : (((Sequential.runCycleOn (.checked Machine.mostRoom)).start (State.fresh 5)).run 3 ⟨1000, 3, 10⟩
      (Handler.scripted boastfulNode) none (.start ())).1.result? =
        some (.error (.headerNotFound "height 2")) := by decide +kernel
  refine ⟨Handler.punctual_scripted, Handler.unlimited_scripted hfinal, fun machine hmachine => ?_,
    Outcome.exists_of_result? hread⟩
  obtain ⟨s₁, w₁, hrun⟩ := Outcome.exists_of_result? hsurvey
  refine Batched.breaksDown_iff.mpr ⟨_, _, _, s₁, w₁, hrun, fun start hstart => ?_⟩
  cases (machine.above_eq (by decide)).symm.trans hstart
  exact Nat.lt_of_le_of_lt hmachine (by decide)

end Sync

end HeaderRelay
