import HeaderRelay.Schedule.Task

/-!
# A simulated strategy

A strategy that plays planned cycles in order and repeats the last one for ever. Its state is the number
of cycles that have started, which a report gives as the checked height.
-/
namespace HeaderRelay.Sim

open Schedule (CycleRun Strategy)

inductive PlannedEnd where
  | submitted (count : Nat)
  | failure (e : RelayError)
  | breakdown

/-- A planned cycle: how long it sleeps, and how it ends. -/
structure CyclePlan where
  takes : Nat
  ending : PlannedEnd

/-- The plan as the `number`-th cycle of an engine, counted from one. -/
def CyclePlan.run (p : CyclePlan) (engine : String) (number : Nat) : CycleRun :=
  ⟨sleepTime p.takes, match p.ending with
    | .submitted count => .finished (.ok ⟨engine, count, 0, number⟩)
    | .failure e => .finished (.error e)
    | .breakdown => .crashed⟩

/-- The strategy that plays these plans, if there are any. -/
def strategy? (name : String) (plans : List CyclePlan) : Option (Strategy Nat) :=
  plans.getLast?.map fun last =>
    ⟨name, plans.length, fun _ started => ((plans.getD started last).run name (started + 1), started + 1)⟩

end HeaderRelay.Sim
