import HeaderRelay.Clock.Run
import HeaderRelay.Schedule.StopFlag
import HeaderRelay.Sync.State
import HeaderRelay.Telemetry.Metrics

/-!
# Sync tasks

A task runs the cycles of one strategy, one at a time, with a pause after each. It looks at its stop
flag before every cycle, so a cycle that has started runs to its end. A failed cycle is logged and
counted, and the next one follows as after any other; a cycle that breaks down takes the task with it.

A task's run is given by its timeline: the cycles with the moments at which they start and end, and how
the task ends. Log, metrics and marks are read off the timeline.
-/
namespace HeaderRelay.Schedule

open Sync (Report)

/-- How a cycle ends. -/
inductive CycleEnd where
  | finished (result : Relayed Report)
  /-- It breaks down. -/
  | crashed
  /-- It does not end. -/
  | never

/-- One cycle: how long it takes, in milliseconds, and how it ends. -/
structure CycleRun where
  takes : Nat
  ending : CycleEnd

/-- What a task runs: at each start, a state of its own determines one cycle and the next state. Mirrors
`SyncStrategy`. -/
structure Strategy (σ : Type) where
  name : String
  /-- How many cycles that take no time are followed when no pause is between them. -/
  instant : Nat
  cycle : (start : Nat) → σ → CycleRun × σ

/-- The cycles of an engine against the peers that a handler stands for. -/
def Strategy.ofCycle {σ τ : Type} (name : String) (followed : Nat) (policy : Policy)
    (handler : Peer.Handler τ) (cycle : Cycle σ Report) : Strategy (World τ × σ) where
  name := name
  instant := followed
  cycle start s :=
    match (cycle.run s.2).run followed policy handler none { s.1 with now := start } with
    | (.done (r, engine), w) => (⟨w.now - start, .finished r⟩, (w, engine))
    | (_, w) => (⟨w.now - start, .never⟩, (w, s.2))

/-! ## Timelines -/

/-- A cycle in its place. -/
structure Span where
  start : Moment
  stop : Moment
  ending : CycleEnd

inductive TaskEnd where
  /-- It was followed no further. -/
  | running
  | stopped (when : Moment)
  | crashed (when : Moment)
  deriving DecidableEq, Repr

/-- The cycles of a task and its end. -/
structure Timeline where
  spans : List Span
  ending : TaskEnd

def Timeline.after (t : Timeline) (s : Span) : Timeline := { t with spans := s :: t.spans }

/-- The timeline from `now` on, when `seen` values of the stop flag have been seen. No cycle is followed that
starts at the horizon or later, and at most `fuel` cycles are. Mirrors `spawn_sync_task`. -/
def timelineFrom {σ : Type} (strategy : Strategy σ) (delay : Nat) (flag : StopFlag) (horizon : Moment) :
    (fuel : Nat) → (now : Moment) → (seen : Nat) → σ → Timeline
  | 0, _, _, _ => ⟨[], .running⟩
  | fuel + 1, now, seen, s =>
    if flag.valueAt now then ⟨[], .stopped now⟩
    else if horizon ≤ now then ⟨[], .running⟩
    else
      let (run, s) := strategy.cycle now.time s
      let span : Span := ⟨now, now.afterSleep run.takes, run.ending⟩
      match run.ending with
      | .never => ⟨[span], .running⟩
      | .crashed => ⟨[span], .crashed span.stop⟩
      | .finished _ =>
        match flag.pause span.stop (sleepTime delay) seen with
        | .orphaned t => ⟨[span], .stopped t⟩
        | .resumed t seen => (timelineFrom strategy delay flag horizon fuel t seen s).after span

/-! ## What a timeline shows -/

inductive Mark where
  | start
  | finish
  deriving DecidableEq, Repr

/-- The starts and ends of a cycle that finishes; one that breaks down only starts. -/
def Span.marks (s : Span) : List (Moment × Mark) :=
  match s.ending with
  | .finished _ => [(s.start, .start), (s.stop, .finish)]
  | _ => [(s.start, .start)]

def Span.log (engine : String) (s : Span) : List (Moment × Log.Event) :=
  match s.ending with
  | .finished (.ok report) =>
    [(s.stop, Log.ofEngine engine .debug "Cycle complete"
      [("submitted", .nat report.submitted), ("batches", .nat report.batches),
        ("checked_height", .nat report.checkedHeight)])]
  | .finished (.error e) =>
    [(s.stop, Log.ofEngine engine .error "Cycle failed"
      [("kind", .str e.kind.name), ("error", .str e.message)])]
  | _ => []

/-- What a cycle adds to the metrics; its duration is its time on the clock. -/
def Span.observations (engine : String) (s : Span) : List (Moment × Telemetry.Observation) :=
  let seconds : Float := (UInt64.ofNat (s.stop.time - s.start.time)).toFloat / 1000.0
  match s.ending with
  | .finished (.ok report) => [(s.stop, .cycle engine true seconds), (s.stop, .headers engine report.submitted)]
  | .finished (.error _) => [(s.stop, .cycle engine false seconds)]
  | _ => []

/-- A task: a strategy and its state, the pause between its cycles, when it starts, and its stop flag
from then on. -/
structure Task (σ : Type) where
  strategy : Strategy σ
  state : σ
  delay : Nat
  start : Moment
  flag : StopFlag

namespace Task

variable {σ : Type}

/-- The task's timeline, followed up to a moment. Every round takes time or sees a new value of the flag,
but for cycles that take no time with no pause between them. -/
def timeline (t : Task σ) (horizon : Moment) : Timeline :=
  let rounds := horizon.time - t.start.time + t.flag.sets.length + t.strategy.instant + 2
  timelineFrom t.strategy t.delay t.flag horizon rounds t.start 0 t.state

/-- The moment at which the task ends, if it does before it would start a cycle at the horizon or
later. -/
def end? (t : Task σ) (horizon : Moment) : Option Moment :=
  match (t.timeline horizon).ending with
  | .running => none
  | .stopped m => some m
  | .crashed m => some m

/-- Whether the task breaks down in a cycle that starts before the horizon. -/
def crashes (t : Task σ) (horizon : Moment) : Bool :=
  match (t.timeline horizon).ending with
  | .crashed _ => true
  | _ => false

def marks (t : Task σ) (horizon : Moment) : List (Moment × Mark) :=
  ((t.timeline horizon).spans.flatMap Span.marks).filter fun m => m.1 < horizon

/-- What the task adds to the metrics before a moment. -/
def observations (t : Task σ) (horizon : Moment) : List (Moment × Telemetry.Observation) :=
  ((t.timeline horizon).spans.flatMap (Span.observations t.strategy.name)).filter fun o => o.1 < horizon

def log (t : Task σ) (horizon : Moment) : List (Moment × Log.Event) :=
  let line := t.timeline horizon
  let started := (t.start, Log.ofEngine t.strategy.name .info "Sync task started" [("delay_ms", .nat t.delay)])
  let ended := match line.ending with
    | .stopped m => [(m, Log.ofEngine t.strategy.name .info "Sync task stopped" [])]
    | _ => []
  (started :: (line.spans.flatMap (Span.log t.strategy.name) ++ ended)).filter fun e => e.1 < horizon

end Task

end HeaderRelay.Schedule
