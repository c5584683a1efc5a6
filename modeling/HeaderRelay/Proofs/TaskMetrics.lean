import HeaderRelay.Schedule.Task

/-!
# What a task adds to the metrics

The metrics of a task count the cycles that have come to an end, by how they ended, and the headers that the reports of
those speak of that ended well (`Task.cycles_metrics`, `Task.headers_metrics`). A cycle that fails has no report: what
the contracts took in it is not counted.

`Task.played` are these cycles with the states before and after them. If reports say what the contracts took
(`Strategy.Reports`), the metrics and what was taken in the failed cycles make up all that was taken, at every moment
of every run (`Strategy.Reports.counts`).
-/
namespace HeaderRelay

namespace Telemetry.Metrics

variable (m m' : Metrics) (engine : String)

theorem cycles_append (ok : Bool) :
    cycles (m ++ m') engine ok = m.cycles engine ok + cycles m' engine ok := List.countP_append

theorem headers_append : headers (m ++ m') engine = m.headers engine + headers m' engine := by
  rw [headers, List.filterMap_append, total_append]
  rfl

end Telemetry.Metrics

namespace Schedule

open Sync (Report)
open Telemetry (Metrics Observation)

variable {σ : Type}

/-! ## What is measured of a cycle -/

namespace Span

def finished (ok : Bool) (s : Span) : Bool :=
  match s.ending with
  | .finished (.ok _) => ok
  | .finished (.error _) => !ok
  | _ => false

def reported (s : Span) : Nat :=
  match s.ending with
  | .finished (.ok report) => report.submitted
  | _ => 0

/-- What the cycle adds to the metrics. -/
def metrics (engine : String) (s : Span) : Metrics := (s.observations engine).map (·.2)

def finishedBefore (horizon : Moment) (s : Span) : Bool :=
  (s.finished true || s.finished false) && decide (s.stop < horizon)

variable (s : Span) (engine : String)

theorem finishedBefore_of_finished {r : Relayed Report} (h : s.ending = .finished r) (horizon : Moment) :
    s.finishedBefore horizon = decide (s.stop < horizon) := by
  rw [finishedBefore, finished, finished, h]
  cases r with
  | error x => rfl
  | ok report => rfl

theorem cycles_metrics (ok : Bool) : (s.metrics engine).cycles engine ok = if s.finished ok then 1 else 0 := by
  obtain ⟨start, stop, ending⟩ := s
  rcases ending with (x | report) | _ | _ <;> cases ok <;>
    simp [metrics, observations, finished, Metrics.cycles, Observation.isCycle]

theorem headers_metrics : (s.metrics engine).headers engine = s.reported := by
  obtain ⟨start, stop, ending⟩ := s
  rcases ending with (x | report) | _ | _ <;>
    simp [metrics, observations, reported, Metrics.headers, Observation.headersOf?]

/-- A cycle that has come to an end is counted once. -/
theorem cycleEngines_metrics (h : s.finished true || s.finished false) :
    (s.metrics engine).filterMap (·.cycleEngine?) = [engine] := by
  obtain ⟨start, stop, ending⟩ := s
  rcases ending with (x | report) | _ | _
  · rfl
  · rfl
  · cases h
  · cases h

theorem metrics_of_unfinished (h : (s.finished true || s.finished false) = false) : s.metrics engine = [] := by
  obtain ⟨start, stop, ending⟩ := s
  rcases ending with (x | report) | _ | _
  · cases h
  · cases h
  · rfl
  · rfl

theorem observations_filter (horizon : Moment) :
    (((s.observations engine).filter fun o => o.1 < horizon).map (·.2)) =
      if s.finishedBefore horizon then s.metrics engine else [] := by
  have hstop : ∀ o ∈ s.observations engine, o.1 = s.stop := by
    obtain ⟨start, stop, ending⟩ := s
    rcases ending with (x | report) | _ | _ <;> simp [observations]
  rw [List.filter_congr fun o ho => by rw [hstop o ho]]
  by_cases hlt : s.stop < horizon
  · rw [List.filter_eq_self.mpr fun _ _ => decide_eq_true hlt, finishedBefore, decide_eq_true hlt, Bool.and_true]
    split
    · rfl
    · rename_i hunfinished
      exact s.metrics_of_unfinished engine (Bool.not_eq_true _ ▸ hunfinished)
  · simp [finishedBefore, hlt]

end Span

/-! ## What is measured of a task -/

namespace Task

/-- The metrics of a task up to a moment. -/
def metrics (t : Task σ) (horizon : Moment) : Metrics := (t.observations horizon).map (·.2)

def finished (t : Task σ) (horizon : Moment) : List Span := (t.timeline horizon).spans.filter (·.finishedBefore horizon)

variable (t : Task σ) (horizon : Moment)

theorem metrics_eq : t.metrics horizon = (t.finished horizon).flatMap (Span.metrics t.strategy.name) := by
  rw [metrics, observations, finished]
  induction (t.timeline horizon).spans with
  | nil => rfl
  | cons s spans ih =>
    rw [List.flatMap_cons, List.filter_append, List.map_append, ih, s.observations_filter, List.filter_cons]
    split
    · exact List.flatMap_cons.symm
    · rfl

/-- **Calls.** Every cycle that has come to an end is counted once, under the name of the task. -/
theorem cycleEngines_metrics :
    (t.metrics horizon).filterMap (·.cycleEngine?) = (t.finished horizon).map fun _ => t.strategy.name := by
  have hfinished : ∀ s ∈ t.finished horizon, s.finished true || s.finished false := by
    intro s hs
    exact (Bool.and_eq_true_iff.mp (List.mem_filter.mp hs).2).1
  rw [metrics_eq]
  generalize t.finished horizon = spans at hfinished ⊢
  induction spans with
  | nil => rfl
  | cons s spans ih =>
    obtain ⟨hs, hspans⟩ := List.forall_mem_cons.mp hfinished
    rw [List.flatMap_cons, List.filterMap_append, s.cycleEngines_metrics _ hs, ih hspans]
    rfl

/-- **Cycles.** As many cycles are counted with an outcome as have ended so. -/
theorem cycles_metrics (ok : Bool) :
    (t.metrics horizon).cycles t.strategy.name ok = (t.finished horizon).countP (Span.finished ok) := by
  rw [metrics_eq]
  induction t.finished horizon with
  | nil => rfl
  | cons s spans ih =>
    rw [List.flatMap_cons, Metrics.cycles_append, ih, s.cycles_metrics, List.countP_cons, Nat.add_comm]

/-- **Headers.** The headers are counted that reports speak of. -/
theorem headers_metrics :
    (t.metrics horizon).headers t.strategy.name = total ((t.finished horizon).map Span.reported) := by
  rw [metrics_eq]
  induction t.finished horizon with
  | nil => rfl
  | cons s spans ih =>
    rw [List.flatMap_cons, Metrics.headers_append, ih, s.headers_metrics]
    rfl

end Task

/-! ## States along a run -/

/-- A cycle in its place, with the states before and after it. -/
structure Played (σ : Type) where
  span : Span
  before : σ
  after : σ

namespace Strategy

def play (x : Strategy σ) (start : Moment) (s : σ) : Played σ :=
  let (run, after) := x.cycle start.time s
  ⟨⟨start, start.afterSleep run.takes, run.ending⟩, s, after⟩

def plays (x : Strategy σ) : σ → List Moment → List (Played σ)
  | _, [] => []
  | s, start :: starts => x.play start s :: x.plays (x.play start s).after starts

def stateAfter (x : Strategy σ) : σ → List Moment → σ
  | s, [] => s
  | s, start :: starts => x.stateAfter (x.play start s).after starts

end Strategy

namespace Task

/-- The cycles of a task that have come to an end before a moment, with their states. -/
def played (t : Task σ) (horizon : Moment) : List (Played σ) :=
  t.strategy.plays t.state ((t.finished horizon).map Span.start)

def stateAt (t : Task σ) (horizon : Moment) : σ := t.strategy.stateAfter t.state ((t.finished horizon).map Span.start)

end Task

theorem StopFlag.le_pause {f : StopFlag} {now t : Moment} {delay seen seen' : Nat}
    (h : f.pause now delay seen = .resumed t seen') : now ≤ t := by
  unfold pause at h
  dsimp only at h
  split at h
  · rename_i t' hset
    cases h
    obtain ⟨at', -, rfl⟩ := Option.map_eq_some_iff.mp (Option.filter_eq_some_iff.mp hset).1
    exact Moment.le_latest_left ..
  · split at h
    · cases h
    · cases h
      exact Moment.le_afterSleep ..

section Timelines

variable {x : Strategy σ} {delay fuel seen : Nat} {flag : StopFlag} {horizon now : Moment} {s : σ}

theorem timelineFrom_spans_of_le (h : horizon ≤ now) :
    (timelineFrom x delay flag horizon fuel now seen s).spans = [] := by
  cases fuel with
  | zero => rfl
  | succ fuel =>
    rw [timelineFrom, if_pos h]
    split
    · rfl
    · rfl

/-- A cycle that has come to an end goes before those after it; one that has not is the last. -/
theorem plays_cons {spans : List Span}
    (hrest : (x.plays (x.play now s).after ((spans.filter (·.finishedBefore horizon)).map Span.start)).map Played.span =
      spans.filter (·.finishedBefore horizon))
    (hlast : (x.play now s).span.finishedBefore horizon = false → spans = []) :
    (x.plays s ((((x.play now s).span :: spans).filter (·.finishedBefore horizon)).map Span.start)).map Played.span =
      ((x.play now s).span :: spans).filter (·.finishedBefore horizon) := by
  cases hfinished : (x.play now s).span.finishedBefore horizon with
  | false =>
    rw [hlast hfinished, List.filter_cons_of_neg (by simp [hfinished])]
    rfl
  | true =>
    rw [List.filter_cons_of_pos hfinished]
    exact congrArg _ hrest

/-- The cycles of a timeline that have come to an end are cycles of the strategy, one after the other. -/
theorem timelineFrom_plays :
    (x.plays s (((timelineFrom x delay flag horizon fuel now seen s).spans.filter
      (·.finishedBefore horizon)).map Span.start)).map Played.span =
      (timelineFrom x delay flag horizon fuel now seen s).spans.filter (·.finishedBefore horizon) := by
  induction fuel generalizing now seen s with
  | zero => rfl
  | succ fuel ih =>
    rw [timelineFrom]
    split
    · rfl
    split
    · rfl
    dsimp only
    split
    · exact plays_cons rfl fun _ => rfl
    · exact plays_cons rfl fun _ => rfl
    rename_i r hends
    split
    · exact plays_cons rfl fun _ => rfl
    · rename_i t seen' hpause
      refine plays_cons ih fun hlate => timelineFrom_spans_of_le ?_
      rw [Span.finishedBefore_of_finished _ hends] at hlate
      exact Moment.le_trans (Moment.not_lt.mp (of_decide_eq_false hlate)) (StopFlag.le_pause hpause)

end Timelines

/-! ## The account -/

/-- Of `accepted`, what a failed cycle added to it. -/
def Played.unreported (accepted : σ → Nat) (p : Played σ) : Nat :=
  if p.span.finished false then accepted p.after - accepted p.before else 0

/-- Reports say what a cycle added to `accepted`, and a cycle that fails takes nothing away. -/
structure Strategy.Reports (x : Strategy σ) (accepted : σ → Nat) : Prop where
  ok : ∀ {start s report}, (x.cycle start s).1.ending = .finished (.ok report) →
    accepted (x.cycle start s).2 = accepted s + report.submitted
  error : ∀ {start s e}, (x.cycle start s).1.ending = .finished (.error e) → accepted s ≤ accepted (x.cycle start s).2

/-- The metrics of a task up to a moment count the cycles that have come to an end, each once and by its outcome. The
headers that they count and those that were accepted in failed cycles are all that were accepted: so they count all
exactly if none were accepted in a failed cycle. -/
structure Task.Counted (t : Task σ) (accepted : σ → Nat) (horizon : Moment) : Prop where
  played : (t.played horizon).map Played.span = t.finished horizon
  calls : (t.metrics horizon).filterMap (·.cycleEngine?) = (t.finished horizon).map fun _ => t.strategy.name
  cycles : ∀ ok, (t.metrics horizon).cycles t.strategy.name ok = (t.finished horizon).countP (Span.finished ok)
  headers : accepted (t.stateAt horizon) = accepted t.state + (t.metrics horizon).headers t.strategy.name +
    total ((t.played horizon).map (Played.unreported accepted))
  exact_iff : accepted (t.stateAt horizon) = accepted t.state + (t.metrics horizon).headers t.strategy.name ↔
    ∀ p ∈ t.played horizon, p.span.finished false = true → accepted p.after = accepted p.before

/-- So do the metrics of every task of the strategy, up to every moment. -/
def Strategy.Counts (x : Strategy σ) (accepted : σ → Nat) : Prop :=
  ∀ (s : σ) (delay : Nat) (start : Moment) (flag : StopFlag) (horizon : Moment),
    (⟨x, s, delay, start, flag⟩ : Task σ).Counted accepted horizon

namespace Strategy

variable {x : Strategy σ} {s : σ} {accepted : σ → Nat} {horizon : Moment}

theorem Reports.play (hx : x.Reports accepted) {start : Moment}
    (hfinished : (x.play start s).span.finishedBefore horizon) :
    accepted s ≤ accepted (x.play start s).after ∧ accepted (x.play start s).after =
      accepted s + (x.play start s).span.reported + (x.play start s).unreported accepted := by
  have hends := (Bool.and_eq_true_iff.mp hfinished).1
  have hending : (x.play start s).span.ending = (x.cycle start.time s).1.ending := rfl
  have hafter : (x.play start s).after = (x.cycle start.time s).2 := rfl
  cases hcycle : (x.cycle start.time s).1.ending with
  | finished r =>
    rw [hcycle] at hending
    cases r with
    | ok report =>
      have hreported : (x.play start s).span.reported = report.submitted := by rw [Span.reported, hending]
      have hnone : (x.play start s).unreported accepted = 0 := by
        rw [Played.unreported, Span.finished, hending]
        rfl
      have hok := hx.ok hcycle
      rw [hreported, hnone, hafter]
      omega
    | error e =>
      have hnone : (x.play start s).span.reported = 0 := by rw [Span.reported, hending]
      have hlost : (x.play start s).unreported accepted = accepted (x.cycle start.time s).2 - accepted s := by
        rw [Played.unreported, Span.finished, hending]
        rfl
      have hle := hx.error hcycle
      rw [hnone, hlost, hafter]
      omega
  | crashed | never =>
    rw [hcycle] at hending
    rw [Span.finished, Span.finished, hending] at hends
    cases hends

theorem Reports.plays (hx : x.Reports accepted) {starts : List Moment}
    (hfinished : ∀ p ∈ x.plays s starts, p.span.finishedBefore horizon) :
    accepted (x.stateAfter s starts) = accepted s + total ((x.plays s starts).map fun p => p.span.reported) +
        total ((x.plays s starts).map (Played.unreported accepted)) ∧
      ∀ p ∈ x.plays s starts, accepted p.before ≤ accepted p.after := by
  induction starts generalizing s with
  | nil => exact ⟨rfl, by simp [Strategy.plays]⟩
  | cons start starts ih =>
    obtain ⟨hplay, hrest⟩ := List.forall_mem_cons.mp hfinished
    obtain ⟨hle, hone⟩ := hx.play hplay
    obtain ⟨hall, hkeeps⟩ := ih hrest
    refine ⟨?_, List.forall_mem_cons.mpr ⟨hle, hkeeps⟩⟩
    simp only [stateAfter, Strategy.plays, List.map_cons, total_cons]
    omega

theorem unreported_eq_zero_iff {p : Played σ} (h : accepted p.before ≤ accepted p.after) :
    p.unreported accepted = 0 ↔ (p.span.finished false = true → accepted p.after = accepted p.before) := by
  unfold Played.unreported
  split
  · rename_i hfailed
    simp only [hfailed, forall_const]
    omega
  · rename_i hsucceeded
    exact ⟨fun _ hfailed => absurd hfailed hsucceeded, fun _ => rfl⟩

/-- **The account of a task.** -/
theorem Reports.counts (hx : x.Reports accepted) : x.Counts accepted := by
  intro s delay start flag horizon
  generalize ht : (⟨x, s, delay, start, flag⟩ : Task σ) = t
  obtain rfl : t.strategy = x := by rw [← ht]
  have hspans : (t.played horizon).map Played.span = t.finished horizon := timelineFrom_plays
  have hfinished : ∀ p ∈ t.played horizon, p.span.finishedBefore horizon := by
    intro p hp
    have hmem := List.mem_map_of_mem (f := Played.span) hp
    rw [hspans] at hmem
    exact (List.mem_filter.mp hmem).2
  obtain ⟨hall, hkeeps⟩ := hx.plays hfinished
  have hheaders : (t.metrics horizon).headers t.strategy.name =
      total ((t.played horizon).map fun p => p.span.reported) := by
    rw [t.headers_metrics, ← hspans, List.map_map]
    rfl
  have haccount : accepted (t.stateAt horizon) = accepted t.state + (t.metrics horizon).headers t.strategy.name +
      total ((t.played horizon).map (Played.unreported accepted)) := by
    rw [hheaders]
    exact hall
  refine ⟨hspans, t.cycleEngines_metrics horizon, t.cycles_metrics horizon, haccount, ?_⟩
  rw [haccount, Nat.add_eq_left, total_eq_zero_iff, List.forall_mem_map]
  exact forall₂_congr fun p hp => unreported_eq_zero_iff (hkeeps p hp)

end Strategy

end Schedule

end HeaderRelay
