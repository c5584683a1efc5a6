import HeaderRelay.Schedule.Task

/-!
# The scheduler

The scheduler owns tasks that share one stop flag. Tasks may also run on a flag of their own. A `Stage`
is the scheduler with all tasks and the present moment; up to that moment, every task has run as its
timeline says. Tasks run only when the stage gives way, which it does by waiting for a later time and by
waiting for tasks that have not ended: so whatever it does at one moment, it does before any task acts
on it.
-/
namespace HeaderRelay.Schedule

/-- The tasks of a scheduler, the tasks on flags of their own, and the present moment. Mirrors `SyncScheduler`. -/
structure Stage (σ : Type) where
  now : Moment
  /-- All tasks in the order of their starts; those of the scheduler are marked. -/
  tasks : List (Bool × Task σ)
  /-- What the scheduler itself logged. -/
  notes : List (Moment × Log.Event)

namespace Stage

variable {σ : Type}

def empty : Stage σ := ⟨.first, [], []⟩

def waitUntil (s : Stage σ) (time : Nat) : Stage σ :=
  { s with now := s.now.afterSleep (sleepTime (time - s.now.time)) }

def owned (s : Stage σ) : List (Task σ) := (s.tasks.filter (·.1)).map (·.2)

/-- The task that was started last on a flag of its own. -/
def solo? (s : Stage σ) : Option (Task σ) := (s.tasks.reverse.find? fun t => !t.1).map (·.2)

/-- The number of the scheduler's tasks, those that have ended included. Mirrors `task_count`. -/
def ownedCount (s : Stage σ) : Nat := s.owned.length

/-- Starts a task of the scheduler. -/
def spawn (s : Stage σ) (strategy : Strategy σ) (state : σ) (delay : Nat) : Stage σ :=
  { s with tasks := s.tasks ++ [(true, ⟨strategy, state, delay, s.now, .lowered⟩)] }

/-- Changes the flag of every task that belongs to the scheduler or that does not. -/
def touchFlags (s : Stage σ) (belongs : Bool) (f : StopFlag → StopFlag) : Stage σ :=
  { s with tasks := s.tasks.map fun (owned, t) =>
      (owned, if owned = belongs then { t with flag := f t.flag } else t) }

/-- The holder of the flag of tasks that are not the scheduler's goes away. -/
def abandon (s : Stage σ) : Stage σ := s.touchFlags false (·.abandon s.now)

/-- Starts a task on a flag of its own; the holder of the flag before goes away. Mirrors `spawn_sync_task`. -/
def startAlone (s : Stage σ) (strategy : Strategy σ) (state : σ) (delay : Nat) (initial : Bool) : Stage σ :=
  let s := s.abandon
  { s with tasks := s.tasks ++ [(false, ⟨strategy, state, delay, s.now, ⟨initial, [], none⟩⟩)] }

def hasEnded (s : Stage σ) (t : Task σ) : Bool := (t.end? s.now).any (· < s.now)

def soloEnded (s : Stage σ) : Bool := s.solo?.all s.hasEnded

/-- Sets the flag of the task that has one of its own; the result is whether the task still listens. -/
def setFlag (s : Stage σ) (raised : Bool) : Bool × Stage σ :=
  if s.soloEnded then (false, s) else (true, s.touchFlags false (·.set s.now raised))

/-- A task of the scheduler broke down. -/
def brokenDown : Log.Event := ⟨.error, "Sync task panicked", [("error", .str "task panicked")]⟩

/-- Waits for a task to end, `none` when it never does. Only a task that has not ended yet makes the
stage give way. A task that broke down is noted. -/
def await (s : Stage σ) (t : Task σ) : Option (Stage σ) := do
  let ended ← t.end? s.now.nextTurn
  let now := if ended < s.now then s.now else ended.nextTurn
  some { s with now, notes := s.notes ++ if t.crashes s.now.nextTurn then [(now, brokenDown)] else [] }

/-- Raises the flag of the scheduler's tasks and waits for one after the other. -/
def shutdown (s : Stage σ) : Option (Stage σ) :=
  let s := s.touchFlags true (·.set s.now true)
  s.owned.foldlM await s

/-- Puts an item behind those of its moment and before. -/
def insertTimed {α : Type} (x : Moment × α) : List (Moment × α) → List (Moment × α)
  | [] => [x]
  | y :: rest => if x.1 < y.1 then x :: y :: rest else y :: insertTimed x rest

/-- Items in order of their moments; of one moment, those that come first stay first. -/
def inOrder {α : Type} (xs : List (Moment × α)) : List (Moment × α) :=
  xs.foldl (fun acc x => insertTimed x acc) []

def log (s : Stage σ) : List Log.Event :=
  (inOrder (s.tasks.flatMap (fun t => t.2.log s.now) ++ s.notes)).map (·.2)

def metrics (s : Stage σ) : Telemetry.Metrics :=
  (inOrder (s.tasks.flatMap fun t => t.2.observations s.now)).map (·.2)

def marks (s : Stage σ) : List (String × List (Moment × Mark)) :=
  s.tasks.map fun t => (t.2.strategy.name, t.2.marks s.now)

end Stage

end HeaderRelay.Schedule
