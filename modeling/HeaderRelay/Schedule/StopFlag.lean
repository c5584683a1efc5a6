import HeaderRelay.Schedule.Moment

/-!
# The stop flag

A task stops when its stop flag is raised or when whoever holds the flag goes away. The task looks at
the flag only between cycles, and its pause ends as soon as a value is set that it has not seen, be it
the value that was there before.
-/
namespace HeaderRelay.Schedule

/-- What happens to a stop flag while a task listens: the value it starts with, the values that are set
and when, earliest first, and when its holder goes away, after which no value is set. -/
structure StopFlag where
  initial : Bool
  sets : List (Moment × Bool)
  gone : Option Moment
  deriving DecidableEq, Repr

namespace StopFlag

def lowered : StopFlag := ⟨false, [], none⟩

def set (f : StopFlag) (now : Moment) (raised : Bool) : StopFlag :=
  if f.gone.isSome then f else { f with sets := f.sets ++ [(now, raised)] }

def abandon (f : StopFlag) (now : Moment) : StopFlag := { f with gone := some (f.gone.getD now) }

/-- How many values have been set by a moment. -/
def setsBy (f : StopFlag) (now : Moment) : Nat := (f.sets.takeWhile fun s => s.1 ≤ now).length

/-- The value at a moment. -/
def valueAt (f : StopFlag) (now : Moment) : Bool :=
  (((f.sets.takeWhile fun s => s.1 ≤ now).getLast?).map (·.2)).getD f.initial

/-- How a pause ends. -/
inductive Wake where
  /-- At a moment at which `seen` values have been seen. -/
  | resumed (now : Moment) (seen : Nat)
  /-- At a moment at which the holder was found to be gone. -/
  | orphaned (now : Moment)
  deriving DecidableEq, Repr

/-- A pause of at most `delay` milliseconds from `now` on, when `seen` values have been seen: it ends at
the first value after those, which is noticed before the holder's absence is. -/
def pause (f : StopFlag) (now : Moment) (delay seen : Nat) : Wake :=
  let due := now.afterSleep delay
  let noticed (at? : Option Moment) : Option Moment := (at?.map now.latest).filter (· ≤ due)
  match noticed (f.sets[seen]?.map (·.1)) with
  | some t => .resumed t (f.setsBy t)
  | none =>
    match noticed f.gone with
    | some t => .orphaned t
    | none => .resumed due seen

end StopFlag

end HeaderRelay.Schedule
