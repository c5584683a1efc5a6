import HeaderRelay.Error
import HeaderRelay.Log

/-!
# Computations in time

A `Timed` computation runs on a clock in milliseconds that moves only when it waits. It is handed the
deadline under which it runs, if there is one, and is cut off when it would wait beyond: what it did up
to the deadline stays, the rest never happens. A wait that ends exactly at the deadline is still in
time. `Timed.within` sets a deadline of its own and turns being cut off by it into an error. A sleep
never lasts longer than thirty years, whatever was asked for; a deadline may be as late as it likes.
-/
namespace HeaderRelay

/-- The longest sleep in milliseconds: thirty years of 365 days. -/
def longestSleep : Nat := 30 * 365 * 24 * 60 * 60 * 1000

/-- How long a sleep lasts that is meant to last `ms` milliseconds. -/
def sleepTime (ms : Nat) : Nat := min ms longestSleep

theorem sleepTime_of_le {ms : Nat} (h : ms ≤ longestSleep) : sleepTime ms = ms := Nat.min_eq_left h

/-- Where a computation runs: the clock, the log (newest event first), the number of reads tried again
so far, and the peers. -/
structure World (σ : Type) where
  now : Nat
  log : List Log.Event
  retries : Nat
  peers : σ

def World.start {σ : Type} (peers : σ) : World σ := ⟨0, [], 0, peers⟩

/-- How a run ended. -/
inductive Outcome (α : Type) where
  | done (a : α)
  /-- It was cut off at its deadline; without a deadline, it waits for ever. -/
  | unanswered
  /-- It was not followed to its end. -/
  | unfollowed
  deriving DecidableEq, Repr

/-- A computation in time. -/
def Timed (σ α : Type) : Type := (deadline : Option Nat) → World σ → Outcome α × World σ

namespace Timed

variable {σ α β : Type}

def andThen (x : Timed σ α) (f : α → Timed σ β) : Timed σ β := fun deadline w =>
  match x deadline w with
  | (.done a, w) => f a deadline w
  | (.unanswered, w) => (.unanswered, w)
  | (.unfollowed, w) => (.unfollowed, w)

instance : Monad (Timed σ) where
  pure a := fun _ w => (.done a, w)
  bind := andThen

def now : Timed σ Nat := fun _ w => (.done w.now, w)

/-- A step of the peers, which takes no time. -/
def onPeers (f : σ → α × σ) : Timed σ α := fun _ w =>
  let (a, peers) := f w.peers
  (.done a, { w with peers })

def note (e : Log.Event) : Timed σ Unit := fun _ w => (.done (), { w with log := e :: w.log })

def countRetry : Timed σ Unit := fun _ w => (.done (), { w with retries := w.retries + 1 })

def sleep (ms : Nat) : Timed σ Unit := fun deadline w =>
  let wakes := w.now + sleepTime ms
  match deadline with
  | none => (.done (), { w with now := wakes })
  | some d => if wakes ≤ d then (.done (), { w with now := wakes }) else (.unanswered, { w with now := d })

def forever : Timed σ α := fun deadline w =>
  match deadline with
  | none => (.unanswered, w)
  | some d => (.unanswered, { w with now := d })

/-- Gives up following the run. -/
def unfollowed : Timed σ α := fun _ w => (.unfollowed, w)

/-- Runs under a deadline of its own, `limit` milliseconds from now. When a deadline from outside comes earlier,
that one counts. Mirrors `with_timeout`. -/
def within (limit : Nat) (x : Timed σ (Relayed α)) : Timed σ (Relayed α) := fun deadline w =>
  let own := w.now + limit
  if deadline.any (· < own) then x deadline w
  else
    match x (some own) w with
    | (.unanswered, w) => (.done (.error (.timeout limit)), { w with now := own })
    | r => r

end Timed

end HeaderRelay
