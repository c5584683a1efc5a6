import HeaderRelay.Clock.Timed

/-!
# Trying again

A read is tried again after a transient error, up to a number of attempts, with a pause that grows with
the square of the attempts that failed. A peer that asks for a pause gets exactly that pause, and it
costs no attempt. Nothing else is tried again, and submissions never are.
-/
namespace HeaderRelay

/-- The pause after the `attempt`-th failure, in milliseconds, kept within 64 bits. Mirrors `QuadraticBackoff`. -/
def pauseAfter (base attempt : Nat) : Nat := min (base * (attempt * attempt)) (twoPow 64 - 1)

/-- How calls are made: the deadline of an attempt and the base of the pauses, in milliseconds, and the number of
attempts of a read. Mirrors `ReadPolicy`. -/
structure Policy where
  timeout : Nat
  maxAttempts : Nat
  backoff : Nat
  deriving DecidableEq, Repr

def defaultBackoff : Nat := 500

namespace Retry

def pausing (operation : String) (seconds : Nat) : Log.Event :=
  ⟨.warn, "Rate limited, waiting before retry",
    [("operation", .str operation), ("retry_after_secs", .nat seconds)]⟩

def exhausted (operation : String) (attempts : Nat) (e : RelayError) : Log.Event :=
  ⟨.error, "Retries exhausted",
    [("operation", .str operation), ("attempts", .nat attempts), ("error", .str e.message)]⟩

def failed (operation : String) (attempt delay : Nat) (e : RelayError) : Log.Event :=
  ⟨.warn, "Query failed, retrying",
    [("operation", .str operation), ("attempt", .nat attempt), ("delay_ms", .nat delay),
      ("error", .str e.message)]⟩

variable {σ α : Type}

/-- Calls until an outcome is final; `failures` attempts have failed so far, and at most `fuel` calls
are followed. -/
def loop (operation : String) (maxAttempts : Nat) (delay : Nat → Nat) (call : Timed σ (Relayed α)) :
    (fuel : Nat) → (failures : Nat) → Timed σ (Relayed α)
  | 0, _ => Timed.unfollowed
  | fuel + 1, failures => do
    match ← call with
    | .ok a => return .ok a
    | .error (.rateLimited seconds) =>
      Timed.note (pausing operation seconds)
      Timed.countRetry
      Timed.sleep (seconds * 1000)
      loop operation maxAttempts delay call fuel failures
    | .error e =>
      if e.isTransient then
        let failures := failures + 1
        if maxAttempts ≤ failures then
          Timed.note (exhausted operation failures e)
          return .error e
        else
          Timed.note (failed operation failures (delay failures) e)
          Timed.countRetry
          Timed.sleep (delay failures)
          loop operation maxAttempts delay call fuel failures
      else return .error e

end Retry

variable {σ α : Type}

/-- Calls until the outcome is final, in at least one attempt. Mirrors `retry_with_backoff`. -/
def retry (followed : Nat) (operation : String) (maxAttempts : Nat) (delay : Nat → Nat)
    (call : Timed σ (Relayed α)) : Timed σ (Relayed α) :=
  Retry.loop operation (max 1 maxAttempts) delay call followed 0

namespace Policy

/-- A read: every attempt has the deadline, and transient errors are tried again. Mirrors `ReadPolicy.read`. -/
def read (p : Policy) (followed : Nat) (operation : String) (call : Timed σ (Relayed α)) :
    Timed σ (Relayed α) :=
  retry followed operation p.maxAttempts (pauseAfter p.backoff) (Timed.within p.timeout call)

/-- A submission: once, with the deadline. Mirrors `ReadPolicy.submit`. -/
def submit (p : Policy) (call : Timed σ (Relayed α)) : Timed σ (Relayed α) := Timed.within p.timeout call

end Policy

end HeaderRelay
