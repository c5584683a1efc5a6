import HeaderRelay.Clock.Retry
import HeaderRelay.Program

/-!
# Running a program in time

A handler answers each call by a computation in time. Run against a handler under a policy, a program
makes its reads with deadlines and retries, its submissions once and with a deadline, and its direct
calls as they come. At most `followed` calls of one read are followed, because a peer that keeps asking for
pauses is asked for ever.
-/
namespace HeaderRelay

open Peer (Call)

/-- Who answers the calls. -/
abbrev Peer.Handler (σ : Type) := (c : Call) → Timed σ (Relayed c.Answer)

/-- A call made in one of the three ways. -/
def Mode.carry {σ α : Type} (followed : Nat) (policy : Policy) (call : Timed σ (Relayed α)) :
    Mode → Timed σ (Relayed α)
  | .read operation => policy.read followed operation call
  | .submit => policy.submit call
  | .direct => call

/-- Runs a program. -/
def Program.run {σ α : Type} (followed : Nat) (policy : Policy) (handler : Peer.Handler σ) :
    Program α → Timed σ α
  | .done a => pure a
  | .note e next => do
    Timed.note e
    next.run followed policy handler
  | .ask mode call next => do
    let r ← mode.carry followed policy (handler call)
    (next r).run followed policy handler

end HeaderRelay
