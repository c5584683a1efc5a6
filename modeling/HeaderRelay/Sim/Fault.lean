import HeaderRelay.Clock.Timed

/-!
# Faults

A fault says how one call departs from what its peer would do: it is never answered, it is answered
late, or it is answered by something else, in which case the peer does not see the call.
-/
namespace HeaderRelay.Sim

/-- How one call departs from what its peer would do. -/
structure Fault (α : Type) where
  /-- Whether the call is never answered. -/
  hangs : Bool
  /-- The wait before the answer, in milliseconds. -/
  delay : Nat
  /-- The answer, when it is not the peer's. -/
  answer : Option (Relayed α)

namespace Fault

variable {σ α : Type}

def none : Fault α := ⟨false, 0, .none⟩

/-- A call under a fault. -/
def apply (f : Fault α) (serve : Timed σ (Relayed α)) : Timed σ (Relayed α) :=
  if f.hangs then Timed.forever
  else do
    Timed.sleep f.delay
    match f.answer with
    | some r => return r
    | .none => serve

end Fault

/-- A peer with a single call: it answers as scripted, and by a fixed answer when the script is over.
The times of the calls are kept, latest first. -/
structure Scripted (α : Type) where
  script : List (Fault α)
  otherwise : α
  calls : List Nat

def Scripted.call {α : Type} : Timed (Scripted α) (Relayed α) := do
  let now ← Timed.now
  let fault ← Timed.onPeers fun p : Scripted α =>
    (p.script.headD .none, { p with script := p.script.tail, calls := now :: p.calls })
  let otherwise ← Timed.onPeers fun p : Scripted α => (p.otherwise, p)
  fault.apply (return .ok otherwise)

end HeaderRelay.Sim
