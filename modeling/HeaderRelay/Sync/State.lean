/-!
# What a sync engine remembers

A report tells what one cycle did. A consensus engine keeps between cycles the best headers it has
seen on both sides, the headers selected but not yet committed, and two heights that only rise.
-/
namespace HeaderRelay.Sync

/-- What one cycle of an engine did. Mirrors `SyncReport`. -/
structure Report where
  engine : String
  /-- Headers or light blocks that the contract accepted. -/
  submitted : Nat
  batches : Nat
  checkedHeight : Nat
  deriving DecidableEq, Repr, Inhabited

def Report.idle (engine : String) (checkedHeight : Nat) : Report := ⟨engine, 0, 0, checkedHeight⟩

/-- What a consensus engine keeps between cycles. Mirrors `SyncState`. -/
structure State (α : Type) where
  /-- The highest network height examined so far. -/
  checkedHeight : Nat
  contractBest : Option α
  networkBest : Option α
  /-- The largest gap between submitted heights. -/
  maxInterval : Nat
  /-- Headers selected and not yet committed, oldest first. -/
  pending : List α
  /-- The height of the header queued last. -/
  lastSeenHeight : Nat
  deriving DecidableEq, Inhabited

namespace State

variable {α : Type}

def fresh (maxInterval : Nat) : State α := ⟨0, none, none, maxInterval, [], 0⟩

/-- Raises the checked height; a lower one is ignored. Mirrors `advance_checked`. -/
def raiseChecked (s : State α) (height : Nat) : State α :=
  { s with checkedHeight := max s.checkedHeight height }

@[simp] theorem checkedHeight_raiseChecked (s : State α) (height : Nat) :
    (s.raiseChecked height).checkedHeight = max s.checkedHeight height := rfl

theorem checkedHeight_le_raiseChecked (s : State α) (height : Nat) :
    s.checkedHeight ≤ (s.raiseChecked height).checkedHeight := Nat.le_max_left ..

end State

end HeaderRelay.Sync
