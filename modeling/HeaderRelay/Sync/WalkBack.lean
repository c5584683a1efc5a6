import HeaderRelay.Bitcoin.Header

/-!
# Where a walk back ends

The Bitcoin engine follows parent links down from the node's best header until it meets the contract:
at the contract's best header, or at another header that the contract holds at the same height. The
headers on the way are collected newest first and submitted oldest first.
-/
namespace HeaderRelay.Sync

/-- Why a walk ended. Mirrors `WalkStop`. -/
inductive WalkEnd where
  /-- The contract holds the node's best header: nothing is missing. -/
  | alreadyHeld
  /-- The walk met the contract's best header: plain growth. -/
  | linearExtension
  /-- The walk met a header that the contract holds below its best: a fork. -/
  | forkConvergence
  deriving DecidableEq, Repr

def WalkEnd.name : WalkEnd → String
  | .alreadyHeld => "AlreadyHeld"
  | .linearExtension => "LinearExtension"
  | .forkConvergence => "ForkConvergence"

/-- Whether a walk ends at `candidate`, after `walked` headers. What the contract holds counts only up to its best
height. Mirrors `walk_stop`. -/
def walkEnd (candidate : Hash) (candidateHeight walked : Nat) (contractBest : Hash)
    (contractHeight : Nat) (contractAt : Option Hash) : Option WalkEnd :=
  if candidate = contractBest then some .linearExtension
  else if candidateHeight ≤ contractHeight ∧ contractAt = some candidate then
    some (if walked = 0 then .alreadyHeld else .forkConvergence)
  else none

/-- Headers collected on a walk back. Mirrors `HeaderArena`. -/
structure Trail (α : Type) where
  /-- The headers in the order in which they are submitted. -/
  oldestFirst : List α
  deriving DecidableEq

namespace Trail

variable {α : Type}

def empty : Trail α := ⟨[]⟩

def push (t : Trail α) (header : α) : Trail α := ⟨header :: t.oldestFirst⟩

def size (t : Trail α) : Nat := t.oldestFirst.length

def isEmpty (t : Trail α) : Bool := t.oldestFirst.isEmpty

@[simp] theorem size_empty : (empty : Trail α).size = 0 := rfl

@[simp] theorem size_push (t : Trail α) (h : α) : (t.push h).size = t.size + 1 := rfl

end Trail

/-- What the contract is missing: headers, oldest first, and the height of the header they build on. Mirrors
`HeaderDelta`. -/
structure Gap where
  tipHeight : Nat
  headers : List Bitcoin.Header
  deriving DecidableEq

def Gap.target (d : Gap) : Nat := d.tipHeight + d.headers.length

end HeaderRelay.Sync
