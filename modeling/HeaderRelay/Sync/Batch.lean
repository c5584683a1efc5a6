import HeaderRelay.Error

/-!
# Batches and their gas

Headers are submitted in batches of a fixed size, each at the height that the batches before it have
brought the contract to. The gas of a batch is a margin over what the last submission used.
-/
namespace HeaderRelay.Sync

/-- The headers of one submission and the height of the header they build on. Mirrors `HeaderBatch`. -/
structure Batch (α : Type) where
  tipHeight : Nat
  headers : List α
  deriving DecidableEq, Repr

/-- A batch holds at least one header. Mirrors `invariant_batch_size`. -/
def checkBatchSize (size : Nat) : Relayed Unit :=
  if size = 0 then .error (.invalidMessage "batch size must be positive") else .ok ()

/-- The headers cut into runs of `size`, at most `fuel` of them. -/
def batchesFrom {α : Type} (size : Nat) : (fuel : Nat) → (headers : List α) → (tipHeight : Nat) → List (Batch α)
  | 0, _, _ => []
  | fuel + 1, headers, tipHeight =>
    if headers.isEmpty then []
    else
      let chunk := headers.take size
      ⟨tipHeight, chunk⟩ :: batchesFrom size fuel (headers.drop size) (tipHeight + chunk.length)

/-- The batches of `headers`, the first at `tipHeight`. Mirrors `plan_batches`. -/
def batchesOf {α : Type} (headers : List α) (tipHeight size : Nat) : Relayed (List (Batch α)) := do
  checkBatchSize size
  return batchesFrom size headers.length headers tipHeight

/-- The gas for the next submission: what the last one used times the margin, rounded up, and kept within 64 bits.
Mirrors `estimate_gas`. -/
def gasWithMargin (used : Option Nat) (margin : Float) : Option Nat :=
  used.map fun n => ((UInt64.ofNat n).toFloat * margin).ceil.toUInt64.toNat

end HeaderRelay.Sync
