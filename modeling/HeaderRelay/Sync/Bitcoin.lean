import HeaderRelay.Bitcoin.Display
import HeaderRelay.Double
import HeaderRelay.Program
import HeaderRelay.Sync.Batch
import HeaderRelay.Sync.State
import HeaderRelay.Sync.WalkBack

/-!
# Bitcoin header sync

Keeps the Bitcoin light-client contract at the node's best header. A cycle reads the best header of
both, walks back from the node's best until it meets what the contract holds, and submits the headers
on the way, oldest first, in batches. The first batch that fails ends the cycle; the batches before it
stay with the contract, and the next cycle starts from there.
-/
namespace HeaderRelay.Sync.Bitcoin

open HeaderRelay.Bitcoin (Header)

def engine : String := "btc-headers"

/-- The settings of the engine. Mirrors `BtcSyncConfig`. -/
structure Config where
  /-- Headers per submission. -/
  batchSize : Nat
  /-- How many headers a walk may collect. -/
  maxWalkBack : Nat
  /-- The factor on the gas of the submission before. -/
  gasMargin : Double
  /-- Gas for every submission, instead of an estimate. -/
  gasLimit : Option Nat
  deriving DecidableEq, Repr

/-- What the engine keeps between cycles: the height it has brought the contract to. Mirrors `BtcHeaderSync`. -/
structure State where
  checkedHeight : Nat
  deriving DecidableEq, Inhabited

variable {σ : Type}

/-! ## The walk -/

def converged (stop : WalkEnd) (walked tipHeight : Nat) : Log.Event :=
  Log.ofEngine engine .debug "Walk-back converged"
    [("stop", .str stop.name), ("walked", .nat walked), ("tip_height", .nat tipHeight)]

/-- Nothing is missing although the best headers differ. -/
def alreadyHeld (chainHeight contractHeight : Nat) : Log.Event :=
  Log.ofEngine engine .debug "Contract already holds chain best"
    [("chain_height", .nat chainHeight), ("contract_height", .nat contractHeight)]

/-- What a walk knows of both sides when it starts. -/
structure Ends where
  contractBest : Hash
  contractHeight : Nat
  chainHeight : Nat
  maxWalkBack : Nat

/-- What the contract holds at a height; above its best height it is not asked. -/
def contractAt (ends : Ends) (height : Nat) : Cycle σ (Option Hash) :=
  if height ≤ ends.contractHeight then
    Cycle.read "btc_lc.header_hash_at" (.bitcoinClient (.headerHashAt height))
  else pure none

/-- Walks on from `cursor`, which the links put at `height`. Mirrors the loop of `compute_delta`. -/
def walk (ends : Ends) : (height : Nat) → (cursor : Hash) → (trail : Trail Header) →
    Cycle σ (Option Gap)
  | height, cursor, trail => do
    let held ← contractAt ends height
    match walkEnd cursor height trail.size ends.contractBest ends.contractHeight held with
    | some .alreadyHeld =>
      Cycle.log (alreadyHeld ends.chainHeight ends.contractHeight)
      return none
    | some stop =>
      Cycle.log (converged stop trail.size height)
      return some ⟨height, trail.oldestFirst⟩
    | none =>
      if ends.maxWalkBack ≤ trail.size then throw (.forkUnresolved trail.size ends.maxWalkBack)
      let header : Header ← Cycle.read "btc.header" (.bitcoinNode (.header cursor))
      match height with
      | 0 => throw (.inconsistent s!"walked past genesis from height {ends.chainHeight}")
      | below + 1 => walk ends below header.prevHash (trail.push header)

/-- What the contract is missing; `none` when it is nothing. Mirrors `compute_delta`. -/
def findGap (config : Config) : Cycle σ (Option Gap) := do
  let contractBest : Hash ← Cycle.read "btc_lc.best_header_hash" (.bitcoinClient .bestHeaderHash)
  let contractHeight : Nat ← Cycle.read "btc_lc.best_height" (.bitcoinClient .bestHeight)
  let chainBest : Hash ← Cycle.read "btc.best_block_hash" (.bitcoinNode .bestBlockHash)
  if chainBest = contractBest then return none
  let chainHeight : Nat ← Cycle.read "btc.header_height" (.bitcoinNode (.headerHeight chainBest))
  walk ⟨contractBest, contractHeight, chainHeight, config.maxWalkBack⟩ chainHeight chainBest .empty

/-! ## Submissions -/

/-- The gas of the first batch: the fixed one, or an estimate from the last submission on record. A history that
cannot be had is no reason to stop. Mirrors `initial_gas`. -/
def firstGas (config : Config) : Cycle σ (Option Nat) := do
  if config.gasLimit.isSome then return config.gasLimit
  match ← Cycle.outcome .direct (.bitcoinClient .lastSubmissionGas) with
  | .ok (used : Option Nat) => return gasWithMargin used config.gasMargin.toFloat
  | .error e =>
    Cycle.log (Log.ofEngine engine .warn "No gas history, submitting unestimated" [("error", .str e.message)])
    return none

def gasAfter (config : Config) (gas : Option Nat) (used : Nat) : Option Nat :=
  if config.gasLimit.isNone then gasWithMargin (some used) config.gasMargin.toFloat else gas

def firstDisplay (b : Batch Header) : String := (b.headers.head?.map fun h => h.hash.display).getD ""

def batchRejected (b : Batch Header) (e : RelayError) : Log.Event :=
  Log.ofHeader engine .error "Header batch rejected" b.tipHeight (firstDisplay b)
    [("count", .nat b.headers.length), ("error", .str e.message)]

def batchSubmitted (b : Batch Header) (r : Channel.Response) : Log.Event :=
  Log.ofHeader engine .info "Header batch submitted" b.tipHeight (firstDisplay b)
    [("count", .nat b.headers.length), ("gas_used", .nat r.gasUsed)]

/-- Submits batches one after the other and counts them into the report. -/
def submitAll (config : Config) : List (Batch Header) → (gas : Option Nat) → Report → Cycle σ Report
  | [], _, report => return report
  | b :: rest, gas, report => do
    match ← Cycle.outcome .submit (.bitcoinClient (.submitHeaders b.tipHeight b.headers gas)) with
    | .error e =>
      Cycle.log (batchRejected b e)
      throw e
    | .ok (r : Channel.Response) =>
      Cycle.log (batchSubmitted b r)
      submitAll config rest (gasAfter config gas r.gasUsed)
        { report with submitted := report.submitted + b.headers.length, batches := report.batches + 1 }

/-- One cycle. Mirrors `sync_once`. -/
def runCycle (config : Config) : Cycle State Report := do
  Cycle.log (Log.ofEngine engine .info "Sync cycle started" [])
  match ← findGap config with
  | none =>
    Cycle.log (Log.ofEngine engine .info "Contract already at chain best" [])
    return Report.idle engine (← get).checkedHeight
  | some delta =>
    let batches ← Cycle.ofRelayed (batchesOf delta.headers delta.tipHeight config.batchSize)
    let gas ← firstGas config
    let report ← submitAll config batches gas (Report.idle engine (← get).checkedHeight)
    set (State.mk delta.target)
    Cycle.log (Log.ofEngine engine .info "Sync cycle finished"
      [("submitted", .nat report.submitted), ("batches", .nat report.batches), ("height", .nat delta.target)])
    return { report with checkedHeight := delta.target }

end HeaderRelay.Sync.Bitcoin
