import HeaderRelay.Sync.LightBlock
import HeaderRelay.Sync.Machine
import HeaderRelay.Sync.Selection
import HeaderRelay.Sync.State
import HeaderRelay.Text.Hex

/-!
# Sequential consensus sync

Submits the selected consensus headers to the light client one light block at a time. A cycle resolves
the header that the contract trusts, examines the heights above it and above those examined before, up
to and without the node's latest, and submits each header that the rule selects before it looks at the
next. The latest header waits for the next cycle, because its commit is in the block after it.
-/
namespace HeaderRelay.Sync.Sequential

open Consensus (Header)

def engine : String := "consensus-sequential"

/-- The engine's cycles, over a state of consensus headers. -/
abbrev Step := Cycle (State Header)

/-- The header that the contract trusts. It is read from the node only when it is not the one that the engine
remembers. Mirrors `refresh_contract_best`. -/
def trustedHeader : Step Header := do
  let hash : Hash ← Cycle.read "consensus_lc.best_committed_hash" (.consensusClient .bestCommittedHash)
  let height : Nat ← Cycle.read "consensus_lc.current_height" (.consensusClient .currentHeight)
  match (← get).contractBest.filter fun known => known.hash = hash ∧ known.height = height with
  | some known => return known
  | none =>
    let header : Header ← Cycle.read "consensus.header_by_hash" (.consensusNode (.headerByHash hash))
    if header.height ≠ height then
      throw (.inconsistent
        s!"contract trusts {hash.hex} at height {height}, node has it at {header.height}")
    modify fun s => { s with contractBest := some header }
    return header

def blockSubmitted (header : Header) (height : Nat) (r : Channel.Response) : Log.Event :=
  Log.ofHeader engine .info "Light block submitted" height header.hash.hex [("gas_used", .nat r.gasUsed)]

/-- Submits a header that follows `last`. -/
def submitHeader (height : Nat) (header last : Header) : Step Unit := do
  let block ← lightBlockOf header
  let response : Channel.Response ←
    Cycle.call .submit (.consensusClient (.submitLightBlocks last [block]))
  Cycle.log (blockSubmitted header height response)
  modify fun s => { s with contractBest := some header }

/-- Examines `count` heights from `height` on. -/
def examine : (count : Nat) → (height : Nat) → (last : Header) → Report → Step Report
  | 0, _, _, report => return report
  | count + 1, height, last, report => do
    let header ← readHeader height
    if isDue header last (← get).maxInterval then
      submitHeader height header last
      examine count (height + 1) header
        { report with submitted := report.submitted + 1, batches := report.batches + 1 }
    else examine count (height + 1) last report

/-- Reads what the contract trusts and how far the network is, and goes on with that and with the height examined so
far. -/
def survey {α : Type} (next : (last : Header) → (networkHeight checked : Nat) → Step α) : Step α := do
  let last ← trustedHeader
  let networkHeight : Nat ← Cycle.read "consensus.latest_height" (.consensusNode .latestHeight)
  let networkBest ← readHeader networkHeight
  modify fun s => { s with networkBest := some networkBest }
  next last networkHeight (← get).checkedHeight

/-- The rest of a cycle, which examines the heights from `start` on. -/
def syncFrom (start : Nat) (last : Header) (networkHeight checked : Nat) : Step Report := do
  Cycle.log (Log.ofEngine engine .info "Sync cycle started"
    [("from", .nat start), ("network_height", .nat networkHeight), ("contract_height", .nat last.height)])
  let report ← examine (networkHeight - start) start last (Report.idle engine checked)
  modify fun s => s.raiseChecked networkHeight
  let checked := (← get).checkedHeight
  Cycle.log (Log.ofEngine engine .debug "Checked height advanced" [("checked_height", .nat checked)])
  Cycle.log (Log.ofEngine engine .info "Sync cycle finished" [("submitted", .nat report.submitted)])
  return { report with checkedHeight := checked }

/-- One cycle, where all heights fit. Mirrors `sync_once`. -/
def runCycle : Step Report :=
  survey fun last networkHeight checked => syncFrom (max checked last.height + 1) last networkHeight checked

/-- One cycle on a machine; `none` if it breaks down. -/
def runCycleOn (machine : Machine) : Step (Option Report) :=
  survey fun last networkHeight checked =>
    match machine.above (max checked last.height) with
    | none => return none
    | some start => do
      return some (← syncFrom start last networkHeight checked)

end HeaderRelay.Sync.Sequential
