import HeaderRelay.Sync.LightBlock
import HeaderRelay.Sync.Machine
import HeaderRelay.Sync.Selection
import HeaderRelay.Sync.State
import HeaderRelay.Text.Hex

/-!
# Batched consensus sync

Queues the selected consensus headers across cycles and flushes them in batches of a fixed size: the
light client verifies a batch against the last attested header and answers with a chain of hashes, which
is appended to the relay contract. What the relay holds is the truth: headers queued at or below its
best height are dropped when a cycle starts, so that a relay advanced by someone else, or by a flush
whose answer was lost, is taken up without submitting anything twice.
-/
namespace HeaderRelay.Sync.Batched

open Consensus (Header LightBlock ChainEntry)

def engine : String := "consensus-batched"

/-- The engine's cycles, over a state of consensus headers. -/
abbrev Step := Cycle (State Header)

/-- The header of the relay's best entry. It is read from the node only when its height is not the one that the
engine remembers. Mirrors `refresh_relay_best`. -/
def storedHeader : Step Header := do
  let height : Nat ← Cycle.read "relay.best_height" (.relayStore .bestHeight)
  match (← get).contractBest.filter fun known => known.height = height with
  | some known => return known
  | none =>
    let hash : Hash ← Cycle.read "relay.best_hash" (.relayStore .bestHash)
    let header ← readHeader height
    if header.hash ≠ hash then
      throw (.inconsistent s!"relay holds {hash.hex} at height {height}, node has {header.hash.hex}")
    modify fun s => { s with contractBest := some header }
    return header

/-- Drops queued headers at or below the relay's best height. Mirrors `prune_committed`. -/
def dropStored (relayHeight : Nat) : Step Unit := do
  let pending := (← get).pending
  let kept := pending.dropWhile fun h => h.height ≤ relayHeight
  modify fun s => { s with pending := kept }
  if kept.length < pending.length then
    Cycle.log (Log.ofEngine engine .warn "Relay advanced past queued headers"
      [("dropped", .nat (pending.length - kept.length)), ("relay_height", .nat relayHeight)])

def readHeaders : (count : Nat) → (height : Nat) → Step (List Header)
  | 0, _ => return []
  | count + 1, height => do
    let header ← readHeader height
    return header :: (← readHeaders count (height + 1))

/-- Puts headers at the end of the queue. -/
def enqueue : List Header → Step Unit
  | [] => return ()
  | h :: rest => do
    Cycle.log (Log.ofEngine engine .debug "Header queued" [("height", .nat h.height)])
    modify fun s => { s with lastSeenHeight := h.height, pending := s.pending ++ [h] }
    enqueue rest

/-! ## Flushing -/

def chainRejected (first last : Header) (e : RelayError) : Log.Event :=
  Log.ofHeader engine .error "Hash chain rejected" last.height last.hash.hex
    [("from", .nat first.height), ("error", .str e.message)]

def chainAppended (first last : Header) (chain : List ChainEntry) : Log.Event :=
  Log.ofHeader engine .info "Hash chain appended" last.height last.hash.hex
    [("from", .nat first.height), ("entries", .nat chain.length)]

def lightBlocksOf : List Header → Step (List LightBlock)
  | [] => return []
  | h :: rest => do
    let block ← lightBlockOf h
    return block :: (← lightBlocksOf rest)

/-- Flushes the first `batchSize` headers of the queue, which follow `prev`; the result is the last of them.
Mirrors `flush_batch`. -/
def sendBatch (batchSize : Nat) (prev : Header) : Step Header := do
  let batch := (← get).pending.take batchSize
  let blocks ← lightBlocksOf batch
  let chain : List ChainEntry ←
    Cycle.read "consensus_lc.verify_light_blocks" (.consensusClient (.verifyLightBlocks prev blocks))
  match batch.head?, batch.getLast? with
  | some first, some last =>
    if chain.getLast? ≠ some last.entry then
      throw (.inconsistent s!"verified chain does not end at height {last.height}")
    match ← Cycle.outcome .submit (.relayStore (.submitHashChain chain)) with
    | .error e =>
      Cycle.log (chainRejected first last e)
      throw e
    | .ok _ =>
      Cycle.log (chainAppended first last chain)
      modify fun s => { s with pending := s.pending.drop batch.length }
      return last
  | _, _ => throw (.inconsistent "empty batch")

/-- Flushes `count` batches, the first after `prev`. -/
def sendBatches (batchSize : Nat) : (count : Nat) → (prev : Header) → Report → Step Report
  | 0, _, report => return report
  | count + 1, prev, report => do
    let before := (← get).pending.length
    let tip ← sendBatch batchSize prev
    let after := (← get).pending.length
    modify fun s => { s with contractBest := some tip }
    sendBatches batchSize count tip
      { report with submitted := report.submitted + (before - after), batches := report.batches + 1 }

/-! ## Cycles -/

/-- Reads where the relay and the network are, drops what the relay holds by now, and goes on with that and with what
the engine remembers. -/
def survey {α : Type} (next : (relayBest : Header) → (networkHeight : Nat) → State Header → Step α) : Step α := do
  let relayBest ← storedHeader
  dropStored relayBest.height
  let networkHeight : Nat ← Cycle.read "consensus.latest_height" (.consensusNode .latestHeight)
  let networkBest ← readHeader networkHeight
  modify fun s => { s with networkBest := some networkBest }
  next relayBest networkHeight (← get)

/-- The height up to which there is nothing to read. -/
def doneHeight (s : State Header) (relayBest : Header) : Nat :=
  max (max s.checkedHeight relayBest.height) s.lastSeenHeight

def cycleStarted (start networkHeight : Nat) (relayBest : Header) (s : State Header) : Log.Event :=
  Log.ofEngine engine .info "Sync cycle started"
    [("from", .nat start), ("network_height", .nat networkHeight),
      ("relay_height", .nat relayBest.height), ("queued", .nat s.pending.length)]

/-- The rest of a cycle, which reads the headers from `start` on. -/
def syncFrom (batchSize start : Nat) (relayBest : Header) (networkHeight : Nat) (s : State Header) : Step Report := do
  let examined ← readHeaders (networkHeight - start) start
  enqueue (dueHeaders s.maxInterval examined (s.pending.getLast?.getD relayBest))
  modify fun s => s.raiseChecked networkHeight
  let s ← get
  let report ← sendBatches batchSize (s.pending.length / batchSize) relayBest
    (Report.idle engine s.checkedHeight)
  let queued := (← get).pending.length
  Cycle.log (Log.ofEngine engine .info "Sync cycle finished"
    [("submitted", .nat report.submitted), ("queued", .nat queued)])
  return report

/-- One cycle, in batches of at least one header, where there is room for everything. Mirrors `sync_once`. -/
def runCycle (batchSize : Nat) : Step Report :=
  survey fun relayBest networkHeight s => do
    let start := doneHeight s relayBest + 1
    Cycle.log (cycleStarted start networkHeight relayBest s)
    syncFrom (max 1 batchSize) start relayBest networkHeight s

/-- One cycle on a machine, which is asked for room for all headers up to the network's before the first of them is
read, as `sync_once` does; `none` if the cycle breaks down. -/
def runCycleOn (machine : Machine) (batchSize : Nat) : Step (Option Report) :=
  survey fun relayBest networkHeight s =>
    match machine.above (doneHeight s relayBest) with
    | none => return none
    | some start => do
      Cycle.log (cycleStarted start networkHeight relayBest s)
      if machine.room < networkHeight - start then return none
      else return some (← syncFrom (max 1 batchSize) start relayBest networkHeight s)

end HeaderRelay.Sync.Batched
