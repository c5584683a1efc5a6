import HeaderRelay.Channel.Client
import HeaderRelay.Sync.Bitcoin

/-!
# Configuration

The settings of the sync engines, of the calls to contracts and of the scheduler. Every setting has a
default, and `Config.check` names the first setting with which the engines could not run.
-/
namespace HeaderRelay

/-- Settings of the consensus sync engines. Mirrors `ConsensusSyncConfig`. -/
structure ConsensusConfig where
  /-- The largest gap in height between two light blocks. -/
  maxInterval : Nat
  /-- Light blocks per batch. -/
  batchSize : Nat
  deriving DecidableEq, Repr

/-- All settings. -/
structure Config where
  bitcoin : Sync.Bitcoin.Config
  consensus : ConsensusConfig
  contract : Channel.CallConfig
  /-- The pause between two cycles, in milliseconds. -/
  cycleDelay : Nat
  deriving DecidableEq, Repr

/-- What is wrong with a setting. -/
inductive InvalidSetting where
  /-- A setting that must be positive is zero. -/
  | zero (key : String)
  /-- The gas margin is below one. -/
  | marginBelowOne
  /-- The least padding does not fit into a block. -/
  | paddingTooLarge (minPadding blockSize : Nat)
  /-- An environment variable holds no count. -/
  | badOverride (key value : String)
  deriving DecidableEq, Repr

/-- The fault in a reader's words. -/
def InvalidSetting.text : InvalidSetting → String
  | .zero key => key ++ " must be > 0"
  | .marginBelowOne => "btc.gas_margin must be >= 1.0"
  | .paddingTooLarge minPadding blockSize =>
    s!"contract.min_padding_size ({minPadding}) must be below block_size ({blockSize})"
  | .badOverride key value => key ++ "=" ++ value ++ " is not a millisecond count"

/-- Why there is no configuration. -/
inductive ConfigError where
  /-- The file cannot be read as text. -/
  | unreadable
  /-- The text is no configuration document. -/
  | malformed
  | invalid (setting : InvalidSetting)
  deriving DecidableEq, Repr

def InvalidSetting.message (e : InvalidSetting) : String := "Invalid config: " ++ e.text

namespace Config

def defaultMargin : Double := ⟨0x3ff3333333333333⟩

def default : Config where
  bitcoin := ⟨10, 1000, defaultMargin, none⟩
  consensus := ⟨100, 5⟩
  contract := ⟨256, 7, 30000, 5, 500⟩
  cycleDelay := 10000

instance : Inhabited Config := ⟨default⟩

/-- Settings for tests: small batches and short waits. Mirrors `for_testing`. -/
def brisk : Config where
  bitcoin := ⟨3, 50, defaultMargin, none⟩
  consensus := ⟨5, 2⟩
  contract := ⟨256, 7, 1000, 3, 10⟩
  cycleDelay := 100

/-- Refuses settings with which the engines cannot run; the first fault counts. A margin that is not a number is
let through. Mirrors `validate`. -/
def check (c : Config) : Except InvalidSetting Unit :=
  if c.bitcoin.batchSize = 0 then .error (.zero "btc.batch_size")
  else if c.bitcoin.gasMargin.toFloat < 1.0 then .error .marginBelowOne
  else if c.consensus.batchSize = 0 then .error (.zero "consensus.batch_size")
  else if c.consensus.maxInterval = 0 then .error (.zero "consensus.max_interval")
  else if c.contract.blockSize = 0 then .error (.zero "contract.block_size")
  else if c.contract.blockSize ≤ c.contract.minPadding then
    .error (.paddingTooLarge c.contract.minPadding c.contract.blockSize)
  else .ok ()

end Config

end HeaderRelay
