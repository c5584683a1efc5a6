import HeaderRelay.Config.Environment
import HeaderRelay.Toml.Parser

/-!
# Configuration documents

A configuration is written in TOML, one table per section. Keys that are missing leave their defaults,
and keys that are not known are passed over. A section may also be written as an array of its settings
in order.
-/
namespace HeaderRelay.Config

def countBelow? (bits : Nat) : Toml → Option Nat
  | .int n => if 0 ≤ n ∧ n < twoPow bits then some n.toNat else none
  | _ => none

def count? : Toml → Option Nat := countBelow? 64

/-- The double nearest to an integer. -/
def floatOfInt (n : Int) : Float :=
  if n < 0 then -(UInt64.ofNat n.natAbs).toFloat else (UInt64.ofNat n.natAbs).toFloat

def number? : Toml → Option Double
  | .float d => some d
  | .int n => some (.ofFloat (floatOfInt n))
  | _ => none

/-- The values of a section's settings, in the order of their names; `none` for one that is missing. A
date in the place of a section sets nothing. -/
def settings? (names : List String) : Toml → Option (List (Option Toml))
  | .table fields => some (names.map fun name => fields.lookup name)
  | .array items => some ((List.range names.length).map fun i => items[i]?)
  | .moment _ => some (names.map fun _ => none)
  | _ => none

/-- A setting that is missing, or one that is read. -/
def setting {α : Type} (read : Toml → Option α) (otherwise : α) : Option Toml → Option α
  | none => some otherwise
  | some v => read v

def bitcoin? (v : Toml) : Option Sync.Bitcoin.Config := do
  let d := default.bitcoin
  match ← settings? ["batch_size", "max_walk_back", "gas_margin", "gas_limit"] v with
  | [batch, walk, margin, limit] =>
    some ⟨← setting count? d.batchSize batch, ← setting count? d.maxWalkBack walk,
      ← setting number? d.gasMargin margin, ← setting (fun v => (count? v).map some) d.gasLimit limit⟩
  | _ => none

def consensus? (v : Toml) : Option ConsensusConfig := do
  let d := default.consensus
  match ← settings? ["max_interval", "batch_size"] v with
  | [interval, batch] => some ⟨← setting count? d.maxInterval interval, ← setting count? d.batchSize batch⟩
  | _ => none

def contract? (v : Toml) : Option Channel.CallConfig := do
  let d := default.contract
  match ← settings? ["block_size", "min_padding_size", "call_timeout_ms", "query_max_attempts",
      "query_backoff_base_ms"] v with
  | [block, padding, timeout, attempts, backoff] =>
    some ⟨← setting count? d.blockSize block, ← setting count? d.minPadding padding,
      ← setting count? d.timeout timeout, ← setting (countBelow? 32) d.maxAttempts attempts,
      ← setting count? d.backoff backoff⟩
  | _ => none

def scheduler? (v : Toml) : Option Nat := do
  match ← settings? ["cycle_delay_ms"] v with
  | [delay] => setting count? default.cycleDelay delay
  | _ => none

def ofFields? (fields : List (String × Toml)) : Option Config := do
  return ⟨← setting bitcoin? default.bitcoin (fields.lookup "btc"),
    ← setting consensus? default.consensus (fields.lookup "consensus"),
    ← setting contract? default.contract (fields.lookup "contract"),
    ← setting scheduler? default.cycleDelay (fields.lookup "scheduler")⟩

/-- Reads and checks a document. Mirrors `from_toml_str`. -/
def ofText (text : String) : Except ConfigError Config :=
  match (Toml.ofText? text).bind ofFields? with
  | none => .error .malformed
  | some c =>
    match c.check with
    | .ok () => .ok c
    | .error e => .error (.invalid e)

/-- Reads the content of a file, which may not be there, and lets the environment override it. What the environment
sets is not checked again. -/
def load (file : Option ByteArray) (env : List (String × String)) : Except ConfigError Config := do
  match file.bind String.fromUTF8? with
  | none => throw .unreadable
  | some text =>
    let c ← ofText text
    match c.override env with
    | (.ok (), c) => return c
    | (.error e, _) => throw (.invalid e)

end HeaderRelay.Config
