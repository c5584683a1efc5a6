import HeaderRelay.Channel.Padding
import HeaderRelay.Clock.Retry
import HeaderRelay.Program

/-!
# Calling a contract

Every message to a contract takes one path: it is padded, sent over the channel, and its answer is
decoded. A query is a read. An execution is sent once, and a response with a code other than zero is an
error that carries the message as it was before padding.
-/
namespace HeaderRelay.Channel

/-- How a contract is called. Mirrors `ContractCallConfig`. -/
structure CallConfig where
  blockSize : Nat
  minPadding : Nat
  timeout : Nat
  maxAttempts : Nat
  backoff : Nat
  deriving DecidableEq, Repr

/-- How calls are made under a configuration. Mirrors `from_config`. -/
def CallConfig.policy (c : CallConfig) : Policy := ⟨c.timeout, c.maxAttempts, c.backoff⟩

/-- A contract behind the channel. Mirrors `ContractClient`. -/
structure Client where
  address : String
  /-- Who signs executions. -/
  sender : String
  config : CallConfig

namespace Client

/-- A message as it is sent. -/
def pad (c : Client) (msg : Json) : Json := Channel.pad c.config.blockSize c.config.minPadding msg

/-- The action of a message; there is no message without one. Mirrors `action_of`. -/
def actionName (msg : Json) : Relayed String :=
  match action? msg with
  | some action => .ok action
  | none => .error (.invalidMessage
      ("expected \x7b\"action\": \x7b..\x7d\x7d, got " ++ msg.text))

/-- Runs a query and decodes its answer. The text about an answer that does not decode stops short: what the decoder
has to say of it would come after a colon, and belongs to a library. Mirrors `ContractClient.query`. -/
def query {α : Type} (c : Client) (msg : Json) (decode : Json → Option α) : Program (Relayed α) :=
  match actionName msg with
  | .error e => .done (.error e)
  | .ok action =>
    .ask (.read action) (.messages (.query c.address (c.pad msg))) fun
      | .error e => .done (.error e)
      | .ok answer =>
        match decode answer with
        | some a => .done (.ok a)
        | none => .done (.error (.serialization (action ++ " answer did not decode")))

def rejected (c : Client) (action : String) (r : Response) : Log.Event :=
  ⟨.warn, "Execution rejected",
    [("contract", .str c.address), ("action", .str action), ("code", .nat r.code), ("log", .str r.rawLog)]⟩

def accepted (c : Client) (action : String) (r : Response) : Log.Event :=
  ⟨.debug, "Execution accepted",
    [("contract", .str c.address), ("action", .str action), ("tx_hash", .str r.txHash),
      ("gas_used", .nat r.gasUsed)]⟩

/-- Sends an execution. Mirrors `ContractClient.execute`. -/
def execute (c : Client) (msg : Json) (gas : Option Nat) : Program (Relayed Response) :=
  match actionName msg with
  | .error e => .done (.error e)
  | .ok action =>
    .ask .submit (.messages (.execute c.address (c.pad msg) gas)) fun
      | .error e => .done (.error e)
      | .ok (r : Response) =>
        if r.succeeded then .note (c.accepted action r) (.done (.ok r))
        else .note (c.rejected action r) (.done (.error (.execution msg.text r.code r.rawLog)))

/-- The recent executions of an action that the sender sent to this contract. Mirrors `ContractClient.recent_txs`. -/
def recent (c : Client) (action : String) : Program (Relayed (List Response)) :=
  .ask (.read "recent_txs") (.messages (.recent ⟨c.address, c.sender, action⟩)) .done

end Client

end HeaderRelay.Channel
