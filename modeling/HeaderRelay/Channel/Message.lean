import HeaderRelay.Json.Basic

/-!
# Messages on the contract channel

A message is a JSON object with one field, the action, whose value holds the arguments. An execution
is answered by the chain's response, a history request is narrowed by a filter.
-/
namespace HeaderRelay.Channel

/-- The chain's response to an execution. Mirrors `TxResponse`. -/
structure Response where
  txHash : String
  /-- Zero when the chain accepted the execution. -/
  code : Nat
  rawLog : String
  gasWanted : Nat
  gasUsed : Nat
  deriving DecidableEq, Repr, Inhabited

/-- Whether the chain accepted the execution. Mirrors `is_success`. -/
def Response.succeeded (r : Response) : Bool := r.code == 0

/-- The past executions of one action that one sender sent to one contract. Mirrors `TxFilter`. -/
structure Filter where
  contract : String
  sender : String
  action : String
  deriving DecidableEq, Repr

/-- The first key of a message. -/
def action? : Json → Option String
  | .obj ((k, _) :: _) => some k
  | _ => none

def message (action : String) (arguments : List (String × Json)) : Json :=
  .obj [(action, .obj arguments)]

end HeaderRelay.Channel
