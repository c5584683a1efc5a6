import HeaderRelay.Peer

/-!
# A simulated message channel

The channel answers a query by the reply set for its action, an execution by the next queued outcome or
with success, and a history request with the history it was told. Failures queued for queries come
before any reply.
-/
namespace HeaderRelay.Sim

inductive Reply where
  | answer (v : Json)
  | failure (e : RelayError)
  /-- By the height in the query: its decimal text is looked up, and other heights get a default. -/
  | byHeight (answers : List (String × Json)) (otherwise : Json)

/-- The decimal text of the height in a query's arguments. -/
def heightText (msg : Json) : String :=
  match msg with
  | .obj ((_, arguments) :: _) =>
    match arguments.get? "height" with
    | some (.num (.int n)) => toString n
    | _ => ""
  | _ => ""

/-- What a reply says to a query. -/
def Reply.to (msg : Json) : Reply → Relayed Json
  | .answer v => .ok v
  | .failure e => .error e
  | .byHeight answers otherwise => .ok ((answers.lookup (heightText msg)).getD otherwise)

/-- A simulated message channel. Mirrors `MockChannel`. -/
structure Messages where
  sender : String
  /-- Replies by action, the latest first. -/
  replies : List (String × Reply)
  queryFailures : List RelayError
  /-- Outcomes of the next executions. -/
  outcomes : List (Relayed Channel.Response)
  history : List Channel.Response
  /-- How many executions were sent. -/
  executions : Nat

namespace Messages

def new : Messages := ⟨"secret1relayer", [], [], [], [], 0⟩

instance : Inhabited Messages := ⟨new⟩

def answerQueries (m : Messages) (action : String) (reply : Reply) : Messages :=
  { m with replies := (action, reply) :: m.replies }

def failQueries (m : Messages) (n : Nat) (e : RelayError) : Messages :=
  { m with queryFailures := m.queryFailures ++ List.replicate n e }

def queueOutcomes (m : Messages) (rs : List (Relayed Channel.Response)) : Messages :=
  { m with outcomes := m.outcomes ++ rs }

def setHistory (m : Messages) (txs : List Channel.Response) : Messages := { m with history := txs }

def query (m : Messages) (msg : Json) : Relayed Json × Messages :=
  match m.queryFailures with
  | e :: rest => (.error e, { m with queryFailures := rest })
  | [] =>
    let action := (Channel.action? msg).getD ""
    match m.replies.lookup action with
    | some reply => (reply.to msg, m)
    | none => (.error (.invalidMessage ("no handler for " ++ action)), m)

def execute (m : Messages) (gas : Option Nat) : Relayed Channel.Response × Messages :=
  let m := { m with executions := m.executions + 1 }
  match m.outcomes with
  | r :: rest => (r, { m with outcomes := rest })
  | [] => (.ok ⟨s!"tx-{m.executions}", 0, "", gas.getD 200000, 100000⟩, m)

def serve (m : Messages) : (call : Peer.Messages) → Relayed call.Answer × Messages
  | .query _ msg => m.query msg
  | .execute _ _ gas => m.execute gas
  | .recent _ => (.ok m.history, m)

end Messages

end HeaderRelay.Sim
