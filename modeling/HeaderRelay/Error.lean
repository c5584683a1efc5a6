/-!
# Errors

Everything that can go wrong between the relayer and its peers, by cause. Each cause has one of five
kinds; only transient errors are ever tried again, and only on reads.
-/
namespace HeaderRelay

/-- The kinds of error. -/
inductive ErrorKind where
  /-- Local input is malformed. -/
  | validation
  /-- A leaf or a header that was asked for is absent. -/
  | notFound
  /-- The peer may answer when asked again. -/
  | transient
  /-- The chain rejected a call. -/
  | execution
  /-- Contract and chain could not be reconciled. -/
  | consistency
  deriving DecidableEq, Repr

def ErrorKind.name : ErrorKind → String
  | .validation => "Validation"
  | .notFound => "NotFound"
  | .transient => "Transient"
  | .execution => "Execution"
  | .consistency => "Consistency"

/-- What went wrong. Mirrors `RelayerError`. -/
inductive RelayError where
  | emptyLeafSet
  | indexOutOfRange (index total : Nat)
  /-- A Bitcoin proof has one sibling more than it has sides, the leaf being the first of them. -/
  | proofShapeMismatch (siblings sides : Nat)
  | invalidProof (reason : String)
  | invalidMessage (reason : String)
  | leafNotFound (leaf : String)
  | headerNotFound (header : String)
  | network (reason : String)
  /-- No answer within the deadline, in milliseconds. -/
  | timeout (ms : Nat)
  /-- The peer asks for a pause, in seconds. -/
  | rateLimited (seconds : Nat)
  /-- The chain answered a submission with a code other than zero. -/
  | execution (request : String) (code : Nat) (log : String)
  | forkUnresolved (walked bound : Nat)
  | inconsistent (reason : String)
  | serialization (reason : String)
  deriving DecidableEq, Repr, Inhabited

namespace RelayError

/-- The kind of an error. -/
def kind : RelayError → ErrorKind
  | .emptyLeafSet | .indexOutOfRange .. | .proofShapeMismatch .. | .invalidProof _
  | .invalidMessage _ | .serialization _ => .validation
  | .leafNotFound _ | .headerNotFound _ => .notFound
  | .network _ | .timeout _ | .rateLimited _ => .transient
  | .execution .. => .execution
  | .forkUnresolved .. | .inconsistent _ => .consistency

def name : RelayError → String
  | .emptyLeafSet => "EmptyLeafSet"
  | .indexOutOfRange .. => "IndexOutOfRange"
  | .proofShapeMismatch .. => "ProofShapeMismatch"
  | .invalidProof _ => "InvalidProof"
  | .invalidMessage _ => "InvalidMessage"
  | .leafNotFound _ => "LeafNotFound"
  | .headerNotFound _ => "HeaderNotFound"
  | .network _ => "Network"
  | .timeout _ => "Timeout"
  | .rateLimited _ => "RateLimited"
  | .execution .. => "Execution"
  | .forkUnresolved .. => "ForkUnresolved"
  | .inconsistent _ => "Inconsistent"
  | .serialization _ => "Serialization"

/-- Whether a read that failed so may be tried again. Mirrors `is_transient`. -/
def isTransient (e : RelayError) : Bool := e.kind == .transient

def message : RelayError → String
  | .emptyLeafSet => "Cannot build a merkle tree from an empty leaf set"
  | .indexOutOfRange index total => s!"Leaf index {index} out of range for {total} leaves"
  | .proofShapeMismatch siblings sides =>
    s!"Proof shape mismatch: {siblings} siblings vs {sides} prefix flags"
  | .invalidProof reason => "Invalid merkle proof: " ++ reason
  | .invalidMessage reason => "Invalid contract message: " ++ reason
  | .leafNotFound leaf => "Leaf not found: " ++ leaf
  | .headerNotFound header => "Header not found: " ++ header
  | .network reason => "Network error: " ++ reason
  | .timeout ms => s!"Call timed out after {ms} ms"
  | .rateLimited seconds => s!"Rate limited, retry after {seconds}s"
  | .execution _ code log => s!"Execution failed with code {code}: " ++ log
  | .forkUnresolved walked bound =>
    s!"Fork unresolved after walking back {walked} headers (bound {bound})"
  | .inconsistent reason => "Inconsistent state: " ++ reason
  | .serialization reason => "Serialization error: " ++ reason

@[simp] theorem isTransient_iff (e : RelayError) :
    e.isTransient = true ↔ (∃ s, e = .network s) ∨ (∃ n, e = .timeout n) ∨ ∃ n, e = .rateLimited n := by
  cases e <;> simp [isTransient, kind]

end RelayError

/-- A computation that may fail. -/
abbrev Relayed (α : Type) := Except RelayError α

end HeaderRelay
