import HeaderRelay.Peer

/-!
# A simulated store of attested hashes

The contract holds a chain of entries and takes a further chain whose first entry lies above its last
one.
-/
namespace HeaderRelay.Sim

open Consensus (ChainEntry)

/-- A simulated contract that stores attested hashes. Mirrors `MockRelayContract`. -/
structure RelayStore where
  /-- The entry stored last. -/
  best : ChainEntry
  /-- The entries before it, newest first. -/
  older : List ChainEntry
  /-- The heights of every chain that was taken. -/
  submissions : List (List Nat)
  deriving Inhabited

namespace RelayStore

def holding (entry : ChainEntry) : RelayStore := ⟨entry, [], []⟩

def entries (s : RelayStore) : List ChainEntry := (s.best :: s.older).reverse

/-- Stores one more entry. Mirrors `advance_externally`. -/
def push (s : RelayStore) (entry : ChainEntry) : RelayStore :=
  { s with best := entry, older := s.best :: s.older }

/-- Takes a chain or refuses it as stale. Mirrors `submit_hash_chain`. -/
def submit (s : RelayStore) (chain : List ChainEntry) : Relayed Channel.Response × RelayStore :=
  match chain.head? with
  | none => (.error (.execution "append_hash_chain" 9 "stale hash chain"), s)
  | some first =>
    if first.height ≤ s.best.height then
      (.error (.execution "append_hash_chain" 9 "stale hash chain"), s)
    else
      let s := chain.foldl push s
      (.ok ⟨"", 0, "", 0, 0⟩, { s with submissions := s.submissions ++ [chain.map (·.height)] })

def serve (s : RelayStore) : (call : Peer.RelayStore) → Relayed call.Answer × RelayStore
  | .bestHeight => (.ok s.best.height, s)
  | .bestHash => (.ok s.best.hash, s)
  | .submitHashChain chain => s.submit chain

end RelayStore

end HeaderRelay.Sim
