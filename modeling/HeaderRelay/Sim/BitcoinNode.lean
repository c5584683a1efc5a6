import HeaderRelay.Bitcoin.Merkle
import HeaderRelay.Peer

/-!
# A simulated Bitcoin node

A node that holds a tree of headers, of which the one added last is best. It serves headers by hash and
the transactions of blocks that have some; once stalled, it answers neither again.
-/
namespace HeaderRelay.Sim

open HeaderRelay.Bitcoin (Header headerLength)

/-- A number in four bytes, least significant first. -/
def fourBytes (n : UInt32) : Bytes :=
  [n.toUInt8, (n >>> 8).toUInt8, (n >>> 16).toUInt8, (n >>> 24).toUInt8]

/-- A header on top of `prev`. The salt takes the place of the nonce, so that headers with the same parent can
differ. Mirrors `btc_header`. -/
def makeHeader (prev merkleRoot : Hash) (salt : UInt32) : Header :=
  Header.ofBytes
    (fourBytes 1 ++ prev.bytes ++ merkleRoot.bytes ++ List.replicate 8 0 ++ fourBytes salt)
    (by simp [fourBytes, prev.length_eq, merkleRoot.length_eq, headerLength])

/-- A simulated Bitcoin node. Mirrors `MockBtcChain`. -/
structure BitcoinNode where
  /-- Headers with their heights, newest first. -/
  headers : List (Header × Nat)
  txids : List (Hash × List Hash)
  genesis : Hash
  best : Hash
  /-- How many headers were asked for. -/
  headerFetches : Nat
  stalled : Bool

namespace BitcoinNode

def genesisHeader : Header := makeHeader .zero .zero 0

def new : BitcoinNode where
  headers := [(genesisHeader, 0)]
  txids := []
  genesis := genesisHeader.hash
  best := genesisHeader.hash
  headerFetches := 0
  stalled := false

instance : Inhabited BitcoinNode := ⟨new⟩

def find? (n : BitcoinNode) (hash : Hash) : Option (Header × Nat) := n.headers.find? fun h => h.1.hash == hash

def add (n : BitcoinNode) (header : Header) (height : Nat) : BitcoinNode :=
  { n with headers := (header, height) :: n.headers, best := header.hash }

/-- Adds `count` headers on top of the header `prev` at `height`; the hashes are given oldest first. -/
def extendFrom : (count : Nat) → (prev : Hash) → (height : Nat) → (salt : UInt32) → BitcoinNode →
    List Hash × BitcoinNode
  | 0, prev, _, _, n => ([], { n with best := prev })
  | count + 1, prev, height, salt, n =>
    let header := makeHeader prev (.replicate (UInt8.ofNat (height + 1))) salt
    let (hashes, n) := extendFrom count header.hash (height + 1) salt (n.add header (height + 1))
    (header.hash :: hashes, n)

/-- Adds `count` headers on top of a known one and makes the last of them best. -/
def extend (n : BitcoinNode) (parent : Hash) (count : Nat) (salt : UInt32) : Option (List Hash × BitcoinNode) :=
  (n.find? parent).map fun (_, height) => extendFrom count parent height salt n

/-- Replaces the transactions of a block and leaves its header. Mirrors `set_txids`. -/
def setTxids (n : BitcoinNode) (block : Hash) (txids : List Hash) : BitcoinNode :=
  { n with txids := (block, txids) :: n.txids }

/-- Adds a block with transactions on top of a known header and makes it best. Mirrors `add_block_with_txs`. -/
def addBlock (n : BitcoinNode) (parent : Hash) (txids : List Hash) : Option (Hash × BitcoinNode) := do
  let (_, height) ← n.find? parent
  let root ← (Bitcoin.merkleRoot txids).toOption
  let header := makeHeader parent root 0
  some (header.hash, (n.add header (height + 1)).setTxids header.hash txids)

def stall (n : BitcoinNode) : BitcoinNode := { n with stalled := true }

/-- What is known, or the error for an unknown hash. -/
def known {α : Type} (hash : Hash) (a : Option α) : Relayed α :=
  match a with
  | some a => .ok a
  | none => .error (.headerNotFound hash.hex)

def serve (n : BitcoinNode) : (c : Peer.BitcoinNode) → Option (Relayed c.Answer) × BitcoinNode
  | .bestBlockHash => (some (.ok n.best), n)
  | .header hash =>
    if n.stalled then (none, n)
    else (some (known hash ((n.find? hash).map (·.1))), { n with headerFetches := n.headerFetches + 1 })
  | .headerHeight hash => (some (known hash ((n.find? hash).map (·.2))), n)
  | .blockTxids hash => (if n.stalled then none else some (known hash (n.txids.lookup hash)), n)

end BitcoinNode

end HeaderRelay.Sim
