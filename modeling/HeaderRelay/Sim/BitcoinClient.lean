import HeaderRelay.Peer

/-!
# A simulated Bitcoin light-client contract

The contract holds one hash per height of its best chain. A submission names the height it builds on;
if each of its headers links to the one before, everything above that height is replaced by it.
-/
namespace HeaderRelay.Sim

open HeaderRelay.Bitcoin (Header)

/-- A submission as it was called. Mirrors `BtcSubmission`. -/
structure BitcoinSubmission where
  tipHeight : Nat
  hashes : List Hash
  gas : Option Nat
  deriving DecidableEq

/-- A simulated light-client contract for Bitcoin headers. Mirrors `MockBtcLightClient`. -/
structure BitcoinClient where
  /-- The hashes held, by height, highest first. -/
  entries : List (Nat × Hash)
  /-- All submissions, taken or not, oldest first. -/
  submissions : List BitcoinSubmission
  lastGas : Option Nat
  /-- The number of the submission that is refused, from zero. -/
  refused : Option Nat

namespace BitcoinClient

def baseGas : Nat := 150000

/-- A contract that holds `hashes`, the first at `start`. Mirrors `with_chain`. -/
def holding (start : Nat) (hashes : List Hash) : BitcoinClient where
  entries := ((List.range' start hashes.length).zip hashes).reverse
  submissions := []
  lastGas := none
  refused := none

instance : Inhabited BitcoinClient := ⟨holding 0 []⟩

/-- The best height and hash; a contract that holds nothing is at zero. -/
def tip (c : BitcoinClient) : Nat × Hash := c.entries.head?.getD (0, Hash.zero)

/-- The hash held at a height. -/
def heldAt (c : BitcoinClient) (height : Nat) : Option Hash := c.entries.lookup height

/-- Whether headers link one to the next, the first to `parent`. -/
def links : (parent : Option Hash) → List Header → Bool
  | _, [] => true
  | parent, h :: rest => parent == some h.prevHash && links (some h.hash) rest

/-- The headers' hashes with their heights above `tipHeight`, highest first. -/
def above (tipHeight : Nat) (headers : List Header) : List (Nat × Hash) :=
  ((List.range' (tipHeight + 1) headers.length).zip (headers.map (·.hash))).reverse

/-- Replaces what is above `tipHeight`. -/
def replaceAbove (c : BitcoinClient) (tipHeight : Nat) (headers : List Header) : BitcoinClient :=
  { c with entries := above tipHeight headers ++ c.entries.filter fun e => e.1 ≤ tipHeight }

def refusal (tipHeight code : Nat) (log : String) : RelayError :=
  .execution s!"submit_headers@{tipHeight}" code log

/-- Takes or refuses a submission. Mirrors `submit_headers`. -/
def submit (c : BitcoinClient) (tipHeight : Nat) (headers : List Header) (gas : Option Nat) :
    Relayed Channel.Response × BitcoinClient :=
  let index := c.submissions.length
  let c := { c with submissions := c.submissions ++ [⟨tipHeight, headers.map (·.hash), gas⟩] }
  if c.refused = some index then (.error (refusal tipHeight 5 "rejected"), c)
  else if links (c.heldAt tipHeight) headers then
    let gasUsed := baseGas + headers.length
    (.ok ⟨s!"btc-{index}", 0, "", gas.getD 0, gasUsed⟩,
      { c.replaceAbove tipHeight headers with lastGas := some gasUsed })
  else (.error (refusal tipHeight 3 "header does not link"), c)

def serve (c : BitcoinClient) : (call : Peer.BitcoinClient) → Relayed call.Answer × BitcoinClient
  | .bestHeaderHash => (.ok c.tip.2, c)
  | .bestHeight => (.ok c.tip.1, c)
  | .headerHashAt height => (.ok (c.heldAt height), c)
  | .submitHeaders tipHeight headers gas => c.submit tipHeight headers gas
  | .lastSubmissionGas => (.ok c.lastGas, c)

end BitcoinClient

end HeaderRelay.Sim
