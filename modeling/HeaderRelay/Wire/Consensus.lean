import HeaderRelay.Channel.Message
import HeaderRelay.Consensus.Block
import HeaderRelay.Consensus.ProofWire
import HeaderRelay.Json.Reader

/-!
# JSON forms of consensus-chain values

Fields are written in a fixed order and read in any. Hashes, addresses and signatures of a record are
hexadecimal texts; the data of a transaction result and the aunts of a proof are arrays of numbers.
-/
namespace HeaderRelay

namespace Consensus

open Json

def Header.toJson (h : Header) : Json := .obj [
  ("height", .nat h.height), ("hash", hexHash h.hash), ("validators_hash", hexHash h.validatorsHash),
  ("next_validators_hash", hexHash h.nextValidatorsHash), ("last_results_hash", hexHash h.lastResultsHash)]

def Header.ofJson? (v : Json) : Option Header := do
  match ← v.record? ["height", "hash", "validators_hash", "next_validators_hash", "last_results_hash"] with
  | [some height, some hash, some vals, some next, some results] =>
    some ⟨← height.nat64?, ← hash.hexHash?, ← vals.hexHash?, ← next.hexHash?, ← results.hexHash?⟩
  | _ => none

def Vote.toJson (x : Vote) : Json := .obj [
  ("validator_address", hexText x.validatorAddress), ("signature", hexText x.signature),
  ("timestamp_nanos", .int x.timestampNanos)]

def Vote.ofJson? (v : Json) : Option Vote := do
  match ← v.record? ["validator_address", "signature", "timestamp_nanos"] with
  | [some address, some signature, some time] =>
    some ⟨← address.hexBytes?, ← signature.hexBytes?, ← time.int64?⟩
  | _ => none

def Commit.toJson (c : Commit) : Json := .obj [
  ("height", .nat c.height), ("round", .nat c.round), ("block_hash", hexHash c.blockHash),
  ("signatures", .arr (c.signatures.map Vote.toJson))]

def Commit.ofJson? (v : Json) : Option Commit := do
  match ← v.record? ["height", "round", "block_hash", "signatures"] with
  | [some height, some round, some hash, some votes] =>
    some ⟨← height.nat64?, ← round.nat32?, ← hash.hexHash?, ← votes.list? Vote.ofJson?⟩
  | _ => none

def Validator.toJson (x : Validator) : Json := .obj [
  ("address", hexText x.address), ("pub_key", hexText x.pubKey), ("voting_power", .nat x.votingPower)]

def Validator.ofJson? (v : Json) : Option Validator := do
  match ← v.record? ["address", "pub_key", "voting_power"] with
  | [some address, some key, some power] => some ⟨← address.hexBytes?, ← key.hexBytes?, ← power.nat64?⟩
  | _ => none

def ValidatorSet.toJson (s : ValidatorSet) : Json := .obj [
  ("validators", .arr (s.validators.map Validator.toJson))]

def ValidatorSet.ofJson? (v : Json) : Option ValidatorSet := do
  match ← v.record? ["validators"] with
  | [some validators] => some ⟨← validators.list? Validator.ofJson?⟩
  | _ => none

def SignedHeader.toJson (s : SignedHeader) : Json := .obj [
  ("header", s.header.toJson), ("commit", s.commit.toJson)]

def SignedHeader.ofJson? (v : Json) : Option SignedHeader := do
  match ← v.record? ["header", "commit"] with
  | [some header, some commit] => some ⟨← Header.ofJson? header, ← Commit.ofJson? commit⟩
  | _ => none

def LightBlock.toJson (b : LightBlock) : Json := .obj [
  ("signed_header", b.signedHeader.toJson), ("validator_set", b.validatorSet.toJson)]

def LightBlock.ofJson? (v : Json) : Option LightBlock := do
  match ← v.record? ["signed_header", "validator_set"] with
  | [some header, some validators] =>
    some ⟨← SignedHeader.ofJson? header, ← ValidatorSet.ofJson? validators⟩
  | _ => none

def ChainEntry.toJson (e : ChainEntry) : Json := .obj [("height", .nat e.height), ("hash", hexHash e.hash)]

def ChainEntry.ofJson? (v : Json) : Option ChainEntry := do
  match ← v.record? ["height", "hash"] with
  | [some height, some hash] => some ⟨← height.nat64?, ← hash.hexHash?⟩
  | _ => none

/-- Writes a transaction result; its data is an array of byte values. -/
def TxResult.toJson (r : TxResult) : Json := .obj [
  ("code", .nat r.code), ("data", byteNumbers r.data), ("log", .str r.log), ("info", .str r.info),
  ("gas_wanted", .int r.gasWanted), ("gas_used", .int r.gasUsed), ("codespace", .str r.codespace)]

def TxResult.ofJson? (v : Json) : Option TxResult := do
  match ← v.record? ["code", "data", "log", "info", "gas_wanted", "gas_used", "codespace"] with
  | [some code, some data, some log, some info, some wanted, some used, some space] =>
    some ⟨← code.nat32?, ← data.list? byte?, ← log.string?, ← info.string?, ← wanted.int64?,
      ← used.int64?, ← space.string?⟩
  | _ => none

def MerkleProof.toJson (p : MerkleProof) : Json := .obj [
  ("total", .nat p.total), ("index", .nat p.index), ("leaf_hash", hexHash p.leafHash),
  ("aunts", .arr (p.aunts.map fun h => byteNumbers h.bytes))]

def MerkleProof.ofJson? (v : Json) : Option MerkleProof := do
  match ← v.record? ["total", "index", "leaf_hash", "aunts"] with
  | [some total, some index, some leaf, some aunts] =>
    some ⟨← total.nat64?, ← index.nat64?, ← leaf.hexHash?, ← aunts.list? byteHash?⟩
  | _ => none

def MerkleProof.Wire.toJson (w : MerkleProof.Wire) : Json := .obj [
  ("total", .nat w.total), ("index", .nat w.index), ("leaf_hash", .str w.leafHash),
  ("aunts", .arr (w.aunts.map Json.str))]

def MerkleProof.Wire.ofJson? (v : Json) : Option MerkleProof.Wire := do
  match ← v.record? ["total", "index", "leaf_hash", "aunts"] with
  | [some total, some index, some leaf, some aunts] =>
    some ⟨← total.nat64?, ← index.nat64?, ← leaf.string?, ← aunts.list? string?⟩
  | _ => none

end Consensus

namespace Channel

open Json

def Response.toJson (r : Response) : Json := .obj [
  ("tx_hash", .str r.txHash), ("code", .nat r.code), ("raw_log", .str r.rawLog),
  ("gas_wanted", .nat r.gasWanted), ("gas_used", .nat r.gasUsed)]

def Response.ofJson? (v : Json) : Option Response := do
  match ← v.record? ["tx_hash", "code", "raw_log", "gas_wanted", "gas_used"] with
  | [some hash, some code, some log, some wanted, some used] =>
    some ⟨← hash.string?, ← code.nat32?, ← log.string?, ← wanted.nat64?, ← used.nat64?⟩
  | _ => none

end Channel

end HeaderRelay
