import HeaderRelay.Bitcoin.Display
import HeaderRelay.Bitcoin.Header
import HeaderRelay.Json.Reader

/-!
# JSON forms of Bitcoin values

Fields are written in a fixed order and read in any. Hashes of a record are hexadecimal texts; the
siblings of a proof are arrays of numbers.
-/
namespace HeaderRelay.Bitcoin

open Json

def Header.toJson (h : Header) : Json := .obj [
  ("hash", hexHash h.hash), ("prev_hash", hexHash h.prevHash), ("merkle_root", hexHash h.merkleRoot),
  ("raw", hexText h.raw)]

def Header.ofJson? (v : Json) : Option Header := do
  match ← v.record? ["hash", "prev_hash", "merkle_root", "raw"] with
  | [some hash, some prev, some root, some raw] =>
    some ⟨← hash.hexHash?, ← prev.hexHash?, ← root.hexHash?, ← raw.hexBytes?⟩
  | _ => none

def MerkleProof.toJson (p : MerkleProof) : Json := .obj [
  ("leaf", hexHash p.leaf), ("siblings", .arr (p.siblings.map fun h => byteNumbers h.bytes)),
  ("prefix", .arr (p.sides.map Json.bool))]

def MerkleProof.ofJson? (v : Json) : Option MerkleProof := do
  match ← v.record? ["leaf", "siblings", "prefix"] with
  | [some leaf, some siblings, some sides] =>
    some ⟨← leaf.hexHash?, ← siblings.list? byteHash?, ← sides.list? bool?⟩
  | _ => none

def MerkleProof.Wire.toJson (w : MerkleProof.Wire) : Json := .obj [
  ("leaf", .str w.leaf), ("siblings", .arr (w.siblings.map Json.str)),
  ("prefix", .arr (w.sides.map Json.bool))]

def MerkleProof.Wire.ofJson? (v : Json) : Option MerkleProof.Wire := do
  match ← v.record? ["leaf", "siblings", "prefix"] with
  | [some leaf, some siblings, some sides] =>
    some ⟨← leaf.string?, ← siblings.list? string?, ← sides.list? bool?⟩
  | _ => none

end HeaderRelay.Bitcoin
