import HeaderRelay.Hash.Basic

/-!
# SHA-256

The hash function of both chains, on byte lists, and the node hashes that each chain makes of it:
Bitcoin joins two nodes by a double hash without a tag, the consensus chain tags leaves with `0` and
inner nodes with `1`, so that a leaf can never be read as an inner node.
-/
namespace HeaderRelay

namespace Sha256

structure State where
  (a b c d e f g h : UInt32)
  deriving DecidableEq

def State.initial : State :=
  ⟨0x6a09e667, 0xbb67ae85, 0x3c6ef372, 0xa54ff53a, 0x510e527f, 0x9b05688c, 0x1f83d9ab, 0x5be0cd19⟩

def roundConstants : List UInt32 := [
  0x428a2f98, 0x71374491, 0xb5c0fbcf, 0xe9b5dba5, 0x3956c25b, 0x59f111f1, 0x923f82a4, 0xab1c5ed5,
  0xd807aa98, 0x12835b01, 0x243185be, 0x550c7dc3, 0x72be5d74, 0x80deb1fe, 0x9bdc06a7, 0xc19bf174,
  0xe49b69c1, 0xefbe4786, 0x0fc19dc6, 0x240ca1cc, 0x2de92c6f, 0x4a7484aa, 0x5cb0a9dc, 0x76f988da,
  0x983e5152, 0xa831c66d, 0xb00327c8, 0xbf597fc7, 0xc6e00bf3, 0xd5a79147, 0x06ca6351, 0x14292967,
  0x27b70a85, 0x2e1b2138, 0x4d2c6dfc, 0x53380d13, 0x650a7354, 0x766a0abb, 0x81c2c92e, 0x92722c85,
  0xa2bfe8a1, 0xa81a664b, 0xc24b8b70, 0xc76c51a3, 0xd192e819, 0xd6990624, 0xf40e3585, 0x106aa070,
  0x19a4c116, 0x1e376c08, 0x2748774c, 0x34b0bcb5, 0x391c0cb3, 0x4ed8aa4a, 0x5b9cca4f, 0x682e6ff3,
  0x748f82ee, 0x78a5636f, 0x84c87814, 0x8cc70208, 0x90befffa, 0xa4506ceb, 0xbef9a3f7, 0xc67178f2]

def rotateRight (x : UInt32) (n : UInt32) : UInt32 := (x >>> n) ||| (x <<< (32 - n))

/-- Four bytes as a word, most significant first; a tail shorter than four is dropped. -/
def words : Bytes → List UInt32
  | a :: b :: c :: d :: rest =>
    (a.toUInt32 <<< 24 ||| b.toUInt32 <<< 16 ||| c.toUInt32 <<< 8 ||| d.toUInt32) :: words rest
  | _ => []

def wordBytes (w : UInt32) : Bytes :=
  [(w >>> 24).toUInt8, (w >>> 16).toUInt8, (w >>> 8).toUInt8, w.toUInt8]

/-- Adds `n` schedule words in front of `ws`, which holds the schedule so far, newest first. -/
def extend : Nat → List UInt32 → List UInt32
  | 0, ws => ws
  | n + 1, ws =>
    let x := ws.getD 14 0
    let y := ws.getD 1 0
    let s0 := rotateRight x 7 ^^^ rotateRight x 18 ^^^ (x >>> 3)
    let s1 := rotateRight y 17 ^^^ rotateRight y 19 ^^^ (y >>> 10)
    extend n ((ws.getD 15 0 + s0 + ws.getD 6 0 + s1) :: ws)

/-- The 64 schedule words of a block of 16. -/
def schedule (block : List UInt32) : List UInt32 := (extend 48 block.reverse).reverse

/-- One round, with `kw` the sum of its constant and its schedule word. -/
def round (s : State) (kw : UInt32) : State :=
  let s1 := rotateRight s.e 6 ^^^ rotateRight s.e 11 ^^^ rotateRight s.e 25
  let ch := (s.e &&& s.f) ^^^ (~~~ s.e &&& s.g)
  let t1 := s.h + s1 + ch + kw
  let s0 := rotateRight s.a 2 ^^^ rotateRight s.a 13 ^^^ rotateRight s.a 22
  let maj := (s.a &&& s.b) ^^^ (s.a &&& s.c) ^^^ (s.b &&& s.c)
  ⟨t1 + s0 + maj, s.a, s.b, s.c, s.d + t1, s.e, s.f, s.g⟩

/-- Takes one block of 16 words into the state. -/
def compress (s : State) (block : List UInt32) : State :=
  let t := (List.zipWith (· + ·) roundConstants (schedule block)).foldl round s
  ⟨s.a + t.a, s.b + t.b, s.c + t.c, s.d + t.d, s.e + t.e, s.f + t.f, s.g + t.g, s.h + t.h⟩

/-- Takes `n` blocks of 16 words into the state. -/
def absorb : Nat → List UInt32 → State → State
  | 0, _, s => s
  | n + 1, ws, s => absorb n (ws.drop 16) (compress s (ws.take 16))

/-- The bit length as eight bytes, most significant first. -/
def lengthBytes (n : Nat) : Bytes := eightBytes (8 * n)

/-- The message filled to whole blocks: a set bit, zeros, and the length in bits. -/
def padded (data : Bytes) : Bytes :=
  data ++ 0x80 :: (List.replicate ((119 - data.length % 64) % 64) 0 ++ lengthBytes data.length)

/-- The final state as a hash. -/
def State.digest (s : State) : Hash :=
  ⟨wordBytes s.a ++ wordBytes s.b ++ wordBytes s.c ++ wordBytes s.d ++
    wordBytes s.e ++ wordBytes s.f ++ wordBytes s.g ++ wordBytes s.h, by simp [wordBytes]⟩

end Sha256

open Sha256 in
/-- SHA-256 of a byte string. -/
def sha256 (data : Bytes) : Hash :=
  let ws := words (padded data)
  (absorb (ws.length / 16) ws State.initial).digest

/-- SHA-256 of the SHA-256. -/
def sha256d (data : Bytes) : Hash := sha256 (sha256 data).bytes

/-- Node over two nodes in a Bitcoin tree. Mirrors `btc_hash_pair`. -/
def pairHash (left right : Hash) : Hash := sha256d (left.bytes ++ right.bytes)

/-- Leaf of a consensus-chain tree. Mirrors `leaf_hash`. -/
def leafHash (leaf : Bytes) : Hash := sha256 (0 :: leaf)

/-- Node over two nodes in a consensus-chain tree. Mirrors `inner_hash`. -/
def innerHash (left right : Hash) : Hash := sha256 (1 :: (left.bytes ++ right.bytes))

/-- Root of the consensus-chain tree without leaves: the leaf of the empty string. Mirrors `empty_hash`. -/
def emptyHash : Hash := leafHash []

end HeaderRelay
