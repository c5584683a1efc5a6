import HeaderRelay.Hash.Basic

/-!
# Transaction results and their committed form

A block commits to the code, the data and the gas of each transaction result, and to nothing else of
it. The committed form is a sequence of tagged fields in ascending order, where a field that holds its
zero value is left out; numbers are written in base 128, least significant digit first, with the high
bit set on all digits but the last.
-/
namespace HeaderRelay.Consensus

/-- The result of one transaction. -/
structure TxResult where
  /-- Zero when the transaction succeeded. -/
  code : Nat
  data : Bytes
  log : String
  info : String
  gasWanted : Int
  gasUsed : Int
  codespace : String
  deriving DecidableEq, Inhabited

/-- A number below 128 to the power `fuel` in base 128. -/
def varintDigits : (fuel : Nat) → Nat → Bytes
  | 0, _ => []
  | fuel + 1, n =>
    if n < 128 then [UInt8.ofNat n] else UInt8.ofNat (128 + n % 128) :: varintDigits fuel (n / 128)

/-- A 64-bit number in base 128; ten digits are enough. -/
def varint (n : Nat) : Bytes := varintDigits 10 n

/-- A signed 64-bit number as the unsigned one with the same bits. -/
def twosComplement (n : Int) : Nat := (n % twoPow 64).toNat

def varintField (tag : Nat) (n : Nat) : Bytes := if n = 0 then [] else varint (8 * tag) ++ varint n

def bytesField (tag : Nat) (b : Bytes) : Bytes :=
  if b.isEmpty then [] else varint (8 * tag + 2) ++ varint b.length ++ b

/-- The committed form of a result. Mirrors `encode_tx_result`. -/
def TxResult.encode (r : TxResult) : Bytes :=
  varintField 1 r.code ++ bytesField 2 r.data ++
    varintField 5 (twosComplement r.gasWanted) ++ varintField 6 (twosComplement r.gasUsed)

end HeaderRelay.Consensus
