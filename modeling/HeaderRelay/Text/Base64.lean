import HeaderRelay.Hash.Basic

/-!
# Base64 text

The standard alphabet in groups of four, the last group filled with `=`. Reading is strict: no other
character, no missing fill, and no bit of a short last group that writing would not produce.
-/
namespace HeaderRelay.Base64

def symbol (n : Nat) : Char :=
  if n < 26 then Char.ofNat (65 + n)
  else if n < 52 then Char.ofNat (71 + n)
  else if n < 62 then Char.ofNat (n - 4)
  else if n = 62 then '+' else '/'

/-- The value of a character of the alphabet. -/
def symbolValue? (c : Char) : Option Nat :=
  if 'A' ≤ c ∧ c ≤ 'Z' then some (c.toNat - 65)
  else if 'a' ≤ c ∧ c ≤ 'z' then some (c.toNat - 71)
  else if '0' ≤ c ∧ c ≤ '9' then some (c.toNat + 4)
  else if c = '+' then some 62
  else if c = '/' then some 63
  else none

/-- Four characters for every three bytes. -/
def encodeChars : Bytes → List Char
  | [] => []
  | [a] => [symbol (a.toNat / 4), symbol (a.toNat % 4 * 16), '=', '=']
  | [a, b] =>
    [symbol (a.toNat / 4), symbol (a.toNat % 4 * 16 + b.toNat / 16), symbol (b.toNat % 16 * 4), '=']
  | a :: b :: c :: rest =>
    symbol (a.toNat / 4) :: symbol (a.toNat % 4 * 16 + b.toNat / 16) ::
      symbol (b.toNat % 16 * 4 + c.toNat / 64) :: symbol (c.toNat % 64) :: encodeChars rest

def encode (b : Bytes) : String := String.ofList (encodeChars b)

/-- Reads one group that holds three bytes. -/
def fullGroup? (p q r s : Char) : Option Bytes := do
  let a ← symbolValue? p
  let b ← symbolValue? q
  let c ← symbolValue? r
  let d ← symbolValue? s
  some [UInt8.ofNat (a * 4 + b / 16), UInt8.ofNat (b % 16 * 16 + c / 4), UInt8.ofNat (c % 4 * 64 + d)]

/-- Reads the last group, which may hold one, two or three bytes; the bits that no byte takes must
be zero. -/
def lastGroup? (p q r s : Char) : Option Bytes :=
  if s = '=' then do
    let a ← symbolValue? p
    let b ← symbolValue? q
    if r = '=' then
      if b % 16 = 0 then some [UInt8.ofNat (a * 4 + b / 16)] else none
    else
      let c ← symbolValue? r
      if c % 4 = 0 then some [UInt8.ofNat (a * 4 + b / 16), UInt8.ofNat (b % 16 * 16 + c / 4)]
      else none
  else fullGroup? p q r s

/-- Reads groups of four. -/
def decodeChars : List Char → Option Bytes
  | [] => some []
  | [p, q, r, s] => lastGroup? p q r s
  | p :: q :: r :: s :: rest => do
    let group ← fullGroup? p q r s
    let tail ← decodeChars rest
    some (group ++ tail)
  | _ => none

def decode? (text : String) : Option Bytes := decodeChars text.toList

end HeaderRelay.Base64
