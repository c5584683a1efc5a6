import HeaderRelay.Hash.Basic

/-!
# Hexadecimal text

Bytes as two lowercase digits each, and back from digits of either case. A text is refused for its
length before its characters are looked at; lengths and positions count UTF-8 bytes.
-/
namespace HeaderRelay.Hex

/-- Why a text is not the hexadecimal form of a byte string. -/
inductive Error where
  | oddLength
  | wrongLength
  /-- The first byte that is no digit, as the character of that code, and where it stands. -/
  | badDigit (c : Char) (position : Nat)
  deriving DecidableEq, Repr

/-! ## Writing -/

def digit (n : Nat) : Char :=
  if n < 10 then Char.ofNat (48 + n) else Char.ofNat (87 + n)

def encodeChars : Bytes → List Char
  | [] => []
  | b :: rest => digit (b.toNat / 16) :: digit (b.toNat % 16) :: encodeChars rest

def encode (b : Bytes) : String := String.ofList (encodeChars b)

/-! ## Reading -/

/-- The value of a digit of either case. -/
def digitValue? (c : Char) : Option Nat :=
  if '0' ≤ c ∧ c ≤ '9' then some (c.toNat - 48)
  else if 'a' ≤ c ∧ c ≤ 'f' then some (c.toNat - 87)
  else if 'A' ≤ c ∧ c ≤ 'F' then some (c.toNat - 55)
  else none

/-- The first byte of a character's UTF-8 form, as the character of that code. -/
def leadByte (c : Char) : Char :=
  Char.ofNat ((String.utf8EncodeChar c).headD 0).toNat

/-- Reads digits in pairs; `position` counts the characters before. All characters before the first
bad one are digits, so characters and bytes have been counted alike. -/
def decodeChars (position : Nat) : List Char → Except Error Bytes
  | [] => .ok []
  | [c] =>
    match digitValue? c with
    | none => .error (.badDigit (leadByte c) position)
    | some _ => .error .oddLength
  | c :: d :: rest =>
    match digitValue? c, digitValue? d with
    | none, _ => .error (.badDigit (leadByte c) position)
    | some _, none => .error (.badDigit (leadByte d) (position + 1))
    | some hi, some lo =>
      (decodeChars (position + 2) rest).map (UInt8.ofNat (16 * hi + lo) :: ·)

def decode (text : String) : Except Error Bytes :=
  if text.utf8ByteSize % 2 = 1 then .error .oddLength else decodeChars 0 text.toList

/-- Reads a hash: 64 digits, bytes in the order they are written. -/
def decodeHash (text : String) : Except Error Hash :=
  if text.utf8ByteSize % 2 = 1 then .error .oddLength
  else if text.utf8ByteSize ≠ 64 then .error .wrongLength
  else
    match decodeChars 0 text.toList with
    | .error e => .error e
    | .ok b =>
      match Hash.ofBytes? b with
      | some h => .ok h
      | none => .error .wrongLength

/-! ## Error text -/

/-- A character between quotes; line breaks, tabs, quotes and backslashes are escaped, and the other
characters that do not print stand as their code. -/
def quoted (c : Char) : String :=
  let body :=
    if c = '\t' then "\\t" else if c = '\r' then "\\r" else if c = '\n' then "\\n"
    else if c = '\'' then "\\'" else if c = '\\' then "\\\\" else if c.toNat = 0 then "\\0"
    else if c.toNat < 32 ∨ (127 ≤ c.toNat ∧ c.toNat ≤ 160) ∨ c.toNat = 173 then
      "\\u\x7b" ++ String.ofList (Nat.toDigits 16 c.toNat) ++ "\x7d"
    else c.toString
  "'" ++ body ++ "'"

def Error.message : Error → String
  | .oddLength => "Odd number of digits"
  | .wrongLength => "Invalid string length"
  | .badDigit c position => s!"Invalid character {quoted c} at position {position}"

end HeaderRelay.Hex

namespace HeaderRelay

def Hash.hex (h : Hash) : String := Hex.encode h.bytes

end HeaderRelay
