import HeaderRelay.Text.Decimal

/-!
# JSON values and their compact text

Objects keep their fields in order, and a field may be repeated as long as the value stands for a
text; `Json.settle` then keeps the first place and the last value. The compact text has no blanks,
leaves every character above `0x1f` as it is, except the quote and the backslash, and writes whole
floating-point numbers with `.0`.
-/
namespace HeaderRelay

namespace Json

/-- A JSON number: an integer of 64 bits, with or without sign, or a finite double by its bits. -/
inductive Number where
  | int (n : Int)
  | float (bits : UInt64)
  deriving DecidableEq, Repr

end Json

/-- A JSON value. -/
inductive Json where
  | null
  | bool (b : Bool)
  | num (n : Json.Number)
  | str (s : String)
  | arr (items : List Json)
  | obj (fields : List (String × Json))
  deriving Inhabited

namespace Json

def nat (n : Nat) : Json := .num (.int n)

def int (n : Int) : Json := .num (.int n)

/-! ## Text -/

/-- A character inside a JSON string. -/
def escape (c : Char) : List Char :=
  if c = '"' then ['\\', '"']
  else if c = '\\' then ['\\', '\\']
  else if c.toNat = 8 then ['\\', 'b']
  else if c.toNat = 12 then ['\\', 'f']
  else if c = '\n' then ['\\', 'n']
  else if c = '\r' then ['\\', 'r']
  else if c = '\t' then ['\\', 't']
  else if c.toNat < 32 then
    ['\\', 'u', '0', '0', Nat.digitChar (c.toNat / 16), Nat.digitChar (c.toNat % 16)]
  else [c]

def quote (s : String) : String :=
  String.ofList ('"' :: (s.toList.flatMap escape ++ ['"']))

def Number.text : Number → String
  | .int n => toString n
  | .float bits =>
    (if bits.toNat / twoPow 63 = 1 then "-" else "") ++
      (Decimal.ofBits .even (bits.toNat % twoPow 63)).compact

mutual

/-- The compact text of a value. -/
def text : Json → String
  | .null => "null"
  | .bool b => if b then "true" else "false"
  | .num n => n.text
  | .str s => quote s
  | .arr items => "[" ++ textItems items ++ "]"
  | .obj fields => "\x7b" ++ textFields fields ++ "\x7d"

def textItems : List Json → String
  | [] => ""
  | [v] => v.text
  | v :: w :: rest => v.text ++ "," ++ textItems (w :: rest)

def textFields : List (String × Json) → String
  | [] => ""
  | [(k, v)] => quote k ++ ":" ++ v.text
  | (k, v) :: f :: rest => quote k ++ ":" ++ v.text ++ "," ++ textFields (f :: rest)

end

/-- The length of the compact text in UTF-8 bytes. -/
def size (v : Json) : Nat := v.text.utf8ByteSize

/-! ## Fields -/

/-- Puts a field: a known key keeps its place and takes the value, a new key comes last. -/
def put (key : String) (value : Json) : List (String × Json) → List (String × Json)
  | [] => [(key, value)]
  | (k, v) :: rest => if k = key then (k, value) :: rest else (k, v) :: put key value rest

mutual

/-- The value in which no object repeats a key: first place, last value. -/
def settle : Json → Json
  | .arr items => .arr (settleItems items)
  | .obj fields => .obj (settleFields fields [])
  | v => v

/-- Every value settled. -/
def settleItems : List Json → List Json
  | [] => []
  | v :: rest => v.settle :: settleItems rest

/-- The fields settled one after the other into those already there. -/
def settleFields : List (String × Json) → List (String × Json) → List (String × Json)
  | [], done => done
  | (k, v) :: rest, done => settleFields rest (put k v.settle done)

end

def get? (v : Json) (key : String) : Option Json :=
  match v with
  | .obj fields => fields.lookup key
  | _ => none

mutual

/-- How deep arrays and objects are nested. -/
def depth : Json → Nat
  | .arr items => depthItems items + 1
  | .obj fields => depthFields fields + 1
  | _ => 0

/-- The greatest depth of the values. -/
def depthItems : List Json → Nat
  | [] => 0
  | v :: rest => max v.depth (depthItems rest)

/-- The greatest depth of the fields' values. -/
def depthFields : List (String × Json) → Nat
  | [] => 0
  | (_, v) :: rest => max v.depth (depthFields rest)

end

end Json

end HeaderRelay
