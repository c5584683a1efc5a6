import HeaderRelay.Json.Written
import HeaderRelay.Text.Hex

/-!
# Reading JSON text

`Written.ofText?` takes a whole text apart. A number without fraction and exponent is an integer when 64
bits can hold it; minus zero, larger integers and all others are doubles. A double comes from the leading
digits that 64 bits can hold and one power of ten, so it may miss the nearest one in its last bits.
`Json.value?` reads a text as one value; `Json.ofText?` reads it for the fields of a record.
-/
namespace HeaderRelay.Json

namespace Parser

/-- Drops the blanks that may stand between tokens. -/
def skip : List Char → List Char
  | c :: rest => if c = ' ' ∨ c = '\n' ∨ c = '\t' ∨ c = '\r' then skip rest else c :: rest
  | [] => []

def unit? (a b c d : Char) : Option Nat := do
  let a ← Hex.digitValue? a
  let b ← Hex.digitValue? b
  let c ← Hex.digitValue? c
  let d ← Hex.digitValue? d
  some (((a * 16 + b) * 16 + c) * 16 + d)

/-- The character of a one-letter escape. -/
def shortEscape? (c : Char) : Option Char :=
  if c = '"' ∨ c = '\\' ∨ c = '/' then some c
  else if c = 'b' then some (Char.ofNat 8)
  else if c = 'f' then some (Char.ofNat 12)
  else if c = 'n' then some '\n'
  else if c = 'r' then some '\r'
  else if c = 't' then some '\t'
  else none

/-- Takes a string apart after its opening quote; `done` holds the pieces so far, last first. -/
def string : (done : List Piece) → List Char → Option (List Piece × List Char)
  | done, '"' :: rest => some (done.reverse, rest)
  | done, '\\' :: 'u' :: a :: b :: c :: d :: rest =>
    match unit? a b c d with
    | none => none
    | some n => string (.unit n :: done) rest
  | done, '\\' :: c :: rest =>
    match shortEscape? c with
    | none => none
    | some e => string (.char e :: done) rest
  | done, c :: rest => if c.toNat < 32 then none else string (.char c :: done) rest
  | _, [] => none

def digits (cs : List Char) : List Char × List Char := (cs.takeWhile Char.isDigit, cs.dropWhile Char.isDigit)

def natOf (ds : List Char) : Nat := ds.foldl (fun n c => 10 * n + (c.toNat - 48)) 0

/-- Appends digits to a number as long as 64 bits can hold it; the result has the digits that are left. -/
def appendDigits : (n : Nat) → List Char → Nat × List Char
  | n, [] => (n, [])
  | n, c :: rest =>
    let m := 10 * n + (c.toNat - 48)
    if m < twoPow 64 then appendDigits m rest else (n, c :: rest)

/-- The fraction after a point: at least one digit. -/
def fraction? : List Char → Option (List Char × List Char)
  | '.' :: rest =>
    let (ds, rest) := digits rest
    if ds.isEmpty then none else some (ds, rest)
  | cs => some ([], cs)

/-- The exponent after its letter: at least one digit, with or without a sign. -/
def exponent? : List Char → Option (Option Int × List Char)
  | c :: rest =>
    if c = 'e' ∨ c = 'E' then
      let (negative, rest) := match rest with
        | '-' :: r => (true, r)
        | '+' :: r => (false, r)
        | r => (false, r)
      let (ds, rest) := digits rest
      if ds.isEmpty then none
      else
        let n : Int := natOf ds
        some (some (if negative then -n else n), rest)
    else some (none, c :: rest)
  | [] => some (none, [])

/-- A double times a power of ten, if that is finite. Powers beyond the range of doubles are divided by in
at most `fuel` steps; after two of them nothing is left of 64 bits. -/
def timesTenTo? : (fuel : Nat) → Float → (exponent : Int) → Option Float
  | 0, _, _ => some 0.0
  | fuel + 1, f, exponent =>
    match exponent with
    | .ofNat k =>
      if f == 0.0 then some f
      else if 308 < k then none
      else
        let product := f * Float.ofScientific 1 false k
        if product.isFinite then some product else none
    | .negSucc k =>
      if k < 308 then some (f / Float.ofScientific 1 false (k + 1))
      else timesTenTo? fuel (f / Float.ofScientific 1 false 308) (exponent + 308)

def float (negative : Bool) (f : Float) : Number :=
  .float (if negative then 0x8000000000000000 ||| f.toBits else f.toBits)

/-- The number with a sign, the digits before the point, those after it, and an exponent. -/
def numberOf? (negative : Bool) (ds frac : List Char) (exponent : Option Int) : Option Number :=
  let (n, more) := appendDigits 0 ds
  if more.isEmpty ∧ frac.isEmpty ∧ exponent.isNone then
    if negative then
      some (if n = 0 ∨ twoPow 63 < n then float true (UInt64.ofNat n).toFloat else .int (-n))
    else some (.int n)
  else
    let (m, dropped) := appendDigits n frac
    let places : Int := (frac.length : Int) - dropped.length
    (timesTenTo? 3 (UInt64.ofNat m).toFloat (exponent.getD 0 + more.length - places)).map (float negative)

/-- Takes a number apart after its sign: no leading zeros, then fraction and exponent. -/
def number? (negative : Bool) (cs : List Char) : Option (Written × List Char) := do
  let (ds, rest) := digits cs
  match ds with
  | [] => none
  | '0' :: _ :: _ => none
  | _ =>
    let (frac, rest) ← fraction? rest
    let (exp, rest) ← exponent? rest
    some (.leaf ((numberOf? negative ds frac exp).map Json.num), rest)

mutual

/-- Takes a value apart; `fuel` bounds the number of tokens. -/
def value : (fuel : Nat) → List Char → Option (Written × List Char)
  | 0, _ => none
  | fuel + 1, cs =>
    match skip cs with
    | 'n' :: 'u' :: 'l' :: 'l' :: rest => some (.leaf (some .null), rest)
    | 't' :: 'r' :: 'u' :: 'e' :: rest => some (.leaf (some (.bool true)), rest)
    | 'f' :: 'a' :: 'l' :: 's' :: 'e' :: rest => some (.leaf (some (.bool false)), rest)
    | '"' :: rest => (string [] rest).map fun (s, rest) => (.leaf ((textOf? [] s).map Json.str), rest)
    | '-' :: rest => number? true rest
    | '[' :: rest =>
      match skip rest with
      | ']' :: rest => some (.arr [], rest)
      | rest => (items fuel [] rest).map fun (vs, rest) => (.arr vs, rest)
    | '\x7b' :: rest =>
      match skip rest with
      | '\x7d' :: rest => some (.obj [], rest)
      | rest => (fields fuel [] rest).map fun (fs, rest) => (.obj fs, rest)
    | rest => number? false rest

/-- Takes the values of an array apart up to its closing bracket; `done` holds those so far, last
first. -/
def items : (fuel : Nat) → (done : List Written) → List Char → Option (List Written × List Char)
  | 0, _, _ => none
  | fuel + 1, done, cs =>
    match value fuel cs with
    | none => none
    | some (v, rest) =>
      match skip rest with
      | ',' :: rest => items fuel (v :: done) rest
      | ']' :: rest => some ((v :: done).reverse, rest)
      | _ => none

/-- Takes the fields of an object apart up to its closing brace; `done` holds those so far, last
first. -/
def fields : (fuel : Nat) → (done : List (Option String × Written)) → List Char →
    Option (List (Option String × Written) × List Char)
  | 0, _, _ => none
  | fuel + 1, done, cs =>
    match skip cs with
    | '"' :: rest =>
      match string [] rest with
      | none => none
      | some (k, rest) =>
        match skip rest with
        | ':' :: rest =>
          match value fuel rest with
          | none => none
          | some (v, rest) =>
            let done := (textOf? [] k, v) :: done
            match skip rest with
            | ',' :: rest => fields fuel done rest
            | '\x7d' :: rest => some (done.reverse, rest)
            | _ => none
        | _ => none
    | _ => none

end

end Parser

/-- Takes a whole text apart. -/
def Written.ofText? (s : String) : Option Written :=
  let cs := s.toList
  match Parser.value (cs.length + 1) cs with
  | some (w, rest) => if (Parser.skip rest).isEmpty then some w else none
  | none => none

/-- What can be read of a whole text, as it is written. -/
def ofText? (s : String) : Option Json := (Written.ofText? s).map Written.readable

def value? (s : String) : Option Json := (Written.ofText? s).bind Written.value?

end HeaderRelay.Json
