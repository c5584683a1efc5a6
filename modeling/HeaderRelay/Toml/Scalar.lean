import HeaderRelay.Text.Decimal
import HeaderRelay.Text.Hex
import HeaderRelay.Toml.Basic

/-!
# Numbers, dates and times of TOML

Each is a run of characters that stands alone, so each is read from the whole of such a run. Digits may
be grouped by single underscores, decimal integers have no leading zeros and 64 bits, and a date names
a day that exists.
-/
namespace HeaderRelay.Toml

/-! ## Integers -/

/-- The digits of a group, without the underscores that stand between two of them. -/
def ungroup (isDigit : Char → Bool) : List Char → Option (List Char)
  | [] => none
  | [c] => if isDigit c then some [c] else none
  | c :: '_' :: rest => if isDigit c then (ungroup isDigit rest).map (c :: ·) else none
  | c :: rest => if isDigit c then (ungroup isDigit rest).map (c :: ·) else none

def natOfDigits (base : Nat) (ds : List Char) : Nat := ds.foldl (fun n c => base * n + (Hex.digitValue? c).getD 0) 0

/-- The digits of a decimal integer without sign: no leading zeros. -/
def wholeDigits? (cs : List Char) : Option (List Char) :=
  match ungroup Char.isDigit cs with
  | some ('0' :: _ :: _) => none
  | ds => ds

def inRange? (n : Int) : Option Int := if -(twoPow 63 : Int) ≤ n ∧ n < twoPow 63 then some n else none

def int? : List Char → Option Int
  | '0' :: 'x' :: rest => do inRange? (natOfDigits 16 (← ungroup (fun c => (Hex.digitValue? c).isSome) rest))
  | '0' :: 'o' :: rest => do inRange? (natOfDigits 8 (← ungroup (fun c => '0' ≤ c && c ≤ '7') rest))
  | '0' :: 'b' :: rest => do inRange? (natOfDigits 2 (← ungroup (fun c => c = '0' || c = '1') rest))
  | '+' :: rest => do inRange? (natOfDigits 10 (← wholeDigits? rest))
  | '-' :: rest => do inRange? (-(natOfDigits 10 (← wholeDigits? rest) : Int))
  | cs => do inRange? (natOfDigits 10 (← wholeDigits? cs))

/-! ## Floats -/

/-- The exponent, if any, after its letter. -/
def exponent? : List Char → Option Int
  | [] => some 0
  | _ :: '-' :: rest => (ungroup Char.isDigit rest).map fun ds => -(natOfDigits 10 ds : Int)
  | _ :: '+' :: rest => (ungroup Char.isDigit rest).map fun ds => (natOfDigits 10 ds : Int)
  | _ :: rest => (ungroup Char.isDigit rest).map fun ds => (natOfDigits 10 ds : Int)

/-- The digits of a fraction, if any, after its point. -/
def fraction? : List Char → Option (List Char)
  | [] => some []
  | _ :: rest => ungroup Char.isDigit rest

/-- Reads the size of a float: a whole number with a fraction or an exponent or both. -/
def size? (cs : List Char) : Option Double := do
  let isExponent (c : Char) : Bool := c = 'e' || c = 'E'
  let mantissa := cs.takeWhile (!isExponent ·)
  let exponent := cs.dropWhile (!isExponent ·)
  let fraction := mantissa.dropWhile (· != '.')
  if fraction.isEmpty ∧ exponent.isEmpty then none
  else
    let whole ← wholeDigits? (mantissa.takeWhile (· != '.'))
    let places ← fraction? fraction
    let power ← exponent? exponent
    some (.ofFloat (Decimal.mk (natOfDigits 10 (whole ++ places)) (power - (places.length : Int))).toFloat)

def unsigned? (cs : List Char) : Option Double :=
  if cs = ['i', 'n', 'f'] then some .infinity
  else if cs = ['n', 'a', 'n'] then some .nan
  else size? cs

/-- Reads a float. One that is too large is refused, and one that is too small beyond all bounds is
negative infinity. -/
def float? (cs : List Char) : Option Double :=
  let named := cs.getLast? == some 'f'
  match cs with
  | '-' :: rest => (unsigned? rest).map Double.negate
  | '+' :: rest => (unsigned? rest).filter fun d => named || d ≠ .infinity
  | cs => (unsigned? cs).filter fun d => named || d ≠ .infinity

/-! ## Dates and times -/

/-- The value of two digits within bounds. -/
def pair? (low high : Nat) (a b : Char) : Option Nat :=
  if a.isDigit && b.isDigit then
    let n := 10 * (a.toNat - 48) + (b.toNat - 48)
    if low ≤ n ∧ n ≤ high then some n else none
  else none

def daysIn (year month : Nat) : Nat :=
  if month = 2 then (if year % 4 = 0 ∧ (year % 100 ≠ 0 ∨ year % 400 = 0) then 29 else 28)
  else if month = 4 ∨ month = 6 ∨ month = 9 ∨ month = 11 then 30 else 31

def afterDate? : List Char → Option (List Char)
  | a :: b :: c :: d :: '-' :: e :: f :: '-' :: g :: h :: rest => do
    let century ← pair? 0 99 a b
    let year ← pair? 0 99 c d
    let month ← pair? 1 12 e f
    let _ ← pair? 1 (daysIn (100 * century + year) month) g h
    some rest
  | _ => none

/-- What follows the fraction of a second, if there is one. -/
def afterFraction? : List Char → Option (List Char)
  | '.' :: c :: rest => if c.isDigit then some (rest.dropWhile Char.isDigit) else none
  | '.' :: [] => none
  | cs => some cs

/-- What follows a time; a minute may have a leap second. -/
def afterTime? : List Char → Option (List Char)
  | a :: b :: ':' :: c :: d :: ':' :: e :: f :: rest => do
    let _ ← pair? 0 23 a b
    let _ ← pair? 0 59 c d
    let _ ← pair? 0 60 e f
    afterFraction? rest
  | _ => none

/-- Whether a run of characters is nothing or an offset from universal time. -/
def isOffset : List Char → Bool
  | [] => true
  | [z] => z = 'Z' || z = 'z'
  | [sign, a, b, ':', c, d] =>
    (sign = '+' || sign = '-') && (pair? 0 23 a b).isSome && (pair? 0 59 c d).isSome
  | _ => false

/-- Whether a run of characters is a date, a time, or both with or without an offset. -/
def isMoment (cs : List Char) : Bool :=
  match afterDate? cs with
  | some [] => true
  | some (t :: rest) => (t = 'T' || t = 't' || t = ' ') && (afterTime? rest).any isOffset
  | none => (afterTime? cs).any List.isEmpty

/-- Reads a run of characters that stands alone. -/
def scalar? (cs : List Char) : Option Toml :=
  if cs = ['t', 'r', 'u', 'e'] then some (.bool true)
  else if cs = ['f', 'a', 'l', 's', 'e'] then some (.bool false)
  else if isMoment cs then some (.moment (String.ofList cs))
  else
    match int? cs with
    | some n => some (.int n)
    | none => (float? cs).map .float

end HeaderRelay.Toml
