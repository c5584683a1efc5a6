import HeaderRelay.Arith

/-!
# Decimal text of binary floating point

A finite double is `m * 2 ^ q`. Its shortest decimal is the one with the fewest digits among those
that round back to it, and of these the nearest; it is found digit count by digit count on the grid
of decimals with that many digits, where only the two neighbours of the value have to be tried. Two
layouts of those digits are in use: the positional one, in which a value halfway between two decimals
goes up, and the one that switches to an exponent, in which it goes to the even one.
-/
namespace HeaderRelay

/-- A decimal number `digits * 10 ^ exponent`. -/
structure Decimal where
  digits : Nat
  exponent : Int
  deriving DecidableEq, Repr

namespace Decimal

/-- `n * 10 ^ e` over `d`, as a numerator and a denominator. -/
def scale (n d : Nat) (e : Int) : Nat × Nat :=
  match e with
  | .ofNat k => (n * tenPow k, d)
  | .negSucc k => (n, d * tenPow (k + 1))

/-- The number of digits before the point of `n / d` when it is at least one, less one. -/
def leadingPlace (n d : Nat) : Nat := (Nat.toDigits 10 (n / d)).length - 1

/-- How often `n / d` has to be multiplied by ten to reach one, at most `fuel` times. -/
def placesBelowOne : (fuel : Nat) → (n d : Nat) → Nat
  | 0, _, _ => 0
  | fuel + 1, n, d => if d ≤ n then 0 else placesBelowOne fuel (10 * n) d + 1

/-- The exponent of the leading digit of `n / d`. -/
def magnitude (n d : Nat) : Int :=
  if d ≤ n then Int.ofNat (leadingPlace n d) else -Int.ofNat (placesBelowOne 400 n d)

def trim : (fuel : Nat) → Decimal → Decimal
  | 0, x => x
  | fuel + 1, x => if x.digits ≠ 0 ∧ x.digits % 10 = 0 then trim fuel ⟨x.digits / 10, x.exponent + 1⟩ else x

/-- Which of two neighbours stands for a value halfway between them. -/
inductive Tie where
  | even
  | up
  deriving DecidableEq, Repr

/-- The values that round to `4 * m * 2 ^ (q - 2)`: numerators over a common denominator. -/
structure Interval where
  low : Nat
  value : Nat
  high : Nat
  den : Nat
  closed : Bool

/-- Whether `x * 10 ^ e` lies in the interval. -/
def Interval.holds (i : Interval) (x : Nat) (e : Int) : Bool :=
  let (p, d) := scale x 1 e
  -- compare p / d with low / den and high / den
  let lo := compare (i.low * d) (p * i.den)
  let hi := compare (p * i.den) (i.high * d)
  if i.closed then lo != .gt && hi != .gt else lo == .lt && hi == .lt

/-- The nearest of the value's two neighbours with `n` digits that lies in the interval. -/
def Interval.onGrid (i : Interval) (tie : Tie) (place : Int) (n : Nat) : Option Decimal :=
  let e : Int := place - (n : Int) + 1
  let (p, d) := scale i.value i.den (-e)
  let below : Nat := p / d
  let above := below + 1
  let remainder := p % d
  let nearBelow := 2 * remainder < d || (2 * remainder == d && tie == .even && below % 2 == 0)
  match i.holds below e && below != 0, i.holds above e with
  | true, true => some ⟨if nearBelow then below else above, e⟩
  | true, false => some ⟨below, e⟩
  | false, true => some ⟨above, e⟩
  | false, false => none

/-- The shortest decimal in the interval; seventeen digits always suffice for a double. -/
def Interval.shortest (i : Interval) (tie : Tie) : Decimal :=
  let place := magnitude i.value i.den
  let grid := (List.range 17).findSome? fun k => i.onGrid tie place (k + 1)
  trim 400 (grid.getD (Decimal.mk (i.value / i.den) 0))

/-- The interval of a finite nonzero double given by its bits without the sign. -/
def Interval.ofBits (bits : Nat) : Interval :=
  let biased : Nat := bits / twoPow 52
  let fraction : Nat := bits % twoPow 52
  let m : Nat := if biased = 0 then fraction else twoPow 52 + fraction
  let q : Int := (if biased = 0 then 1 else (biased : Int)) - 1075
  let gapBelow := if fraction = 0 ∧ 1 < biased then 1 else 2
  let (up, den) := match q - 2 with
    | .ofNat k => (twoPow k, 1)
    | .negSucc k => (1, twoPow (k + 1))
  ⟨(4 * m - gapBelow) * up, 4 * m * up, (4 * m + 2) * up, den, m % 2 == 0⟩

/-- The shortest decimal of a finite double given by its bits without the sign. -/
def ofBits (tie : Tie) (bits : Nat) : Decimal :=
  if bits = 0 then ⟨0, 0⟩ else (Interval.ofBits bits).shortest tie

def digitChars (x : Decimal) : List Char := Nat.toDigits 10 x.digits

def zeros (n : Nat) : List Char := List.replicate n '0'

/-- All digits in their places, without a point when there is no fraction. -/
def positional (x : Decimal) : String :=
  let ds := x.digitChars
  String.ofList <|
    match x.exponent with
    | .ofNat k => if x.digits = 0 then ds else ds ++ zeros k
    | .negSucc k =>
      let places := k + 1
      if ds.length ≤ places then '0' :: '.' :: (zeros (places - ds.length) ++ ds)
      else ds.take (ds.length - places) ++ '.' :: ds.drop (ds.length - places)

/-- Digits in their places while the point stands after the fifth zero at the earliest and before the
seventeenth digit at the latest, with `.0` on whole numbers; beyond that, one digit before the point
and an exponent. -/
def compact (x : Decimal) : String :=
  let ds := x.digitChars
  let point : Int := (ds.length : Int) + x.exponent
  if x.digits = 0 then "0.0"
  else if 0 ≤ x.exponent ∧ point ≤ 16 then String.ofList (ds ++ zeros x.exponent.toNat ++ ['.', '0'])
  else if 0 < point ∧ point ≤ 16 then
    String.ofList (ds.take point.toNat ++ '.' :: ds.drop point.toNat)
  else if -5 < point ∧ point ≤ 0 then String.ofList ('0' :: '.' :: (zeros (-point).toNat ++ ds))
  else
    let mantissa := match ds with
      | [d] => [d]
      | d :: rest => d :: '.' :: rest
      | [] => []
    String.ofList mantissa ++ "e" ++ toString (point - 1)

/-- The double nearest to a decimal, ties to even; too large gives infinity. -/
def toFloat (x : Decimal) : Float :=
  let point : Int := (x.digitChars.length : Int) + x.exponent
  if x.digits = 0 then 0.0
  else if 400 < point then Float.ofBits 0x7ff0000000000000
  else if point < -400 then 0.0
  else
    match x.exponent with
    | .ofNat k => Float.ofScientific x.digits false k
    | .negSucc k => Float.ofScientific x.digits true (k + 1)

end Decimal

/-- A double in positional notation; the three values that are no finite number have names. -/
def positionalText (f : Float) : String :=
  let bits := f.toBits.toNat
  let size := bits % twoPow 63
  let sign := if bits / twoPow 63 = 1 then "-" else ""
  if size > 0x7ff0000000000000 then "NaN"
  else if size = 0x7ff0000000000000 then sign ++ "inf"
  else sign ++ (Decimal.ofBits .up size).positional

end HeaderRelay
