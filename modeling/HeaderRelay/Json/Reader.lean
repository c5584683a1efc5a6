import HeaderRelay.Double
import HeaderRelay.Json.Basic
import HeaderRelay.Text.Hex

/-!
# Reading typed values from JSON

A record is read from an object, whose other fields are passed over and whose own fields may not be
repeated, or from an array that lists the fields in order. No field of a record is ever `null`. Integers
carry the range of their type.
-/
namespace HeaderRelay.Json

/-- A JSON integer from `low` up to, and without, `high`. -/
def intIn? (low high : Int) : Json → Option Int
  | .num (.int n) => if low ≤ n ∧ n < high then some n else none
  | _ => none

def natBelow? (bits : Nat) (v : Json) : Option Nat := (intIn? 0 (twoPow bits) v).map Int.toNat

def nat64? : Json → Option Nat := natBelow? 64

def nat32? : Json → Option Nat := natBelow? 32

def int64? : Json → Option Int := intIn? (-(twoPow 63 : Int)) (twoPow 63)

def byte? (v : Json) : Option UInt8 := (natBelow? 8 v).map UInt8.ofNat

def bool? : Json → Option Bool
  | .bool b => some b
  | _ => none

def string? : Json → Option String
  | .str s => some s
  | _ => none

def list? {α : Type} (read : Json → Option α) : Json → Option (List α)
  | .arr items => items.mapM read
  | _ => none

def orNull? {α : Type} (read : Json → Option α) : Json → Option (Option α)
  | .null => some none
  | v => (read v).map some

/-- A byte string in hexadecimal. -/
def hexBytes? (v : Json) : Option Bytes := do (Hex.decode (← v.string?)).toOption

def hexHash? (v : Json) : Option Hash := do (Hex.decodeHash (← v.string?)).toOption

/-- A hash as an array of 32 numbers. -/
def byteHash? (v : Json) : Option Hash := do Hash.ofBytes? (← list? byte? v)

/-- A double by its bits, most significant byte first, in hexadecimal. -/
def double? (v : Json) : Option Double := do
  let bytes ← v.hexBytes?
  if bytes.length = 8 then some ⟨UInt64.ofNat (bytes.foldl (fun n b => 256 * n + b.toNat) 0)⟩ else none

/-- The values of a record's fields, in the order of `names`; `none` for a field that is missing. -/
def record? (names : List String) : Json → Option (List (Option Json))
  | .obj fields =>
    if names.all fun name => (fields.filter fun f => f.1 == name).length ≤ 1 then
      some (names.map fun name => fields.lookup name)
    else none
  | .arr items => if items.length = names.length then some (items.map some) else none
  | _ => none

def hexText (b : Bytes) : Json := .str (Hex.encode b)

def hexHash (h : Hash) : Json := .str h.hex

def byteNumbers (b : Bytes) : Json := .arr (b.map fun x => nat x.toNat)

def double (d : Double) : Json := hexText (eightBytes d.bits.toNat)

end HeaderRelay.Json
