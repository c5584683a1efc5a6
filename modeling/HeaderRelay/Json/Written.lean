import HeaderRelay.Json.Basic

/-!
# What stands in a JSON text

A well-formed text may hold parts that stand for nothing: a string with half a surrogate pair, or a
number too large for a double. A reader that asks for the whole text refuses it then. A reader of
records sees `null` in the place of such a part, which no field of a record takes: so the part is missed
where it is needed, and does no harm in a field that is passed over.
-/
namespace HeaderRelay.Json

/-! ## Strings -/

/-- A piece of a string: a character, or a UTF-16 unit that was written as an escape. -/
inductive Piece where
  | char (c : Char)
  | unit (n : Nat)
  deriving DecidableEq, Repr

def isLeading (n : Nat) : Bool := 0xd800 ≤ n && n < 0xdc00

def isTrailing (n : Nat) : Bool := 0xdc00 ≤ n && n < 0xe000

/-- The text of pieces, if every half of a surrogate pair meets its other half; `done` holds the
characters so far, last first. -/
def textOf? : (done : List Char) → List Piece → Option String
  | done, [] => some (String.ofList done.reverse)
  | done, .char c :: rest => textOf? (c :: done) rest
  | done, .unit n :: rest =>
    if isTrailing n then none
    else if isLeading n then
      match rest with
      | .unit m :: rest =>
        if isTrailing m then
          textOf? (Char.ofNat (0x10000 + (n - 0xd800) * 0x400 + (m - 0xdc00)) :: done) rest
        else none
      | _ => none
    else textOf? (Char.ofNat n :: done) rest

/-! ## Texts -/

/-- A text taken apart: a string, a number or a name may stand for something or not. -/
inductive Written where
  | leaf (value : Option Json)
  | arr (items : List Written)
  | obj (fields : List (Option String × Written))

namespace Written

mutual

/-- Whether every part stands for something. -/
def isWhole : Written → Bool
  | .leaf v => v.isSome
  | .arr items => allWhole items
  | .obj fields => allWholeFields fields

def allWhole : List Written → Bool
  | [] => true
  | v :: rest => v.isWhole && allWhole rest

/-- Whether every name, and every part of all values, stands for something. -/
def allWholeFields : List (Option String × Written) → Bool
  | [] => true
  | (k, v) :: rest => k.isSome && v.isWhole && allWholeFields rest

end

mutual

/-- What can be read of a text, as it is written: `null` for a leaf that stands for nothing, and for an
object with such a name. -/
def readable : Written → Json
  | .leaf v => v.getD .null
  | .arr items => .arr (readableItems items)
  | .obj fields => ((readableFields? fields).map Json.obj).getD .null

def readableItems : List Written → List Json
  | [] => []
  | v :: rest => v.readable :: readableItems rest

/-- What can be read of each field, if all names can be read. -/
def readableFields? : List (Option String × Written) → Option (List (String × Json))
  | [] => some []
  | (none, _) :: _ => none
  | (some k, v) :: rest => (readableFields? rest).map ((k, v.readable) :: ·)

end

/-- The value that a text stands for, if every part does and arrays and objects are nested at most 127
deep; of a repeated key the last value counts. -/
def value? (w : Written) : Option Json :=
  let v := w.readable
  if w.isWhole ∧ v.depth ≤ 127 then some v.settle else none

end Written

end HeaderRelay.Json
