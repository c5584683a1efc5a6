import HeaderRelay.Double

/-!
# TOML values

What a TOML document holds: a table of values under keys. Dates and times are kept as they are written.
-/
namespace HeaderRelay

/-- A TOML value. -/
inductive Toml where
  | string (s : String)
  | int (n : Int)
  | float (d : Double)
  | bool (b : Bool)
  | moment (text : String)
  | array (items : List Toml)
  | table (fields : List (String × Toml))
  deriving Inhabited

end HeaderRelay
