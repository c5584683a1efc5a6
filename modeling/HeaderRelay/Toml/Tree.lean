import HeaderRelay.Toml.Basic

/-!
# Tables under construction

While a document is read, a table remembers how it came to be, because that decides who may add to it:
a table that headers only passed through may still get a header of its own, a table that dotted keys made
may get more dotted keys, and a table with a header gets neither. Inline tables and arrays are values,
to which nothing is added.
-/
namespace HeaderRelay.Toml

/-- How a table came to be. -/
inductive Origin where
  /-- As a step in the header of another table. -/
  | passed
  /-- As a step in a dotted key. -/
  | dotted
  /-- By a header of its own. -/
  | opened
  deriving DecidableEq, Repr

/-- What stands under a key. -/
inductive Node where
  | value (v : Toml)
  | table (origin : Origin) (fields : List (String × Node))
  /-- An array of tables, the last one first. -/
  | tables (items : List (List (String × Node)))

namespace Node

def replace (key : String) (node : Node) (fields : List (String × Node)) : List (String × Node) :=
  fields.map fun f => if f.1 = key then (key, node) else f

/-- Puts a value under a dotted key: `path` leads to the table that gets `key`. -/
def insert (key : String) (v : Toml) :
    (path : List String) → List (String × Node) → Option (List (String × Node))
  | [], fields => if (fields.lookup key).isSome then none else some (fields ++ [(key, .value v)])
  | step :: path, fields =>
    match fields.lookup step with
    | none => (insert key v path []).map fun inner => fields ++ [(step, .table .dotted inner)]
    | some (.table origin inner) =>
      if origin = .opened ∨ (path = [] ∧ origin ≠ .dotted) then none
      else (insert key v path inner).map fun inner => replace step (.table origin inner) fields
    | some (.tables (last :: before)) =>
      if path = [] then none
      else (insert key v path last).map fun last => replace step (.tables (last :: before)) fields
    | some _ => none

/-- Changes the fields of the table to which a header's steps lead; of an array of tables, the last one
is meant. -/
def within (f : List (String × Node) → Option (List (String × Node))) :
    (path : List String) → List (String × Node) → Option (List (String × Node))
  | [], fields => f fields
  | step :: path, fields =>
    match fields.lookup step with
    | none => (within f path []).map fun inner => fields ++ [(step, .table .passed inner)]
    | some (.table origin inner) =>
      (within f path inner).map fun inner => replace step (.table origin inner) fields
    | some (.tables (last :: before)) =>
      (within f path last).map fun last => replace step (.tables (last :: before)) fields
    | some _ => none

/-- Opens the table of a header and fills it. -/
def openTable (key : String) (fill : List (String × Node) → Option (List (String × Node)))
    (fields : List (String × Node)) : Option (List (String × Node)) :=
  match fields.lookup key with
  | none => (fill []).map fun inner => fields ++ [(key, .table .opened inner)]
  | some (.table .passed inner) => (fill inner).map fun inner => replace key (.table .opened inner) fields
  | some _ => none

/-- Opens one more table of an array of tables and fills it. -/
def openNext (key : String) (fill : List (String × Node) → Option (List (String × Node)))
    (fields : List (String × Node)) : Option (List (String × Node)) :=
  match fields.lookup key with
  | none => (fill []).map fun inner => fields ++ [(key, .tables [inner])]
  | some (.tables items) => (fill []).map fun inner => replace key (.tables (inner :: items)) fields
  | some _ => none

mutual

def finish : Node → Toml
  | .value v => v
  | .table _ fields => .table (finishFields fields)
  | .tables items => .array (finishTables items).reverse

def finishFields : List (String × Node) → List (String × Toml)
  | [] => []
  | (key, node) :: rest => (key, node.finish) :: finishFields rest

def finishTables : List (List (String × Node)) → List Toml
  | [] => []
  | fields :: rest => .table (finishFields fields) :: finishTables rest

end

end Node

end HeaderRelay.Toml
