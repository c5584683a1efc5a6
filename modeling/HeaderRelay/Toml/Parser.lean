import HeaderRelay.Toml.Scalar
import HeaderRelay.Toml.Text
import HeaderRelay.Toml.Tree

/-!
# Reading TOML documents

`Toml.ofText?` reads a document of TOML 1.0, line by line: headers open tables, and key-value lines fill
the table that was opened last. A byte-order mark in front is passed over. Every fault, be it of a line
or of the tables the lines build, makes the whole document unreadable.
-/
namespace HeaderRelay.Toml

/-! ## Values -/

/-- Whether a character may stand in a number, a date, a time or a truth value. -/
def isScalarChar (c : Char) : Bool := isBare c || c = '+' || c = '.' || c = ':'

/-- Takes the run of characters of a scalar; a blank between a date and a time belongs to it. -/
def scalarRun (cs : List Char) : List Char × List Char :=
  let word := cs.takeWhile isScalarChar
  let rest := cs.dropWhile isScalarChar
  match afterDate? word, rest with
  | some [], ' ' :: c :: more =>
    if c.isDigit then
      (word ++ ' ' :: (c :: more).takeWhile isScalarChar, (c :: more).dropWhile isScalarChar)
    else (word, rest)
  | _, _ => (word, rest)

mutual

def value (fuel depth : Nat) (cs : List Char) : Option (Toml × List Char) :=
  match fuel with
  | 0 => none
  | fuel + 1 =>
    match cs with
    | '"' :: _ => (string? cs).map fun (s, rest) => (.string s, rest)
    | '\'' :: _ => (string? cs).map fun (s, rest) => (.string s, rest)
    | '[' :: rest =>
      if nestingLimit ≤ depth + 1 then none
      else (items fuel (depth + 1) [] rest).map fun (vs, rest) => (.array vs, rest)
    | '\x7b' :: rest =>
      if nestingLimit ≤ depth + 1 then none
      else
        match skipBlank rest with
        | '\x7d' :: rest => some (.table [], rest)
        | rest => (inlineFields fuel (depth + 1) [] rest).map fun (fs, rest) => (.table (Node.finishFields fs), rest)
    | cs =>
      let (word, rest) := scalarRun cs
      (scalar? word).map fun v => (v, rest)

/-- Reads the values of an array up to its closing bracket, before which a comma may stand; `done`
holds those so far, last first. -/
def items (fuel depth : Nat) (done : List Toml) (cs : List Char) : Option (List Toml × List Char) :=
  match fuel with
  | 0 => none
  | fuel + 1 =>
    match skipTrivia false cs with
    | none => none
    | some (']' :: rest) => some (done.reverse, rest)
    | some cs =>
      match value fuel depth cs with
      | none => none
      | some (v, rest) =>
        match skipTrivia false rest with
        | some (',' :: rest) => items fuel depth (v :: done) rest
        | some (']' :: rest) => some ((v :: done).reverse, rest)
        | _ => none

/-- Reads the fields of an inline table up to its closing brace. -/
def inlineFields (fuel depth : Nat) (done : List (String × Node)) (cs : List Char) :
    Option (List (String × Node) × List Char) :=
  match fuel with
  | 0 => none
  | fuel + 1 =>
    match dottedKey? cs with
    | some (path, key, '=' :: rest) =>
      match value fuel depth (skipBlank rest) with
      | none => none
      | some (v, rest) =>
        match Node.insert key v path done with
        | none => none
        | some fields =>
          match skipBlank rest with
          | ',' :: rest => inlineFields fuel depth fields rest
          | '\x7d' :: rest => some (fields, rest)
          | _ => none
    | _ => none

end

/-! ## Lines -/

/-- A line of a document. -/
inductive Line where
  | blank
  | header (path : List String) (key : String)
  | arrayHeader (path : List String) (key : String)
  | field (path : List String) (key : String) (v : Toml)

def line? (cs : List Char) : Option (Line × List Char) := do
  match skipBlank cs with
  | [] => some (.blank, [])
  | '[' :: '[' :: rest =>
    match ← dottedKey? rest with
    | (path, key, ']' :: ']' :: rest) => some (.arrayHeader path key, ← endLine? rest)
    | _ => none
  | '[' :: rest =>
    match ← dottedKey? rest with
    | (path, key, ']' :: rest) => some (.header path key, ← endLine? rest)
    | _ => none
  | c :: rest =>
    if c = '#' ∨ c = '\n' ∨ c = '\r' then some (.blank, ← endLine? (c :: rest))
    else
      match ← dottedKey? (c :: rest) with
      | (path, key, '=' :: rest) =>
        let (v, rest) ← value (rest.length + 1) 0 (skipBlank rest)
        some (.field path key v, ← endLine? rest)
      | _ => none

def lines? : (fuel : Nat) → List Char → Option (List Line)
  | _, [] => some []
  | 0, _ => none
  | fuel + 1, cs => do
    let (line, rest) ← line? cs
    return line :: (← lines? fuel rest)

/-! ## Documents -/

/-- Puts the fields of the lines in front into a table, up to the next header. -/
def fill : List Line → List (String × Node) → Option (List (String × Node))
  | .field path key v :: rest, fields => (Node.insert key v path fields).bind (fill rest)
  | .blank :: rest, fields => fill rest fields
  | _, fields => some fields

/-- Builds the tables of all headers into the table of the document. -/
def buildTables : List Line → List (String × Node) → Option (List (String × Node))
  | [], root => some root
  | .header path key :: rest, root =>
    (Node.within (Node.openTable key (fill rest)) path root).bind (buildTables rest)
  | .arrayHeader path key :: rest, root =>
    (Node.within (Node.openNext key (fill rest)) path root).bind (buildTables rest)
  | _ :: rest, root => buildTables rest root

/-- Reads a document as the table it is. -/
def ofText? (text : String) : Option (List (String × Toml)) := do
  let cs := match text.toList with
    | c :: rest => if c.toNat = 0xfeff then rest else c :: rest
    | [] => []
  let lines ← lines? (cs.length + 1) cs
  let root ← fill lines []
  let fields ← buildTables lines root
  return Node.finishFields fields

end HeaderRelay.Toml
