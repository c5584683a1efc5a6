import HeaderRelay.Text.Hex

/-!
# Strings, keys and blanks of TOML

Strings stand between double quotes, with escapes, or between single quotes, as they are; three quotes
in a row open a string that may span lines. A key is a bare word or a string on one line, and keys may
be joined by dots.
-/
namespace HeaderRelay.Toml

/-! ## Blanks and comments -/

def isPlain (c : Char) : Bool := c = '\t' || (0x20 ≤ c.toNat && c.toNat != 0x7f)

def skipBlank (cs : List Char) : List Char := cs.dropWhile fun c => c = ' ' || c = '\t'

def skipTrivia : (inComment : Bool) → List Char → Option (List Char)
  | _, [] => some []
  | _, '\n' :: rest => skipTrivia false rest
  | _, '\r' :: '\n' :: rest => skipTrivia false rest
  | true, c :: rest => if isPlain c then skipTrivia true rest else none
  | false, '#' :: rest => skipTrivia true rest
  | false, ' ' :: rest => skipTrivia false rest
  | false, '\t' :: rest => skipTrivia false rest
  | false, cs => some cs

def newline? : List Char → Option (List Char)
  | [] => some []
  | '\n' :: rest => some rest
  | '\r' :: '\n' :: rest => some rest
  | _ => none

/-- Drops the rest of a line that holds no more than a comment. -/
def endLine? (cs : List Char) : Option (List Char) :=
  match skipBlank cs with
  | '#' :: rest => newline? (rest.dropWhile isPlain)
  | cs => newline? cs

/-! ## Strings -/

/-- The character that hexadecimal digits name; surrogates and what lies beyond the last plane name
none. -/
def codePoint? (digits : List Char) : Option Char := do
  let values ← digits.mapM Hex.digitValue?
  let n := values.foldl (fun n d => 16 * n + d) 0
  if n < 0xd800 ∨ (0xe000 ≤ n ∧ n < 0x110000) then some (Char.ofNat n) else none

/-- The character of a one-letter escape. -/
def shortEscape? (c : Char) : Option Char :=
  if c = 'b' then some (Char.ofNat 8)
  else if c = 't' then some '\t'
  else if c = 'n' then some '\n'
  else if c = 'f' then some (Char.ofNat 12)
  else if c = 'r' then some '\r'
  else if c = '"' ∨ c = '\\' then some c
  else none

/-- Reads a string on one line after its double quote; `done` holds the characters so far, last
first. -/
def basic : (done : List Char) → List Char → Option (String × List Char)
  | done, '"' :: rest => some (String.ofList done.reverse, rest)
  | done, '\\' :: 'u' :: a :: b :: c :: d :: rest =>
    match codePoint? [a, b, c, d] with
    | some e => basic (e :: done) rest
    | none => none
  | done, '\\' :: 'U' :: a :: b :: c :: d :: e :: f :: g :: h :: rest =>
    match codePoint? [a, b, c, d, e, f, g, h] with
    | some e => basic (e :: done) rest
    | none => none
  | done, '\\' :: c :: rest =>
    match shortEscape? c with
    | some e => basic (e :: done) rest
    | none => none
  | done, c :: rest => if isPlain c then basic (c :: done) rest else none
  | _, [] => none

def literal (cs : List Char) : Option (String × List Char) :=
  match cs.dropWhile fun c => c != '\'' && isPlain c with
  | '\'' :: rest => some (String.ofList (cs.takeWhile fun c => c != '\'' && isPlain c), rest)
  | _ => none

/-- Drops the line end that may follow the opening quotes. -/
def skipFirstNewline : List Char → List Char
  | '\n' :: rest => rest
  | '\r' :: '\n' :: rest => rest
  | cs => cs

/-- What the quotes that close a string over lines leave to it, and what follows them: before the three
that close it, one or two more may stand. -/
def closing? (quote : Char) : List Char → Option (List Char × List Char)
  | a :: b :: c :: rest =>
    if a = quote ∧ b = quote ∧ c = quote then
      let extra := (rest.takeWhile (· = quote)).take 2
      some (extra, rest.drop extra.length)
    else none
  | _ => none

/-- Reads a string over lines after its three single quotes; `done` holds the characters so far, last
first. -/
def literalLines (done : List Char) (cs : List Char) : Option (String × List Char) :=
  match closing? '\'' cs with
  | some (extra, rest) => some (String.ofList (extra ++ done).reverse, rest)
  | none =>
    match cs with
    | '\n' :: rest => literalLines ('\n' :: done) rest
    | '\r' :: '\n' :: rest => literalLines ('\n' :: done) rest
    | c :: rest => if isPlain c then literalLines (c :: done) rest else none
    | [] => none

/-- Where a reader of a string over lines stands. -/
inductive LineState where
  | content
  /-- After a backslash that should end its line; `crossed` tells whether a line end has followed. -/
  | folding (crossed : Bool)
  deriving DecidableEq, Repr

/-- Reads a string over lines after its three double quotes. A backslash at the end of a line takes the
blanks and line ends up to the next character with it. -/
def basicLines (state : LineState) (done : List Char) (cs : List Char) : Option (String × List Char) :=
  match state, cs with
  | .folding _, '\n' :: rest => basicLines (.folding true) done rest
  | .folding _, '\r' :: '\n' :: rest => basicLines (.folding true) done rest
  | .folding crossed, ' ' :: rest => basicLines (.folding crossed) done rest
  | .folding crossed, '\t' :: rest => basicLines (.folding crossed) done rest
  | .folding false, _ => none
  | _, cs =>
    match closing? '"' cs with
    | some (extra, rest) => some (String.ofList (extra ++ done).reverse, rest)
    | none =>
      match cs with
      | '\n' :: rest => basicLines .content ('\n' :: done) rest
      | '\r' :: '\n' :: rest => basicLines .content ('\n' :: done) rest
      | '\\' :: 'u' :: a :: b :: c :: d :: rest =>
        match codePoint? [a, b, c, d] with
        | some e => basicLines .content (e :: done) rest
        | none => none
      | '\\' :: 'U' :: a :: b :: c :: d :: e :: f :: g :: h :: rest =>
        match codePoint? [a, b, c, d, e, f, g, h] with
        | some e => basicLines .content (e :: done) rest
        | none => none
      | '\\' :: c :: rest =>
        match shortEscape? c with
        | some e => basicLines .content (e :: done) rest
        | none => basicLines (.folding false) done (c :: rest)
      | c :: rest => if isPlain c then basicLines .content (c :: done) rest else none
      | [] => none
termination_by cs.length

def string? : List Char → Option (String × List Char)
  | '"' :: '"' :: '"' :: rest => basicLines .content [] (skipFirstNewline rest)
  | '\'' :: '\'' :: '\'' :: rest => literalLines [] (skipFirstNewline rest)
  | '"' :: rest => basic [] rest
  | '\'' :: rest => literal rest
  | _ => none

/-! ## Keys -/

/-- Whether a character may stand in a bare key. -/
def isBare (c : Char) : Bool := c.isAlphanum || c = '_' || c = '-'

def simpleKey? : List Char → Option (String × List Char)
  | '"' :: rest => basic [] rest
  | '\'' :: rest => literal rest
  | cs =>
    let word := cs.takeWhile isBare
    if word.isEmpty then none else some (String.ofList word, cs.dropWhile isBare)

/-- Reads keys joined by dots, with blanks around each; `fuel` bounds their number. -/
def keys? : (fuel : Nat) → List Char → Option (List String × List Char)
  | 0, _ => none
  | fuel + 1, cs => do
    let (key, rest) ← simpleKey? (skipBlank cs)
    match skipBlank rest with
    | '.' :: rest =>
      let (more, rest) ← keys? fuel rest
      some (key :: more, rest)
    | rest => some ([key], rest)

/-- The number of keys that may be joined, and the number of arrays and inline tables that may be
nested, stays below this. -/
def nestingLimit : Nat := 80

/-- Reads a dotted key: the keys before the last dot, and the last one. -/
def dottedKey? (cs : List Char) : Option (List String × String × List Char) := do
  let (keys, rest) ← keys? (nestingLimit - 1) cs
  some (keys.dropLast, keys.getLastD "", rest)

end HeaderRelay.Toml
