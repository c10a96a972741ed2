import CallScript.Toml.Scalar
import CallScript.Toml.Table

/-!
# Reading TOML

A document is a sequence of pairs and headers, one a line.  `Toml.read?` splits it into the sections
of its headers and writes their tables one after another; it gives nothing if the text is no TOML
document.
-/

namespace CallScript.Toml

/-- The greatest number of arrays and inline tables inside one another, and of parts of a key. -/
def nestingLimit : Nat := 79

/-! ## Values -/

/-- The items of an array after its bracket; `read` are the items already there, the last one first.
-/
def itemsFrom (item : Reader Toml) : Nat → List Toml → Reader (List Toml)
  | 0, _, _ => none
  | fuel + 1, read, cs =>
    match skipLayout false cs with
    | ']' :: rest => some (read.reverse, rest)
    | cs =>
      match item cs with
      | none => none
      | some (value, cs) =>
        match skipLayout false cs with
        | ',' :: rest => itemsFrom item fuel (value :: read) rest
        | ']' :: rest => some ((value :: read).reverse, rest)
        | _ => none

/-- A key, an equals sign and a value. -/
def takePair? (item : Reader Toml) : Reader (List String × Toml) := fun cs => do
  let (path, cs) ← takeKey? nestingLimit cs
  let (value, cs) ← item (skipIndent (← after? '=' cs))
  return ((path, value), cs)

/-- The pairs of an inline table up to its brace; `read` are the pairs already there, the last one
first. -/
def pairsFrom (item : Reader Toml) : Nat → List (List String × Toml) →
    Reader (List (List String × Toml))
  | 0, _, _ => none
  | fuel + 1, read, cs =>
    match takePair? item cs with
    | none => none
    | some (pair, cs) =>
      match skipIndent cs with
      | ',' :: rest => pairsFrom item fuel (pair :: read) rest
      | '\x7d' :: rest => some ((pair :: read).reverse, rest)
      | _ => none

/-- The pairs of an inline table after its brace. -/
def takePairs? (item : Reader Toml) : Reader (List (List String × Toml)) := fun cs =>
  match skipIndent cs with
  | '\x7d' :: rest => some ([], rest)
  | _ => pairsFrom item (cs.length + 1) [] cs

/-- A value in which arrays and inline tables are at most so deep inside one another. -/
def takeValue? : Nat → Reader Toml
  | 0, cs => takeScalar? cs
  | depth + 1, cs =>
    match cs with
    | '[' :: cs =>
      (itemsFrom (takeValue? depth) (cs.length + 1) [] cs).map fun (items, rest) =>
        (.array items, rest)
    | '\x7b' :: cs => do
      let (pairs, rest) ← takePairs? (takeValue? depth) cs
      let table ← Table.blank.assignAll? pairs
      return (table.toToml, rest)
    | cs => takeScalar? cs

/-! ## Documents -/

/-- A line of a document that says something. -/
inductive Line where
  | pair (path : List String) (value : Toml)
  /-- The header of a table. -/
  | header (path : List String)
  /-- The header of one more table in an array. -/
  | repeated (path : List String)

/-- A line up to its end. -/
def takeLine? : Reader Line
  | '[' :: '[' :: cs => do
    let (path, cs) ← takeKey? nestingLimit cs
    let cs ← afterLine? (← after? ']' (← after? ']' cs))
    return (.repeated path, cs)
  | '[' :: cs => do
    let (path, cs) ← takeKey? nestingLimit cs
    let cs ← afterLine? (← after? ']' cs)
    return (.header path, cs)
  | cs => do
    let ((path, value), cs) ← takePair? (takeValue? nestingLimit) cs
    return (.pair path value, ← afterLine? cs)

/-- The lines of a text; `read` are the lines already there, the last one first. -/
def linesFrom : Nat → List Line → List Char → Option (List Line)
  | 0, _, _ => none
  | fuel + 1, read, cs =>
    match skipLayout false cs with
    | [] => some read.reverse
    | cs =>
      match takeLine? cs with
      | some (line, cs) => linesFrom fuel (line :: read) cs
      | none => none

/-- The pairs up to the next header, and the lines from there on. -/
def leadingPairs : List Line → List (List String × Toml) × List Line
  | .pair path value :: lines =>
    let (pairs, rest) := leadingPairs lines
    ((path, value) :: pairs, rest)
  | lines => ([], lines)

/-- Writes the tables of the headers among some lines; pairs before the first header are left out.
-/
def writeLines? : List Line → Table → Option Table
  | [], root => some root
  | .pair _ _ :: lines, root => writeLines? lines root
  | .header path :: lines, root =>
    match root.writeTable? path (leadingPairs lines).1 with
    | some root => writeLines? lines root
    | none => none
  | .repeated path :: lines, root =>
    match root.appendTable? path (leadingPairs lines).1 with
    | some root => writeLines? lines root
    | none => none

/-- A text without a byte order mark in front. -/
def skipMark : List Char → List Char
  | '\ufeff' :: cs => cs
  | cs => cs

/-- The entries of the document that a text is. -/
def read? (source : String) : Option (List (String × Toml)) := do
  let cs := skipMark source.toList
  let lines ← linesFrom (cs.length + 1) [] cs
  let root ← Table.blank.assignAll? (leadingPairs lines).1
  let root ← writeLines? lines root
  return Item.entriesToToml root.entries

end CallScript.Toml
