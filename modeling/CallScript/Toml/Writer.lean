import CallScript.Decimal.Layout
import CallScript.Text.Escape
import CallScript.Toml.Scalar

/-!
# Writing TOML

A table is written as a header, its values one a line, and then its tables.  Arrays with more than
one item have one item a line; an array of tables becomes a repeated header.  Strings are written
between the marks that need the fewest escapes.
-/

namespace CallScript.Toml

/-! ## Strings and keys -/

/-- A control character, other than a tab, that no string contains as it is. -/
def isControl (c : Char) : Bool :=
  (c.toNat < 0x20 && c ≠ '\t') || c.toNat = 0x7f

/-- The longest run of a character. -/
def longestRun (c : Char) (cs : List Char) : Nat :=
  (cs.foldl (fun (longest, current) d =>
    if d = c then (max longest (current + 1), current + 1) else (longest, 0)) (0, 0)).1

/-- Four hexadecimal digits of a control character. -/
def codeDigits (c : Char) : List Char :=
  let digits := (hexDigits c.toNat).map Char.toUpper
  List.replicate (4 - digits.length) '0' ++ digits

/-- A character between quotation marks. -/
def escapeBasic (c : Char) : List Char :=
  match c with
  | '\x08' => ['\\', 'b']
  | '\t' => ['\\', 't']
  | '\n' => ['\\', 'n']
  | '\x0c' => ['\\', 'f']
  | '\r' => ['\\', 'r']
  | '\x22' => ['\\', '\x22']
  | '\\' => ['\\', '\\']
  | c => if isControl c then ['\\', 'u'] ++ codeDigits c else [c]

/-- A string between quotation marks on one line. -/
def basicChars (cs : List Char) : List Char :=
  '\x22' :: cs.flatMap escapeBasic ++ ['\x22']

/-- A string between apostrophes on one line. -/
def literalChars (cs : List Char) : List Char :=
  '\x27' :: cs ++ ['\x27']

/-- The characters of a string over several lines between quotation marks: line breaks stand as they
are, and so do quotation marks, of which `run` stand in front, unless there are more than two in a
row. -/
def longBasicBody (run : Nat) : List Char → List Char
  | [] => []
  | '\n' :: cs => '\n' :: longBasicBody 0 cs
  | '\x22' :: cs =>
    if run < 2 then '\x22' :: longBasicBody (run + 1) cs
    else '\\' :: '\x22' :: longBasicBody 0 cs
  | c :: cs => escapeBasic c ++ longBasicBody 0 cs

/-- The line break that opens a string over several lines if it contains one. -/
def openingBreak (cs : List Char) : List Char :=
  if cs.contains '\n' then ['\n'] else []

/-- A string over several lines between quotation marks. -/
def longBasicChars (cs : List Char) : List Char :=
  let marks := List.replicate 3 '\x22'
  marks ++ openingBreak cs ++ longBasicBody 0 cs ++ marks

/-- A string over several lines between apostrophes. -/
def longLiteralChars (cs : List Char) : List Char :=
  let marks := List.replicate 3 '\x27'
  marks ++ openingBreak cs ++ cs ++ marks

/-- A string between the first marks, in order of preference, that need no escapes. -/
def stringChars (cs : List Char) : List Char :=
  let control := cs.any fun c => isControl c && c ≠ '\n'
  let lineBreak := cs.contains '\n'
  let backslash := cs.contains '\\'
  let quotes := longestRun '\x22' cs
  let apostrophes := longestRun '\x27' cs
  if !control && !backslash && !lineBreak && quotes = 0 then basicChars cs
  else if !control && !lineBreak && apostrophes = 0 then literalChars cs
  else if !control && !backslash && quotes ≤ 2 then longBasicChars cs
  else if !control && apostrophes ≤ 2 then longLiteralChars cs
  else if lineBreak then longBasicChars cs
  else basicChars cs

/-- A key: bare if it can be, else between the first marks that need no escapes. -/
def keyChars (key : String) : List Char :=
  let cs := key.toList
  if !cs.isEmpty && cs.all isBare then cs
  else
    let control := cs.any isControl
    if !control && !cs.contains '\\' && !cs.contains '\x22' then basicChars cs
    else if !control && !cs.contains '\x27' then literalChars cs
    else basicChars cs

/-- A dotted key. -/
def pathChars (path : List String) : List Char :=
  List.intercalate ['.'] (path.map keyChars)

/-! ## Values on a line -/

mutual

/-- A value after an equals sign or inside an array. -/
def inlineChars : Toml → List Char
  | .string s => stringChars s.toList
  | .integer n => (toString n).toList
  | .float x => (tomlText x).toList
  | .boolean b => (if b then "true" else "false").toList
  | .datetime d => d.render.toList
  | .array [] => ['[', ']']
  | .array [item] => '[' :: inlineChars item ++ [']']
  | .array items => '[' :: itemLines items ++ ['\n', ']']
  | .table [] => ['\x7b', '\x7d']
  | .table ((key, value) :: entries) =>
    ['\x7b', ' '] ++ keyChars key ++ [' ', '=', ' '] ++ inlineChars value ++ inlinePairs entries

/-- The items of an array, one a line. -/
def itemLines : List Toml → List Char
  | [] => []
  | item :: items => "\n    ".toList ++ inlineChars item ++ ',' :: itemLines items

/-- The pairs of an inline table after the first one, and its closing brace. -/
def inlinePairs : List (String × Toml) → List Char
  | [] => [' ', '\x7d']
  | (key, value) :: entries =>
    [',', ' '] ++ keyChars key ++ [' ', '=', ' '] ++ inlineChars value ++ inlinePairs entries

end

/-! ## Tables -/

/-- Whether a value is written as an array of tables with repeated headers. -/
def isTableArray : Toml → Bool
  | .array items => !items.isEmpty && items.all isTable
  | _ => false

/-- Whether a value is written on a line of its table. -/
def isInline (value : Toml) : Bool :=
  !value.isTable && !isTableArray value

/-- The lines of a table. -/
def valueLines (entries : List (String × Toml)) : List Char :=
  (entries.filter fun (_, value) => isInline value).flatMap fun (key, value) =>
    keyChars key ++ [' ', '=', ' '] ++ inlineChars value ++ ['\n']

/-- The header of a table.  A table that has only tables in it needs none. -/
def headerLine (path : List String) (entries : List (String × Toml)) : List Char :=
  if !entries.isEmpty && entries.all (fun (_, value) => !isInline value) then []
  else '\n' :: '[' :: pathChars path ++ [']', '\n']

/-- The repeated header of a table in an array. -/
def repeatedLine (path : List String) : List Char :=
  '\n' :: '[' :: '[' :: pathChars path ++ [']', ']', '\n']

mutual

/-- What is written for a value at a path below the lines of the table around it: the table that it
is, or the tables in it. -/
def valueSections (path : List String) : Toml → List Char
  | .table entries => headerLine path entries ++ valueLines entries ++ sections path entries
  | .array items => if items.all isTable then repeatedSections path items else []
  | _ => []

/-- The tables among some entries of the table at a path. -/
def sections (path : List String) : List (String × Toml) → List Char
  | [] => []
  | (key, value) :: entries => valueSections (path ++ [key]) value ++ sections path entries

/-- The tables of an array at a path. -/
def repeatedSections (path : List String) : List Toml → List Char
  | [] => []
  | .table entries :: items =>
    repeatedLine path ++ valueLines entries ++ sections path entries ++ repeatedSections path items
  | _ :: items => repeatedSections path items

end

/-- The section of a table at the top of a document: its header, its lines and the tables in it. -/
def topSection (key : String) (entries : List (String × Toml)) : List Char :=
  headerLine [key] entries ++ valueLines entries ++ sections [key] entries

end CallScript.Toml
