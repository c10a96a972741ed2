import CallScript.Decimal.Binary
import CallScript.Text.Escape
import CallScript.Toml.Basic

/-!
# Keys, strings and numbers of TOML

Readers for the parts of a TOML document that have no parts themselves.  A reader takes what it
reads off the front of a text and gives the rest; it gives nothing if the text does not start with
what it reads.
-/

namespace CallScript.Toml

/-- Takes a value off the front of a text. -/
abbrev Reader (α : Type) := List Char → Option (α × List Char)

/-! ## Layout -/

/-- A blank within a line. -/
def isIndent (c : Char) : Bool :=
  c = ' ' || c = '\t'

/-- A character that comments and strings may contain: a tab, or one that is no control character.
-/
def isPrintable (c : Char) : Bool :=
  c = '\t' || (' ' ≤ c && c ≤ '~') || 0x80 ≤ c.toNat

/-- A text without the blanks in front of it. -/
def skipIndent (cs : List Char) : List Char :=
  cs.dropWhile isIndent

/-- What follows a line break. -/
def afterBreak? : List Char → Option (List Char)
  | '\n' :: cs => some cs
  | '\r' :: '\n' :: cs => some cs
  | _ => none

/-- A text without the blanks, line breaks and comments in front of it.  `inComment` says whether
the text starts inside a comment. -/
def skipLayout (inComment : Bool) : List Char → List Char
  | [] => []
  | '\n' :: cs => skipLayout false cs
  | '\r' :: '\n' :: cs => skipLayout false cs
  | c :: cs =>
    if inComment then if isPrintable c then skipLayout true cs else c :: cs
    else if c = '#' then skipLayout true cs
    else if isIndent c then skipLayout false cs
    else c :: cs

/-- A text without the blanks and line breaks in front of it. -/
def skipBlankLines : List Char → List Char
  | [] => []
  | '\n' :: cs => skipBlankLines cs
  | '\r' :: '\n' :: cs => skipBlankLines cs
  | c :: cs => if isIndent c then skipBlankLines cs else c :: cs

/-- What follows the end of a line: blanks, perhaps a comment, and a line break or the end of the
text. -/
def afterLine? (cs : List Char) : Option (List Char) :=
  let rest := match skipIndent cs with
    | '#' :: comment => comment.dropWhile isPrintable
    | rest => rest
  match rest with
  | [] => some []
  | rest => afterBreak? rest

/-! ## Strings -/

/-- The number that a list of digits spells in a base. -/
def baseValue (base : Nat) (cs : List Char) : Nat :=
  cs.foldl (fun n c => base * n + (hexValue? c).getD 0) 0

/-- The character with a code of exactly `count` hexadecimal digits. -/
def takeCode? (count : Nat) : Reader Char := fun cs => do
  let digits := cs.take count
  guard (digits.length = count && digits.all fun c => (hexValue? c).isSome)
  let code := baseValue 16 digits
  guard (decide code.isValidChar)
  return (Char.ofNat code, cs.drop count)

/-- The character an escape stands for, after its backslash. -/
def takeEscape? : Reader Char
  | 'b' :: cs => some ('\x08', cs)
  | 't' :: cs => some ('\t', cs)
  | 'n' :: cs => some ('\n', cs)
  | 'f' :: cs => some ('\x0c', cs)
  | 'r' :: cs => some ('\r', cs)
  | '\x22' :: cs => some ('\x22', cs)
  | '\\' :: cs => some ('\\', cs)
  | 'u' :: cs => takeCode? 4 cs
  | 'U' :: cs => takeCode? 8 cs
  | _ => none

/-- The rest of a string in quotation marks; `read` are the characters already there, the last one
first. -/
def basicFrom : Nat → List Char → Reader String
  | fuel + 1, read, c :: cs =>
    if c = '\x22' then some (String.ofList read.reverse, cs)
    else if c = '\\' then
      match takeEscape? cs with
      | some (d, cs) => basicFrom fuel (d :: read) cs
      | none => none
    else if isPrintable c then basicFrom fuel (c :: read) cs
    else none
  | _, _, _ => none

/-- Closes a string over several lines: of up to five marks in a row the last three are its end. -/
def closeLong (mark : Char) (read cs : List Char) : String × List Char :=
  match cs with
  | a :: b :: rest =>
    if a = mark && b = mark then (String.ofList (b :: a :: read).reverse, rest)
    else if a = mark then (String.ofList (a :: read).reverse, b :: rest)
    else (String.ofList read.reverse, cs)
  | [a] =>
    if a = mark then (String.ofList (a :: read).reverse, [])
    else (String.ofList read.reverse, cs)
  | [] => (String.ofList read.reverse, cs)

/-- The rest of a string over several lines, between marks of the given kind.  Escapes stand only
between quotation marks, where a backslash at the end of a line also takes away what is blank after
it. -/
def longFrom (mark : Char) : Nat → List Char → Reader String
  | fuel + 1, read, c :: cs =>
    if [c] ++ cs.take 2 = [mark, mark, mark] then some (closeLong mark read (cs.drop 2))
    else if c = '\\' && mark = '\x22' then
      match afterBreak? (skipIndent cs) with
      | some rest => longFrom mark fuel read (skipBlankLines rest)
      | none =>
        match takeEscape? cs with
        | some (d, cs) => longFrom mark fuel (d :: read) cs
        | none => none
    else
      match afterBreak? (c :: cs) with
      | some rest => longFrom mark fuel ('\n' :: read) rest
      | none => if isPrintable c then longFrom mark fuel (c :: read) cs else none
  | _, _, _ => none

/-- A string over several lines after its opening marks; a line break right there does not count. -/
def takeLong? (mark : Char) : Reader String := fun cs =>
  longFrom mark (cs.length + 1) [] ((afterBreak? cs).getD cs)

/-- A string between apostrophes, after the first one. -/
def takeLiteral? : Reader String := fun cs =>
  let body := fun c => isPrintable c && c != '\x27'
  match cs.dropWhile body with
  | '\x27' :: rest => some (String.ofList (cs.takeWhile body), rest)
  | _ => none

/-- A string on one line. -/
def takeShort? : Reader String
  | '\x22' :: cs => basicFrom (cs.length + 1) [] cs
  | '\x27' :: cs => takeLiteral? cs
  | _ => none

/-- A string. -/
def takeString? : Reader String
  | '\x22' :: '\x22' :: '\x22' :: cs => takeLong? '\x22' cs
  | '\x27' :: '\x27' :: '\x27' :: cs => takeLong? '\x27' cs
  | cs => takeShort? cs

/-! ## Keys -/

/-- A character of a key that needs no quotation marks. -/
def isBare (c : Char) : Bool :=
  c.isAlphanum || c = '_' || c = '-'

/-- A key without dots. -/
def takePart? : Reader String := fun cs =>
  match cs.takeWhile isBare with
  | [] => takeShort? cs
  | bare => some (String.ofList bare, cs.dropWhile isBare)

/-- A key of at most so many parts, dots between them, with the blanks around each part. -/
def takeKey? : Nat → Reader (List String)
  | 0, _ => none
  | limit + 1, cs =>
    match takePart? (skipIndent cs) with
    | none => none
    | some (part, cs) =>
      match skipIndent cs with
      | '.' :: cs => (takeKey? limit cs).map fun (parts, rest) => (part :: parts, rest)
      | cs => some ([part], cs)

/-! ## Numbers -/

/-- Digits after the first one, single underscores allowed between digits. -/
def moreGrouped? (accepts : Char → Bool) : Reader (List Char)
  | [] => some ([], [])
  | '_' :: c :: cs =>
    if accepts c then (moreGrouped? accepts cs).map fun (digits, rest) => (c :: digits, rest)
    else none
  | c :: cs =>
    if c = '_' then none
    else if accepts c then (moreGrouped? accepts cs).map fun (digits, rest) => (c :: digits, rest)
    else some ([], c :: cs)

/-- Digits, single underscores allowed between them, as if these were not there. -/
def takeGrouped? (accepts : Char → Bool) : Reader (List Char)
  | [] => none
  | c :: cs =>
    if accepts c then (moreGrouped? accepts cs).map fun (digits, rest) => (c :: digits, rest)
    else none

/-- The digits before a point: a lone zero, or digits that do not start with one. -/
def takeWhole? : Reader (List Char)
  | '0' :: cs => some (['0'], cs)
  | cs => takeGrouped? isDigit cs

/-- The point and the digits after it, nothing if there is no point. -/
def takePoint? : Reader (List Char)
  | '.' :: cs => (takeGrouped? isDigit cs).map fun (digits, rest) => ('.' :: digits, rest)
  | cs => some ([], cs)

/-- The exponent part, nothing if there is none. -/
def takePower? : Reader (List Char)
  | [] => some ([], [])
  | mark :: cs =>
    if mark = 'e' || mark = 'E' then
      let (negative, cs) := takeSign cs
      (takeGrouped? isDigit cs).map fun (digits, rest) =>
        (mark :: (if negative then '-' else '+') :: digits, rest)
    else some ([], mark :: cs)

/-- A floating-point number: a numeral with a point or an exponent, or a word for what is not
finite. Numerals beyond the largest double are refused. -/
def takeFloat? : Reader Float := fun cs =>
  let (negative, rest) := takeSign cs
  match rest with
  | 'i' :: 'n' :: 'f' :: rest => some (withSign negative (1.0 / 0.0), rest)
  | 'n' :: 'a' :: 'n' :: rest => some (0.0 / 0.0, rest)
  | _ => do
    let (whole, rest) ← takeWhole? rest
    let (fraction, rest) ← takePoint? rest
    let (exponent, rest) ← takePower? rest
    guard (!(fraction.isEmpty && exponent.isEmpty))
    let value := withSign negative (numeralValue (whole ++ fraction ++ exponent))
    guard (!(value == 1.0 / 0.0))
    return (value, rest)

/-- The integers that fit into 64 bits. -/
def fits (n : Int) : Bool :=
  Int64.minValue.toInt ≤ n && n ≤ Int64.maxValue.toInt

/-- Whether a character is a digit in a base. -/
def isBaseDigit (base : Nat) (c : Char) : Bool :=
  match hexValue? c with
  | some n => n < base
  | none => false

/-- An integer after the mark for its base. -/
def takeBased? (base : Nat) : Reader Int := fun cs => do
  let (digits, rest) ← takeGrouped? (isBaseDigit base) cs
  let value : Int := baseValue base digits
  guard (fits value)
  return (value, rest)

/-- An integer. -/
def takeInteger? : Reader Int
  | '0' :: 'x' :: cs => takeBased? 16 cs
  | '0' :: 'o' :: cs => takeBased? 8 cs
  | '0' :: 'b' :: cs => takeBased? 2 cs
  | cs => do
    let (negative, rest) := takeSign cs
    let (digits, rest) ← takeWhole? rest
    let value := signed negative (digitsValue digits)
    guard (fits value)
    return (value, rest)

/-- A number, a date or a time. -/
def takeNumeric? : Reader Toml := fun cs =>
  match takeDatetime? .strict cs with
  | some (d, rest) => some (.datetime d, rest)
  | none =>
    match takeFloat? cs with
    | some (x, rest) => some (.float x, rest)
    | none => (takeInteger? cs).map fun (n, rest) => (.integer n, rest)

/-- A value without parts. -/
def takeScalar? : Reader Toml
  | [] => none
  | c :: cs =>
    if c = '\x22' || c = '\x27' then
      (takeString? (c :: cs)).map fun (s, rest) => (.string s, rest)
    else if "true".toList.isPrefixOf (c :: cs) then some (.boolean true, cs.drop 3)
    else if "false".toList.isPrefixOf (c :: cs) then some (.boolean false, cs.drop 4)
    else takeNumeric? (c :: cs)

end CallScript.Toml
