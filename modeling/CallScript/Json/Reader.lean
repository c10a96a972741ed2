import CallScript.Decimal.Numeral
import CallScript.Json.Basic

/-!
# Reading JSON

`Json.read` reads a whole text as one tree, with blanks around tokens.  Literals are kept as they
stand.  `Json.decode?` is the text that a string literal stands for, and `Json.literalValue` the
double a reader takes a number literal for.  That reader holds as many digits as fit 64 bits and
then scales once by a power of ten, so its answer can differ from the nearest double in the last
place, and it refuses numbers beyond the range of doubles.  A reader also refuses what it needs of a
tree if it is nested deeper than `Json.depthLimit`; `Json.fits` tells whether it can take a tree as
a whole.
-/

namespace CallScript.Json

/-! ## Number literals -/

/-- The digits, with at least one, at the front of a text. -/
def someDigits? (cs : List Char) : Option (List Char × List Char) :=
  match takeDigits cs with
  | ([], _) => none
  | taken => some taken

/-- The digits before the point: a lone zero, or digits that do not start with one. -/
def wholeDigits? (cs : List Char) : Option (List Char × List Char) :=
  match takeDigits cs with
  | (['0'], rest) => some (['0'], rest)
  | ('0' :: _, _) => none
  | ([], _) => none
  | taken => some taken

/-- The point and the digits after it, nothing if there is no point; `none` if no digit follows. -/
def fractionPart? : List Char → Option (List Char × List Char)
  | '.' :: cs => (someDigits? cs).map fun (digits, rest) => ('.' :: digits, rest)
  | cs => some ([], cs)

/-- The exponent part, nothing if there is no mark; `none` if no digit follows the mark. -/
def exponentPart? : List Char → Option (List Char × List Char)
  | [] => some ([], [])
  | mark :: cs =>
    if mark = 'e' || mark = 'E' then
      match cs with
      | '+' :: cs => (someDigits? cs).map fun (digits, rest) => (mark :: '+' :: digits, rest)
      | '-' :: cs => (someDigits? cs).map fun (digits, rest) => (mark :: '-' :: digits, rest)
      | cs => (someDigits? cs).map fun (digits, rest) => (mark :: digits, rest)
    else some ([], mark :: cs)

/-- The number literal at the front of a text. -/
def takeLiteral? (cs : List Char) : Option (List Char × List Char) := do
  let (sign, cs) := match cs with
    | '-' :: cs => (['-'], cs)
    | cs => ([], cs)
  let (whole, cs) ← wholeDigits? cs
  let (fraction, cs) ← fractionPart? cs
  let (exponent, cs) ← exponentPart? cs
  return (sign ++ whole ++ fraction ++ exponent, cs)

/-- The largest significand a reader holds. -/
def significandLimit : Nat := 1 <<< 64 - 1

/-- Appends digits to a significand while it stays within the limit; also counts the digits left. -/
def absorbDigits : Nat → List Char → Nat × Nat
  | significand, [] => (significand, 0)
  | significand, d :: ds =>
    let next := 10 * significand + digitsValue [d]
    if significandLimit < next then (significand, ds.length + 1) else absorbDigits next ds

/-- A power of ten as a double. -/
def powerOfTen (n : Nat) : Float :=
  Float.ofScientific 1 false n

/-- Scales by a power of ten: once if its exponent is at most 308 either way, in steps below that.
Two steps take any significand to zero, so `fuel` need not exceed four. -/
def scaleByTen : Nat → Float → Int → Option Float
  | 0, x, _ => some x
  | fuel + 1, x, exponent =>
    if exponent.natAbs ≤ 308 then
      if 0 ≤ exponent then
        let scaled := x * powerOfTen exponent.natAbs
        if scaled.isInf then none else some scaled
      else some (x / powerOfTen exponent.natAbs)
    else if x == 0.0 then some x
    else if 0 ≤ exponent then none
    else scaleByTen fuel (x / powerOfTen 308) (exponent + 308)

/-- The double a reader takes a number literal for; `none` beyond the range of doubles. -/
def literalValue (literal : String) : Option Float :=
  let (negative, cs) := takeSign literal.toList
  let (whole, cs) := takeDigits cs
  let (significand, dropped) := absorbDigits 0 whole
  match cs with
  | [] =>
    if dropped = 0 then some (withSign negative (Float.ofNat significand))
    else (scaleByTen 4 (Float.ofNat significand) dropped).map (withSign negative)
  | cs =>
    let (fraction, cs) := match cs with
      | '.' :: cs => takeDigits cs
      | cs => ([], cs)
    let (significand, ignored) := absorbDigits significand fraction
    let used : Nat := fraction.length - ignored
    let exponent : Int := (dropped : Int) - (used : Int) + exponentValue cs
    (scaleByTen 4 (Float.ofNat significand) exponent).map (withSign negative)

/-! ## String literals -/

/-- Whether a character after a backslash is an escape by itself. -/
def isShortEscape (c : Char) : Bool :=
  ['\x22', '\\', '/', 'b', 'f', 'n', 'r', 't'].contains c

/-- The value of four hexadecimal digits. -/
def unitValue? (a b c d : Char) : Option Nat := do
  let a ← hexValue? a
  let b ← hexValue? b
  let c ← hexValue? c
  let d ← hexValue? d
  return ((a * 16 + b) * 16 + c) * 16 + d

/-- The characters of a string literal up to its closing quotation mark, and the rest. -/
def takeString? : List Char → Option (List Char × List Char)
  | [] => none
  | '\x22' :: cs => some ([], cs)
  | '\\' :: 'u' :: a :: b :: c :: d :: cs =>
    if (unitValue? a b c d).isSome then
      (takeString? cs).map fun (chars, rest) => ('\\' :: 'u' :: a :: b :: c :: d :: chars, rest)
    else none
  | '\\' :: c :: cs =>
    if isShortEscape c then
      (takeString? cs).map fun (chars, rest) => ('\\' :: c :: chars, rest)
    else none
  | c :: cs =>
    if c.toNat < 0x20 || c = '\\' then none
    else (takeString? cs).map fun (chars, rest) => (c :: chars, rest)

/-- The character that a short escape stands for. -/
def shortEscape (c : Char) : Char :=
  match c with
  | 'b' => '\x08'
  | 'f' => '\x0c'
  | 'n' => '\n'
  | 'r' => '\r'
  | 't' => '\t'
  | c => c

/-- Whether a code unit is the first of a surrogate pair. -/
def isHighUnit (unit : Nat) : Bool :=
  0xd800 ≤ unit && unit ≤ 0xdbff

/-- Whether a code unit is the second of a surrogate pair. -/
def isLowUnit (unit : Nat) : Bool :=
  0xdc00 ≤ unit && unit ≤ 0xdfff

/-- The character that a surrogate pair stands for. -/
def pairedChar (high low : Nat) : Char :=
  Char.ofNat (0x10000 + (high - 0xd800) * 0x400 + (low - 0xdc00))

/-- The characters that a string literal stands for, with the first unit of a surrogate pair if it
stands in front.  A unit of a pair without the other one stands for no character. -/
def decodeFrom? : Option Nat → List Char → Option (List Char)
  | none, [] => some []
  | some _, [] => none
  | high, '\\' :: 'u' :: a :: b :: c :: d :: cs => do
    let unit ← unitValue? a b c d
    match high with
    | some high =>
      if isLowUnit unit then (decodeFrom? none cs).map (pairedChar high unit :: ·) else none
    | none =>
      if isHighUnit unit then decodeFrom? (some unit) cs
      else if isLowUnit unit then none
      else (decodeFrom? none cs).map (Char.ofNat unit :: ·)
  | some _, _ :: _ => none
  | none, '\\' :: c :: cs => (decodeFrom? none cs).map (shortEscape c :: ·)
  | none, c :: cs => (decodeFrom? none cs).map (c :: ·)

/-- The text that a string literal stands for, if it stands for one. -/
def decode? (literal : String) : Option String :=
  (decodeFrom? none literal.toList).map String.ofList

/-! ## Trees -/

/-- The blanks between tokens. -/
def isSpace (c : Char) : Bool :=
  c = ' ' || c = '\n' || c = '\t' || c = '\r'

/-- A text without the blanks in front. -/
def skipSpace (cs : List Char) : List Char :=
  cs.dropWhile isSpace

/-- Drops a word from the front of a text. -/
def dropWord? : List Char → List Char → Option (List Char)
  | [], cs => some cs
  | w :: ws, c :: cs => if w = c then dropWord? ws cs else none
  | _ :: _, [] => none

mutual

/-- The tree at the front of a text. -/
def takeTree? : Nat → List Char → Option (Json × List Char)
  | 0, _ => none
  | fuel + 1, cs =>
    match skipSpace cs with
    | '\x22' :: cs =>
      (takeString? cs).map fun (literal, rest) => (.string (String.ofList literal), rest)
    | '[' :: cs =>
      match skipSpace cs with
      | ']' :: rest => some (.array [], rest)
      | cs => (takeItems? fuel cs).map fun (items, rest) => (.array items, rest)
    | '\x7b' :: cs =>
      match skipSpace cs with
      | '\x7d' :: rest => some (.object [], rest)
      | cs => (takeMembers? fuel cs).map fun (members, rest) => (.object members, rest)
    | 'n' :: cs => (dropWord? ['u', 'l', 'l'] cs).map fun rest => (.null, rest)
    | 't' :: cs => (dropWord? ['r', 'u', 'e'] cs).map fun rest => (.bool true, rest)
    | 'f' :: cs => (dropWord? ['a', 'l', 's', 'e'] cs).map fun rest => (.bool false, rest)
    | cs => (takeLiteral? cs).map fun (literal, rest) => (.number (String.ofList literal), rest)

/-- One or more items and the closing bracket at the front of a text. -/
def takeItems? : Nat → List Char → Option (List Json × List Char)
  | 0, _ => none
  | fuel + 1, cs => do
    let (item, cs) ← takeTree? fuel cs
    match skipSpace cs with
    | ']' :: rest => return ([item], rest)
    | ',' :: cs =>
      let (items, rest) ← takeItems? fuel cs
      return (item :: items, rest)
    | _ => none

/-- One or more members and the closing brace at the front of a text. -/
def takeMembers? : Nat → List Char → Option (List (String × Json) × List Char)
  | 0, _ => none
  | fuel + 1, cs =>
    match skipSpace cs with
    | '\x22' :: cs => do
      let (key, cs) ← takeString? cs
      match skipSpace cs with
      | ':' :: cs =>
        let (value, cs) ← takeTree? fuel cs
        let member := (String.ofList key, value)
        match skipSpace cs with
        | '\x7d' :: rest => return ([member], rest)
        | ',' :: cs =>
          let (members, rest) ← takeMembers? fuel cs
          return (member :: members, rest)
        | _ => none
      | _ => none
    | _ => none

end

/-- Reads a whole text as one tree. -/
def read (text : String) : Option Json :=
  let cs := text.toList
  match takeTree? (2 * cs.length + 2) cs with
  | some (json, rest) => if (skipSpace rest).isEmpty then some json else none
  | none => none

/-! ## Fields -/

/-- The value of the only member with a key; `none` if there is no such member or more than one. -/
def only? (key : String) (members : List (String × Json)) : Option Json :=
  match members.filter fun member => member.1 = key with
  | [(_, value)] => some value
  | _ => none

/-- The members of an object under the texts of their keys. -/
def named? (members : List (String × Json)) : Option (List (String × Json)) :=
  members.mapM fun (literal, value) => (decode? literal).map fun key => (key, value)

/-- The values of fields: members of an object, whatever other members there are, or the items of an
array in the order of the fields. -/
def fields? (keys : List String) : Json → Option (List Json)
  | .object members => do
    let members ← named? members
    keys.mapM fun key => only? key members
  | .array items => if items.length = keys.length then some items else none
  | _ => none

/-! ## Limits -/

/-- The deepest nesting of arrays and objects that a reader takes. -/
def depthLimit : Nat := 127

mutual

/-- Whether a tree has no more than `depth` arrays and objects inside each other, every number in it
is in the range of doubles, and every string and key in it stands for a text. -/
def fits : Nat → Json → Bool
  | _, .number literal => (literalValue literal).isSome
  | _, .string literal => (decode? literal).isSome
  | 0, .array _ => false
  | depth + 1, .array items => itemsFit depth items
  | 0, .object _ => false
  | depth + 1, .object members => membersFit depth members
  | _, _ => true

/-- Whether every tree in a list fits. -/
def itemsFit (depth : Nat) : List Json → Bool
  | [] => true
  | item :: items => fits depth item && itemsFit depth items

/-- Whether the key and the value of every member in a list fit. -/
def membersFit (depth : Nat) : List (String × Json) → Bool
  | [] => true
  | (key, value) :: members =>
    (decode? key).isSome && fits depth value && membersFit depth members

end

end CallScript.Json
