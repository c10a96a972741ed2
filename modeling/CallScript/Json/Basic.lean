import CallScript.Decimal.Layout
import CallScript.Text.Escape

/-!
# JSON

JSON trees and their text.  Numbers, strings and the keys of objects are kept as they are written, a
string without its quotation marks, so that a tree says exactly what stands in a text.
`Json.ofString` writes a text as a string.  `Json.compact` writes a tree without blanks,
`Json.pretty` with one member a line.  Both writers put the text in front of what follows it, which
keeps them linear.
-/

namespace CallScript

/-- A JSON tree.  The keys of an object are literals, as strings are. -/
inductive Json where
  | null
  | bool (value : Bool)
  | number (literal : String)
  | string (literal : String)
  | array (items : List Json)
  | object (members : List (String × Json))

namespace Json

/-- A natural number. -/
def ofNat (n : Nat) : Json :=
  .number (toString n)

/-- A double; JSON writes what is not finite as null. -/
def ofFloat (x : Float) : Json :=
  match Binary.ofFloat x with
  | .finite .. => .number (jsonText x)
  | _ => .null

/-- The four hexadecimal digits of a control character. -/
def controlDigits (n : Nat) : List Char :=
  List.replicate (4 - (hexDigits n).length) '0' ++ hexDigits n

/-- A character of a string. -/
def stringChar (c : Char) : List Char :=
  match c with
  | '\x22' => ['\\', '\x22']
  | '\\' => ['\\', '\\']
  | '\n' => ['\\', 'n']
  | '\r' => ['\\', 'r']
  | '\t' => ['\\', 't']
  | '\x08' => ['\\', 'b']
  | '\x0c' => ['\\', 'f']
  | c => if c.toNat < 0x20 then ['\\', 'u'] ++ controlDigits c.toNat else [c]

/-- The string that stands for a text. -/
def ofString (text : String) : Json :=
  .string (String.ofList (text.toList.flatMap stringChar))

/-- A string literal in its quotation marks, in front of `rest`. -/
def putString (literal : String) (rest : List Char) : List Char :=
  '\x22' :: literal.toList ++ '\x22' :: rest

/-- The word for a truth value. -/
def boolWord (value : Bool) : String :=
  if value then "true" else "false"

/-! ## Compact text -/

mutual

/-- A tree without blanks, in front of `rest`. -/
def putCompact : Json → List Char → List Char
  | .null, rest => "null".toList ++ rest
  | .bool value, rest => (boolWord value).toList ++ rest
  | .number literal, rest => literal.toList ++ rest
  | .string literal, rest => putString literal rest
  | .array [], rest => '[' :: ']' :: rest
  | .array (item :: items), rest => '[' :: putCompact item (putCompactItems items rest)
  | .object [], rest => '\x7b' :: '\x7d' :: rest
  | .object ((key, value) :: members), rest =>
    '\x7b' :: putString key (':' :: putCompact value (putCompactMembers members rest))

/-- The items after the first one and the closing bracket, in front of `rest`. -/
def putCompactItems : List Json → List Char → List Char
  | [], rest => ']' :: rest
  | item :: items, rest => ',' :: putCompact item (putCompactItems items rest)

/-- The members after the first one and the closing brace, in front of `rest`. -/
def putCompactMembers : List (String × Json) → List Char → List Char
  | [], rest => '\x7d' :: rest
  | (key, value) :: members, rest =>
    ',' :: putString key (':' :: putCompact value (putCompactMembers members rest))

end

/-- A tree as text without blanks. -/
def compact (json : Json) : String :=
  String.ofList (json.putCompact [])

/-! ## Pretty text -/

/-- A new line at an indentation, in front of `rest`. -/
def newLine (indent : Nat) (rest : List Char) : List Char :=
  '\n' :: List.replicate (2 * indent) ' ' ++ rest

mutual

/-- A tree with one item or member a line, in front of `rest`. -/
def putPretty (indent : Nat) : Json → List Char → List Char
  | .null, rest => "null".toList ++ rest
  | .bool value, rest => (boolWord value).toList ++ rest
  | .number literal, rest => literal.toList ++ rest
  | .string literal, rest => putString literal rest
  | .array [], rest => '[' :: ']' :: rest
  | .array (item :: items), rest =>
    '[' :: newLine (indent + 1)
      (putPretty (indent + 1) item (putPrettyItems indent items rest))
  | .object [], rest => '\x7b' :: '\x7d' :: rest
  | .object ((key, value) :: members), rest =>
    '\x7b' :: newLine (indent + 1) (putString key
      (':' :: ' ' :: putPretty (indent + 1) value (putPrettyMembers indent members rest)))

/-- The items after the first one and the closing bracket, in front of `rest`. -/
def putPrettyItems (indent : Nat) : List Json → List Char → List Char
  | [], rest => newLine indent (']' :: rest)
  | item :: items, rest =>
    ',' :: newLine (indent + 1)
      (putPretty (indent + 1) item (putPrettyItems indent items rest))

/-- The members after the first one and the closing brace, in front of `rest`. -/
def putPrettyMembers (indent : Nat) : List (String × Json) → List Char → List Char
  | [], rest => newLine indent ('\x7d' :: rest)
  | (key, value) :: members, rest =>
    ',' :: newLine (indent + 1) (putString key
      (':' :: ' ' :: putPretty (indent + 1) value (putPrettyMembers indent members rest)))

end

/-- A tree as text with one item or member a line, indented by two blanks a level. -/
def pretty (json : Json) : String :=
  String.ofList (json.putPretty 0 [])

end Json

end CallScript
