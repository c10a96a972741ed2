import CallScript.Text.Scan
import CallScript.Decimal.Numeral

/-!
# Tokens of programs

Braces, parentheses, semicolons, commas, string and number literals, and names.  Literals keep their
text: a string its quotation marks, a number its sign.  Blanks and comments from `/*` to the first
`*/` separate tokens.
-/

namespace CallScript.Program

/-- A token of a program. -/
inductive Token where
  | openBrace
  | closeBrace
  | openParen
  | closeParen
  | semicolon
  | comma
  | string (text : String)
  | number (text : String)
  | name (text : String)
deriving Repr, DecidableEq

namespace Token

/-- The kinds of tokens, in the order in which diagnostics list them. -/
inductive Kind where
  | openBrace
  | closeBrace
  | openParen
  | closeParen
  | semicolon
  | comma
  | string
  | number
  | name
deriving Repr, DecidableEq

/-- All kinds, in the order in which diagnostics list them. -/
def Kind.all : List Kind :=
  [.openBrace, .closeBrace, .openParen, .closeParen, .semicolon, .comma, .string, .number, .name]

/-- The word for a kind in a list of what could have followed. -/
def Kind.word : Kind → String
  | .openBrace => "\"\x7b\""
  | .closeBrace => "\"\x7d\""
  | .openParen => "\"(\""
  | .closeParen => "\")\""
  | .semicolon => "\";\""
  | .comma => "\",\""
  | .string => "\"string\""
  | .number => "\"number\""
  | .name => "\"ident\""

/-- The kind of a token. -/
def kind : Token → Kind
  | .openBrace => .openBrace
  | .closeBrace => .closeBrace
  | .openParen => .openParen
  | .closeParen => .closeParen
  | .semicolon => .semicolon
  | .comma => .comma
  | .string _ => .string
  | .number _ => .number
  | .name _ => .name

/-- The text of a token. -/
def text : Token → String
  | .openBrace => "\x7b"
  | .closeBrace => "\x7d"
  | .openParen => "("
  | .closeParen => ")"
  | .semicolon => ";"
  | .comma => ","
  | .string text => text
  | .number text => text
  | .name text => text

/-- The characters up to and with the first `*/`, and the rest. -/
def takeComment? : List Char → Option (List Char × List Char)
  | [] => none
  | '*' :: '/' :: cs => some (['*', '/'], cs)
  | c :: cs => (takeComment? cs).map fun (body, rest) => (c :: body, rest)

/-- The longest number literal at the front of a text: an optional sign and a numeral. -/
def takeNumber? (cs : List Char) : Option (List Char × List Char) :=
  match cs with
  | '+' :: rest => (takeNumeral? rest).map fun (numeral, rest) => ('+' :: numeral, rest)
  | '-' :: rest => (takeNumeral? rest).map fun (numeral, rest) => ('-' :: numeral, rest)
  | cs => takeNumeral? cs

/-- The piece of a program that starts with `c`. -/
def piece (c : Char) (cs : List Char) : Piece Token :=
  match c with
  | '\x7b' => .mark .openBrace c cs
  | '\x7d' => .mark .closeBrace c cs
  | '(' => .mark .openParen c cs
  | ')' => .mark .closeParen c cs
  | ';' => .mark .semicolon c cs
  | ',' => .mark .comma c cs
  | '\x22' => .ofString (fun lexeme => .string (String.ofList lexeme)) c cs
  | '/' =>
    match cs with
    | '*' :: cs =>
      match takeComment? cs with
      | some (body, rest) => .gap ('/' :: '*' :: body) rest
      | none => .bad .unterminatedComment ('/' :: '*' :: cs)
    | _ => .stray c
  | c =>
    if isGap c then .gap (c :: cs.takeWhile isGap) (cs.dropWhile isGap)
    else if isNameStart c then
      let lexeme := c :: cs.takeWhile isNameChar
      .token (.name (String.ofList lexeme)) lexeme (cs.dropWhile isNameChar)
    else match takeNumber? (c :: cs) with
      | some (lexeme, rest) => .token (.number (String.ofList lexeme)) lexeme rest
      | none => .stray c

end Token

/-- The tokens of a program text, or the first place where none stands. -/
def scan (source : String) : Except SyntaxError (List (Placed Token)) :=
  CallScript.scan Token.piece source

end CallScript.Program
