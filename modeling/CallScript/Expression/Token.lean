import CallScript.Decimal.Layout
import CallScript.Decimal.Numeral
import CallScript.Text.Scan

/-!
# Tokens of expressions

Keywords, operators, delimiters, numbers, strings in either kind of quotation marks, and names.  A
number token carries its value and a string token the text its escapes stand for.
-/

namespace CallScript.Expression

/-- A token of an expression. -/
inductive Token where
  | true_
  | false_
  | none_
  | and_
  | or_
  | not_
  | in_
  | is_
  | if_
  | else_
  | for_
  | lambda_
  | plus
  | minus
  | star
  | doubleStar
  | slash
  | doubleSlash
  | percent
  | at_
  | caret
  | ampersand
  | pipe
  | tilde
  | shiftLeft
  | shiftRight
  | less
  | greater
  | lessEqual
  | greaterEqual
  | equalEqual
  | notEqual
  | equal
  | openParen
  | closeParen
  | openBracket
  | closeBracket
  | openBrace
  | closeBrace
  | comma
  | colon
  | dot
  | number (value : Float)
  | string (text : String)
  | name (name : String)

namespace Token

/-- The text of a token in a diagnostic. -/
def text : Token → String
  | .true_ => "True"
  | .false_ => "False"
  | .none_ => "None"
  | .and_ => "and"
  | .or_ => "or"
  | .not_ => "not"
  | .in_ => "in"
  | .is_ => "is"
  | .if_ => "if"
  | .else_ => "else"
  | .for_ => "for"
  | .lambda_ => "lambda"
  | .plus => "+"
  | .minus => "-"
  | .star => "*"
  | .doubleStar => "**"
  | .slash => "/"
  | .doubleSlash => "//"
  | .percent => "%"
  | .at_ => "@"
  | .caret => "^"
  | .ampersand => "&"
  | .pipe => "|"
  | .tilde => "~"
  | .shiftLeft => "<<"
  | .shiftRight => ">>"
  | .less => "<"
  | .greater => ">"
  | .lessEqual => "<="
  | .greaterEqual => ">="
  | .equalEqual => "=="
  | .notEqual => "!="
  | .equal => "="
  | .openParen => "("
  | .closeParen => ")"
  | .openBracket => "["
  | .closeBracket => "]"
  | .openBrace => "\x7b"
  | .closeBrace => "\x7d"
  | .comma => ","
  | .colon => ":"
  | .dot => "."
  | .number value => plainText value
  | .string contents => escaped contents
  | .name word => word

/-- The token of a word: a keyword, or else a name. -/
def ofWord (word : String) : Token :=
  match word with
  | "True" => .true_
  | "False" => .false_
  | "None" => .none_
  | "and" => .and_
  | "or" => .or_
  | "not" => .not_
  | "in" => .in_
  | "is" => .is_
  | "if" => .if_
  | "else" => .else_
  | "for" => .for_
  | "lambda" => .lambda_
  | word => .name word

/-- The character an escape stands for, `none` if the backslash stays. -/
def unescapeChar? : Char → Option Char
  | 'n' => some '\n'
  | 't' => some '\t'
  | 'r' => some '\r'
  | '0' => some '\x00'
  | '\\' => some '\\'
  | '\x27' => some '\x27'
  | '\x22' => some '\x22'
  | _ => none

/-- The characters that the inside of a string literal stands for. -/
def unescape : List Char → List Char
  | [] => []
  | '\\' :: [] => ['\\']
  | '\\' :: c :: cs =>
    match unescapeChar? c with
    | some d => d :: unescape cs
    | none => '\\' :: c :: unescape cs
  | c :: cs => c :: unescape cs

/-- The token of a string literal with its quotation marks. -/
def ofString (lexeme : List Char) : Token :=
  .string (String.ofList (unescape (lexeme.drop 1).dropLast))

/-- An operator or a delimiter at the front of a text: the longest that stands there. -/
def ofMark? (c : Char) (cs : List Char) : Option (Token × List Char × List Char) :=
  match c, cs with
  | '*', '*' :: rest => some (.doubleStar, ['*', '*'], rest)
  | '/', '/' :: rest => some (.doubleSlash, ['/', '/'], rest)
  | '<', '<' :: rest => some (.shiftLeft, ['<', '<'], rest)
  | '>', '>' :: rest => some (.shiftRight, ['>', '>'], rest)
  | '<', '=' :: rest => some (.lessEqual, ['<', '='], rest)
  | '>', '=' :: rest => some (.greaterEqual, ['>', '='], rest)
  | '=', '=' :: rest => some (.equalEqual, ['=', '='], rest)
  | '!', '=' :: rest => some (.notEqual, ['!', '='], rest)
  | '+', rest => some (.plus, ['+'], rest)
  | '-', rest => some (.minus, ['-'], rest)
  | '*', rest => some (.star, ['*'], rest)
  | '/', rest => some (.slash, ['/'], rest)
  | '%', rest => some (.percent, ['%'], rest)
  | '@', rest => some (.at_, ['@'], rest)
  | '^', rest => some (.caret, ['^'], rest)
  | '&', rest => some (.ampersand, ['&'], rest)
  | '|', rest => some (.pipe, ['|'], rest)
  | '~', rest => some (.tilde, ['~'], rest)
  | '<', rest => some (.less, ['<'], rest)
  | '>', rest => some (.greater, ['>'], rest)
  | '=', rest => some (.equal, ['='], rest)
  | '(', rest => some (.openParen, ['('], rest)
  | ')', rest => some (.closeParen, [')'], rest)
  | '[', rest => some (.openBracket, ['['], rest)
  | ']', rest => some (.closeBracket, [']'], rest)
  | '\x7b', rest => some (.openBrace, ['\x7b'], rest)
  | '\x7d', rest => some (.closeBrace, ['\x7d'], rest)
  | ',', rest => some (.comma, [','], rest)
  | ':', rest => some (.colon, [':'], rest)
  | '.', rest => some (.dot, ['.'], rest)
  | _, _ => none

/-- The piece of an expression that starts with `c`. -/
def piece (c : Char) (cs : List Char) : Piece Token :=
  if isGap c then .gap (c :: cs.takeWhile isGap) (cs.dropWhile isGap)
  else if isNameStart c then
    let lexeme := c :: cs.takeWhile isNameChar
    .token (ofWord (String.ofList lexeme)) lexeme (cs.dropWhile isNameChar)
  else if c = '\x22' || c = '\x27' then .ofString ofString c cs
  else match takeNumeral? (c :: cs) with
    | some (lexeme, rest) => .token (.number (numeralValue lexeme)) lexeme rest
    | none =>
      match ofMark? c cs with
      | some (token, lexeme, rest) => .token token lexeme rest
      | none => .stray c

end Token

/-- The tokens of an expression text, or the first place where none stands. -/
def scan (source : String) : Except SyntaxError (List (Placed Token)) :=
  CallScript.scan Token.piece source

end CallScript.Expression
