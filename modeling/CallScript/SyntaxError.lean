import CallScript.Text.Span
import CallScript.Text.Escape

/-!
# Syntax errors

A syntax error says why a text is not in its language and which part of the text shows it.  Both
languages of the library, programs and expressions, report errors of this type.
-/

namespace CallScript

/-- Why a text is not in its language. -/
inductive SyntaxError.Cause where
  /-- No token starts with this text. -/
  | unexpectedCharacter (text : String)
  /-- A comment is opened and never closed. -/
  | unterminatedComment
  /-- Brackets are nested deeper than allowed. -/
  | tooDeep (limit : Nat)
  /-- There are more tokens than allowed. -/
  | tooLong (limit : Nat)
  /-- No text of the language continues what was read before with this token. -/
  | unexpectedToken (token : String) (expected : List String)
  /-- The text ends, and what was read is not complete. -/
  | unexpectedEnd (expected : List String)
deriving Repr, DecidableEq

/-- A cause, and the part of the text that shows it. -/
structure SyntaxError where
  cause : SyntaxError.Cause
  span : Span
deriving Repr, DecidableEq

namespace SyntaxError

/-- The alternatives after the first one: commas between them and a word before the last. -/
def alternatives : List String → String
  | [] => ""
  | [last] => " or " ++ last
  | next :: rest => ", " ++ next ++ alternatives rest

/-- The line that lists what could have followed; none if nothing could. -/
def expectation : List String → String
  | [] => ""
  | first :: rest => "\nExpected one of " ++ first ++ alternatives rest

/-- The wording of a syntax error. -/
def message (error : SyntaxError) : String :=
  match error.cause with
  | .unexpectedCharacter text => "unexpected character: " ++ escaped text
  | .unterminatedComment => "unterminated block comment"
  | .tooDeep limit => "nesting deeper than " ++ toString limit ++ " levels"
  | .tooLong limit => "expression longer than " ++ toString limit ++ " tokens"
  | .unexpectedToken token expected =>
    "Unrecognized token `" ++ token ++ "` found at " ++ toString error.span.start ++ ":"
      ++ toString error.span.stop ++ expectation expected
  | .unexpectedEnd expected =>
    "Unrecognized EOF found at " ++ toString error.span.start ++ expectation expected

/-- The wording of a syntax error with its place in front. -/
def display (error : SyntaxError) : String :=
  "Syntax error at " ++ error.span.render ++ ": " ++ error.message

end SyntaxError

end CallScript
