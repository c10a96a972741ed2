/-!
# Quoted text

`quoted` is the form a text takes inside a printed list or mapping.  The quotation mark is the
apostrophe, unless the text holds an apostrophe and no double quote.
-/

namespace CallScript

/-- The quotation mark that surrounds a text: a double quote only if that avoids an escape. -/
def quoteMark (cs : List Char) : Char :=
  if cs.contains '\x27' && !cs.contains '\x22' then '\x22' else '\x27'

/-- A character of a text quoted with `mark`. -/
def quoteChar (mark c : Char) : List Char :=
  match c with
  | '\\' => ['\\', '\\']
  | '\n' => ['\\', 'n']
  | '\t' => ['\\', 't']
  | '\r' => ['\\', 'r']
  | c => if c = mark then ['\\', c] else [c]

/-- The quoted form of a list of characters. -/
def quotedChars (cs : List Char) : List Char :=
  let mark := quoteMark cs
  mark :: cs.flatMap (quoteChar mark) ++ [mark]

/-- The form of a text inside a printed list or mapping. -/
def quoted (s : String) : String :=
  String.ofList (quotedChars s.toList)

end CallScript
