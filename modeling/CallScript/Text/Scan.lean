import CallScript.SyntaxError

/-!
# Scanning

What the two scanners of the library share.  A language says, for the character a text starts with
and the characters after it, which piece stands there: a token, a gap to skip, or something that is
no piece.  `scan` cuts a whole text into pieces and gives every token its byte span.
-/

namespace CallScript

/-- A letter or an underscore. -/
def isNameStart (c : Char) : Bool :=
  ('a' ≤ c && c ≤ 'z') || ('A' ≤ c && c ≤ 'Z') || c = '_'

/-- A letter, a digit or an underscore. -/
def isNameChar (c : Char) : Bool :=
  isNameStart c || ('0' ≤ c && c ≤ '9')

/-- The blanks between tokens: space, tab, line feed, carriage return and form feed. -/
def isGap (c : Char) : Bool :=
  c = ' ' || c = '\t' || c = '\n' || c = '\r' || c = '\x0c'

/-- What follows an opening quotation mark. -/
inductive StringEnd where
  /-- The characters up to and with the closing mark, and the rest. -/
  | closed (body rest : List Char)
  /-- The characters up to where the literal breaks off. -/
  | broken (body : List Char)
deriving Repr, DecidableEq

/-- Puts characters in front of what follows an opening quotation mark. -/
def StringEnd.push (cs : List Char) : StringEnd → StringEnd
  | .closed body rest => .closed (cs ++ body) rest
  | .broken body => .broken (cs ++ body)

/-- Looks for the closing quotation mark.  A backslash takes the next character with it; a line feed
breaks the literal off. -/
def scanString (mark : Char) : List Char → StringEnd
  | [] => .broken []
  | '\\' :: [] => .broken []
  | '\\' :: c :: cs => if c = '\n' then .broken [] else (scanString mark cs).push ['\\', c]
  | c :: cs =>
    if c = mark then .closed [c] cs
    else if c = '\n' then .broken []
    else (scanString mark cs).push [c]

/-- The piece a text starts with. -/
inductive Piece (τ : Type) where
  /-- A token, the characters it consists of, and the rest. -/
  | token (token : τ) (lexeme rest : List Char)
  /-- Characters to skip, and the rest. -/
  | gap (lexeme rest : List Char)
  /-- Characters that are no piece of the language. -/
  | bad (cause : SyntaxError.Cause) (lexeme : List Char)

/-- The piece that is just one token character. -/
def Piece.mark {τ : Type} (token : τ) (c : Char) (rest : List Char) : Piece τ :=
  .token token [c] rest

/-- The piece that is just one character no token starts with. -/
def Piece.stray {τ : Type} (c : Char) : Piece τ :=
  .bad (.unexpectedCharacter (String.singleton c)) [c]

/-- The piece at an opening quotation mark: a token made from the literal, or the broken literal. -/
def Piece.ofString {τ : Type} (make : List Char → τ) (mark : Char) (cs : List Char) : Piece τ :=
  match scanString mark cs with
  | .closed body rest => .token (make (mark :: body)) (mark :: body) rest
  | .broken body => .bad (.unexpectedCharacter (String.ofList (mark :: body))) (mark :: body)

/-- The tokens of a text that starts at byte `start`.  Every piece takes at least one character, so
`fuel` need not exceed the number of characters. -/
def scanFrom {τ : Type} (piece : Char → List Char → Piece τ) :
    Nat → Nat → List Char → Except SyntaxError (List (Placed τ))
  | 0, _, _ => .ok []
  | _ + 1, _, [] => .ok []
  | fuel + 1, start, c :: cs =>
    match piece c cs with
    | .token token lexeme rest => do
      let stop := start + byteLength lexeme
      let tokens ← scanFrom piece fuel stop rest
      return ⟨token, ⟨start, stop⟩⟩ :: tokens
    | .gap lexeme rest => scanFrom piece fuel (start + byteLength lexeme) rest
    | .bad cause lexeme => .error ⟨cause, ⟨start, start + byteLength lexeme⟩⟩

/-- The tokens of a text, or the first place where no piece of the language stands. -/
def scan {τ : Type} (piece : Char → List Char → Piece τ) (source : String) :
    Except SyntaxError (List (Placed τ)) :=
  scanFrom piece source.toList.length 0 source.toList

/-- The offset where the last token ends, zero if there is none. -/
def lastStop {τ : Type} (tokens : List (Placed τ)) : Nat :=
  (tokens.getLast?.map fun token => token.span.stop).getD 0

end CallScript
