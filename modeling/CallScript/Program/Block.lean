import CallScript.Decimal.Layout
import CallScript.Decimal.Numeral
import CallScript.Program.Tree

/-!
# Blocks

Programs without their layout: number literals have become numbers, string literals the characters
between their quotation marks (escapes stay as written), and spans are gone.  `Block.ofTree` takes a
concrete tree to its block, and `Block.render` writes a block as program text again.
-/

namespace CallScript

mutual

/-- An argument of a call. -/
inductive Argument where
  | number (value : Float)
  | string (text : String)
  | name (name : String)
  | call (call : Call)
  | block (block : Block)

/-- A call of a name with arguments. -/
structure Call where
  name : String
  arguments : List Argument

/-- Calls that run in order. -/
structure Block where
  calls : List Call

end

instance : Inhabited Block := ⟨⟨[]⟩⟩

/-! ## From concrete trees -/

/-- The characters of a string literal between its quotation marks. -/
def Program.Lexeme.contents (lexeme : Program.Lexeme) : String :=
  match lexeme.text.toList with
  | '\x22' :: cs =>
    match cs.reverse with
    | '\x22' :: body => String.ofList body.reverse
    | _ => lexeme.text
  | _ => lexeme.text

/-- The value of a number literal. -/
def Program.Lexeme.value (lexeme : Program.Lexeme) : Float :=
  (readNumber lexeme.text.toList).getD (0.0 / 0.0)

mutual

/-- The argument a concrete argument stands for. -/
def Argument.ofTree : Program.Tree.Argument → Argument
  | .number lexeme => .number lexeme.value
  | .string lexeme => .string lexeme.contents
  | .name lexeme => .name lexeme.text
  | .call c => .call (Call.ofTree c)
  | .block b => .block (Block.ofTree b)

/-- The arguments a list of concrete arguments stands for. -/
def Argument.listOfTree : List Program.Tree.Argument → List Argument
  | [] => []
  | argument :: arguments => Argument.ofTree argument :: Argument.listOfTree arguments

/-- The call a concrete call stands for. -/
def Call.ofTree : Program.Tree.Call → Call
  | ⟨name, arguments, _⟩ => ⟨name.text, Argument.listOfTree arguments⟩

/-- The calls a list of concrete calls stands for. -/
def Call.listOfTree : List Program.Tree.Call → List Call
  | [] => []
  | call :: calls => Call.ofTree call :: Call.listOfTree calls

/-- The block a concrete block stands for. -/
def Block.ofTree : Program.Tree.Block → Block
  | ⟨calls, _⟩ => ⟨Call.listOfTree calls⟩

end

/-! ## As program text -/

mutual

/-- An argument as program text. -/
def Argument.chars : Argument → List Char
  | .number value => (numberText value).toList
  | .string text => '\x22' :: text.toList ++ ['\x22']
  | .name name => name.toList
  | .call c => c.chars
  | .block b => b.chars

/-- The arguments after the first one as program text, a comma before each. -/
def Argument.moreChars : List Argument → List Char
  | [] => []
  | argument :: arguments => [',', ' '] ++ argument.chars ++ Argument.moreChars arguments

/-- Arguments as program text. -/
def Argument.listChars : List Argument → List Char
  | [] => []
  | argument :: arguments => argument.chars ++ Argument.moreChars arguments

/-- A call as program text. -/
def Call.chars : Call → List Char
  | ⟨name, arguments⟩ => name.toList ++ ['('] ++ Argument.listChars arguments ++ [')']

/-- The calls after the first one as program text, a semicolon before each. -/
def Call.moreChars : List Call → List Char
  | [] => []
  | call :: calls => [';', ' '] ++ call.chars ++ Call.moreChars calls

/-- Calls as program text. -/
def Call.listChars : List Call → List Char
  | [] => []
  | call :: calls => call.chars ++ Call.moreChars calls

/-- A block as program text. -/
def Block.chars : Block → List Char
  | ⟨calls⟩ => ['\x7b'] ++ Call.listChars calls ++ ['\x7d']

end

/-- A block as program text. -/
def Block.render (block : Block) : String :=
  String.ofList block.chars

/-- An argument as program text. -/
def Argument.render (argument : Argument) : String :=
  String.ofList argument.chars

/-! ## Kinds of arguments -/

namespace Argument

/-- The kinds of arguments. -/
inductive Kind where
  | number
  | string
  | name
  | call
  | block
deriving Repr, DecidableEq

/-- The word for a kind in messages. -/
def Kind.word : Kind → String
  | .number => "number"
  | .string => "string"
  | .name => "var"
  | .call => "call"
  | .block => "code"

/-- The kind of an argument. -/
def kind : Argument → Kind
  | .number _ => .number
  | .string _ => .string
  | .name _ => .name
  | .call _ => .call
  | .block _ => .block

end Argument

end CallScript
