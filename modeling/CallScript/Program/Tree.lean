import CallScript.Text.Span

/-!
# Concrete trees

What a program text says, with every lexeme as it was written and the span of every node.  A block
is calls between braces; a call is a name and arguments between parentheses; an argument is a
literal, a name, a call or a block.
-/

namespace CallScript.Program

/-- A token that carries text, as it stands in the program. -/
structure Lexeme where
  text : String
  span : Span
deriving Repr, DecidableEq

namespace Tree

mutual

/-- An argument of a call. -/
inductive Argument where
  | number (lexeme : Lexeme)
  | string (lexeme : Lexeme)
  | name (lexeme : Lexeme)
  | call (call : Call)
  | block (block : Block)

/-- A name and arguments between parentheses; the span runs from the name to the closing one. -/
structure Call where
  name : Lexeme
  arguments : List Argument
  span : Span

/-- Calls between braces; the span runs from brace to brace. -/
structure Block where
  calls : List Call
  span : Span

end

/-- The part of the program an argument stands in. -/
def Argument.span : Argument → Span
  | .number lexeme => lexeme.span
  | .string lexeme => lexeme.span
  | .name lexeme => lexeme.span
  | .call c => c.span
  | .block b => b.span

end Tree

end CallScript.Program
