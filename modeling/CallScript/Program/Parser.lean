import CallScript.Program.Token
import CallScript.Program.Tree

/-!
# Parsing programs

A program is one block.  The parser is a machine that reads one token at a time: its state is the
construct being read, what has been read of it, and the constructs around it.  `State.accepts` says
which kinds of tokens may come next, so the first token without a next state is the first one that
no program continues with, and `State.expected` is the list of what could have stood there.
-/

namespace CallScript.Program

/-- Where a list of calls or arguments stands. -/
inductive Progress where
  /-- Just opened. -/
  | opened
  /-- After an item. -/
  | filled
  /-- After a separator. -/
  | separated
deriving Repr, DecidableEq

mutual

/-- The constructs around a block.  Items read so far are kept in reverse. -/
inductive BlockContext where
  /-- The block is the program. -/
  | root
  /-- The block is an argument of the call `name`, after `arguments`. -/
  | argument (name : Lexeme) (arguments : List Tree.Argument) (outer : CallContext)

/-- The constructs around a call.  Items read so far are kept in reverse. -/
inductive CallContext where
  /-- The call stands in the block that starts at `start`, after `calls`. -/
  | statement (start : Nat) (calls : List Tree.Call) (outer : BlockContext)
  /-- The call is an argument of the call `name`, after `arguments`. -/
  | argument (name : Lexeme) (arguments : List Tree.Argument) (outer : CallContext)

end

/-- What has been read of a program.  Items read so far are kept in reverse. -/
inductive State where
  /-- Nothing. -/
  | initial
  /-- The inside of a block. -/
  | block (start : Nat) (calls : List Tree.Call) (progress : Progress) (outer : BlockContext)
  /-- The name of a call that stands in a block. -/
  | callName (name : Lexeme) (outer : CallContext)
  /-- The inside of the parentheses of a call. -/
  | call (name : Lexeme) (arguments : List Tree.Argument) (progress : Progress)
    (outer : CallContext)
  /-- A name where an argument of the call `name` stands: the argument, or the name of a call. -/
  | word (lexeme name : Lexeme) (arguments : List Tree.Argument) (outer : CallContext)
  /-- A whole program. -/
  | done (block : Tree.Block)

namespace State

/-- The kinds of tokens that may come next. -/
def accepts : State → Token.Kind → Bool
  | .initial, .openBrace => true
  | .block _ _ .opened _, .closeBrace => true
  | .block _ _ .opened _, .name => true
  | .block _ _ .filled _, .closeBrace => true
  | .block _ _ .filled _, .semicolon => true
  | .block _ _ .separated _, .name => true
  | .callName _ _, .openParen => true
  | .call _ _ .opened _, .openBrace => true
  | .call _ _ .opened _, .closeParen => true
  | .call _ _ .opened _, .string => true
  | .call _ _ .opened _, .number => true
  | .call _ _ .opened _, .name => true
  | .call _ _ .filled _, .closeParen => true
  | .call _ _ .filled _, .comma => true
  | .call _ _ .separated _, .openBrace => true
  | .call _ _ .separated _, .string => true
  | .call _ _ .separated _, .number => true
  | .call _ _ .separated _, .name => true
  | .word _ _ _ _, .openParen => true
  | .word _ _ _ _, .closeParen => true
  | .word _ _ _ _, .comma => true
  | _, _ => false

/-- What may come next, in the words of diagnostics. -/
def expected (state : State) : List String :=
  (Token.Kind.all.filter state.accepts).map Token.Kind.word

/-- Continues after a block. -/
def closeBlock (block : Tree.Block) : BlockContext → State
  | .root => .done block
  | .argument name arguments outer => .call name (.block block :: arguments) .filled outer

/-- Continues after a call. -/
def closeCall (call : Tree.Call) : CallContext → State
  | .statement start calls outer => .block start (call :: calls) .filled outer
  | .argument name arguments outer => .call name (.call call :: arguments) .filled outer

/-- Reads a token inside a block. -/
def stepBlock (start : Nat) (calls : List Tree.Call) (outer : BlockContext) (span : Span) :
    Progress → Token → Option State
  | .opened, .name text => some (.callName ⟨text, span⟩ (.statement start calls outer))
  | .separated, .name text => some (.callName ⟨text, span⟩ (.statement start calls outer))
  | .opened, .closeBrace => some (closeBlock ⟨calls.reverse, ⟨start, span.stop⟩⟩ outer)
  | .filled, .closeBrace => some (closeBlock ⟨calls.reverse, ⟨start, span.stop⟩⟩ outer)
  | .filled, .semicolon => some (.block start calls .separated outer)
  | _, _ => none

/-- Reads a token where an argument of the call `name` may start. -/
def stepArgument (name : Lexeme) (arguments : List Tree.Argument) (outer : CallContext)
    (span : Span) : Token → Option State
  | .number text => some (.call name (.number ⟨text, span⟩ :: arguments) .filled outer)
  | .string text => some (.call name (.string ⟨text, span⟩ :: arguments) .filled outer)
  | .name text => some (.word ⟨text, span⟩ name arguments outer)
  | .openBrace => some (.block span.start [] .opened (.argument name arguments outer))
  | _ => none

/-- Reads the closing parenthesis of the call `name`. -/
def finishCall (name : Lexeme) (arguments : List Tree.Argument) (outer : CallContext)
    (span : Span) : State :=
  closeCall ⟨name, arguments.reverse, ⟨name.span.start, span.stop⟩⟩ outer

/-- Reads a token inside the parentheses of the call `name`. -/
def stepCall (name : Lexeme) (arguments : List Tree.Argument) (outer : CallContext) (span : Span) :
    Progress → Token → Option State
  | .opened, .closeParen => some (finishCall name arguments outer span)
  | .filled, .closeParen => some (finishCall name arguments outer span)
  | .filled, .comma => some (.call name arguments .separated outer)
  | .opened, token => stepArgument name arguments outer span token
  | .separated, token => stepArgument name arguments outer span token
  | .filled, _ => none

/-- The state after one more token; `none` if no program continues with it. -/
def step (token : Placed Token) : State → Option State
  | .initial =>
    match token.item with
    | .openBrace => some (.block token.span.start [] .opened .root)
    | _ => none
  | .block start calls progress outer =>
    stepBlock start calls outer token.span progress token.item
  | .callName name outer =>
    match token.item with
    | .openParen => some (.call name [] .opened outer)
    | _ => none
  | .call name arguments progress outer =>
    stepCall name arguments outer token.span progress token.item
  | .word lexeme name arguments outer =>
    match token.item with
    | .openParen => some (.call lexeme [] .opened (.argument name arguments outer))
    | item => stepCall name (.name lexeme :: arguments) outer token.span .filled item
  | .done _ => none

end State

/-- Reads tokens from a state on; `stop` is where the tokens before them end. -/
def parseFrom (state : State) (stop : Nat) : List (Placed Token) → Except SyntaxError Tree.Block
  | [] =>
    match state with
    | .done block => .ok block
    | state => .error ⟨.unexpectedEnd state.expected, ⟨stop, stop⟩⟩
  | token :: tokens =>
    match state.step token with
    | some next => parseFrom next token.span.stop tokens
    | none => .error ⟨.unexpectedToken token.item.text state.expected, token.span⟩

/-- The deepest nesting of braces and parentheses in a program. -/
def nestingLimit : Nat := 1000

/-- The first opening bracket beyond the nesting limit, `depth` being the number of brackets open
before the tokens. -/
def tooDeep? (depth : Nat) : List (Placed Token) → Option (Placed Token)
  | [] => none
  | token :: tokens =>
    match token.item with
    | .openBrace | .openParen =>
      if nestingLimit < depth + 1 then some token else tooDeep? (depth + 1) tokens
    | .closeBrace | .closeParen => tooDeep? (depth - 1) tokens
    | _ => tooDeep? depth tokens

/-- The tree of a list of tokens, or the first place that shows that it has none. -/
def parseTokens (tokens : List (Placed Token)) : Except SyntaxError Tree.Block :=
  match tooDeep? 0 tokens with
  | some token => .error ⟨.tooDeep nestingLimit, token.span⟩
  | none => parseFrom .initial 0 tokens

/-- The tree of a program text, or the first place that shows that it has none. -/
def parse (source : String) : Except SyntaxError Tree.Block := do
  let tokens ← scan source
  parseTokens tokens

end CallScript.Program
