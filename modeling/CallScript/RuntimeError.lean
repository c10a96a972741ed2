import CallScript.Expression.Basic
import CallScript.SyntaxError
import CallScript.Text.EditDistance
import CallScript.Value.Basic

/-!
# Runtime errors

The causes for which a program or an expression fails, and their wording (`RuntimeError.message`).
-/

namespace CallScript

/-- What an expression may not contain. -/
inductive Refusal where
  | node (kind : Expr.Kind)
  | operator (op : BinaryOp)
  | sign (op : UnaryOp)
  | computedCallee
  | operand (kind : Operand.Kind)
deriving Repr, DecidableEq

/-- The phrase for what an expression may not contain. -/
def Refusal.phrase : Refusal → String
  | .node kind => kind.phrase
  | .operator op => "operator `" ++ op.sign ++ "`"
  | .sign op => "unary `" ++ op.sign ++ "`"
  | .computedCallee => "call of a computed callee"
  | .operand kind => kind.phrase

/-- A value of the wrong kind. -/
inductive TypeMismatch where
  /-- No meaning of a binary operator covers its operands. -/
  | operands (op : BinaryOp) (left right : Value.Kind)
  /-- The operand of a minus sign is not a number. -/
  | negated (kind : Value.Kind)
  /-- A value that has no items is subscripted, or with the wrong kind of index. -/
  | subscript (value index : Value.Kind)
  /-- An index is not a whole number. -/
  | fractionalIndex
  /-- A sequence is repeated a number of times that is not whole. -/
  | fractionalCount
  /-- An operand of exclusive or is not a whole number. -/
  | fractionalBits
  /-- A negative number is raised to a power that is not whole. -/
  | fractionalPower
  /-- The shapes of the operands of a matrix product do not fit. -/
  | unalignedShapes
  /-- The body of a definition is not a block. -/
  | definitionBody (kind : Argument.Kind)
  /-- A function that takes its arguments as written is given a value that has no literal. -/
  | literalArgument (function : String) (kind : Value.Kind)
  /-- A host function refuses its arguments in its own words. -/
  | refused (words : String)
deriving Repr, DecidableEq

/-- The wording of a mismatch. -/
def TypeMismatch.message : TypeMismatch → String
  | .operands op left right =>
    "unsupported operand types for " ++ op.sign ++ ": '" ++ left.word ++ "' and '" ++ right.word
      ++ "'"
  | .negated kind => "bad operand type for unary -: '" ++ kind.word ++ "'"
  | .subscript value index => "'" ++ value.word ++ "' cannot be indexed by '" ++ index.word ++ "'"
  | .fractionalIndex => "indices must be integral numbers"
  | .fractionalCount => "can't multiply sequence by non-integral count"
  | .fractionalBits => "unsupported operand for ^: operands must be integral"
  | .fractionalPower => "negative number cannot be raised to a fractional power"
  | .unalignedShapes => "matmul: operand shapes are not aligned"
  | .definitionBody kind => "def expects a code block body, got " ++ kind.word
  | .literalArgument function kind =>
    "function " ++ function ++ " takes literal arguments, got " ++ kind.word
  | .refused words => words

/-- How many arguments a function takes. -/
inductive Arity where
  | exactly (count : Nat)
  | atLeast (count : Nat)
deriving Repr, DecidableEq

/-- The words for a number of arguments. -/
def Arity.words : Arity → String
  | .exactly count => toString count
  | .atLeast count => "at least " ++ toString count

/-- Why a program or an expression fails. -/
inductive RuntimeError where
  /-- A program uses a name that is not bound. -/
  | undefinedName (name : String) (suggestion : Option String)
  /-- An expression uses a name that is not bound. -/
  | unknownVariable (name : String)
  /-- What is to be bound is not a name. -/
  | invalidTarget (kind : Argument.Kind)
  /-- An expression contains what it may not. -/
  | unsafeExpression (what : Refusal)
  /-- What is called is not a function. -/
  | notCallable (name : String) (kind : Value.Kind)
  /-- A function is given too many or too few arguments. -/
  | arityMismatch (function : String) (arity : Arity) (given : Nat)
  /-- A value is of the wrong kind. -/
  | typeMismatch (mismatch : TypeMismatch)
  | divisionByZero
  | indexOutOfBounds (index : Int) (length : Nat)
  | keyNotFound (key : String)
  /-- Blocks are nested deeper than the session allows. -/
  | stackOverflow (limit : Nat)
  /-- A repetition would be longer than the engine allows. -/
  | sequenceTooLarge (limit : Nat)
  /-- A function that needs the running frame is called where there is none. -/
  | missingFrame (function : String)
  /-- A definition is called after its environment is gone. -/
  | detachedDefinition (name : String)
  /-- A program evaluates a text that is not an expression. -/
  | malformedExpression (error : SyntaxError)
deriving Repr, DecidableEq

namespace RuntimeError

/-- The wording of an error. -/
def message : RuntimeError → String
  | .undefinedName name suggestion => "undefined name: " ++ name ++ suggestionHint suggestion
  | .unknownVariable name => "unknown variable: " ++ name
  | .invalidTarget kind => "invalid assignment target: expected var, got " ++ kind.word
  | .unsafeExpression what => "unsafe expression: " ++ what.phrase ++ " is not allowed"
  | .notCallable name kind => name ++ " is not callable (" ++ kind.word ++ ")"
  | .arityMismatch function arity given =>
    "function " ++ function ++ " expects " ++ arity.words ++ " argument(s), got " ++ toString given
  | .typeMismatch mismatch => mismatch.message
  | .divisionByZero => "division by zero"
  | .indexOutOfBounds index length =>
    "index " ++ toString index ++ " out of bounds for length " ++ toString length
  | .keyNotFound key => "key not found: " ++ key
  | .stackOverflow limit => "stack overflow: block nesting exceeded " ++ toString limit
  | .sequenceTooLarge limit => "repeated sequence would exceed " ++ toString limit ++ " items"
  | .missingFrame function =>
    "function " ++ function ++ " needs an executor but none is available"
  | .detachedDefinition name => "definition " ++ name ++ " outlived its environment"
  | .malformedExpression error =>
    "invalid expression: " ++ error.message ++ " at " ++ error.span.render

/-- The wording of an error with its class in front. -/
def display (error : RuntimeError) : String :=
  "Runtime error: " ++ error.message

end RuntimeError

end CallScript
