/-!
# Expressions

The grammar of expressions accepts far more than the engine evaluates, and every form has its node,
so that a refusal can name what it refuses.  `Expr.kind` and the words for kinds, operators and
arguments are what those refusals are made of.
-/

namespace CallScript

/-- Binary operators. -/
inductive BinaryOp where
  | add
  | sub
  | mul
  | div
  | floorDiv
  | mod
  | pow
  | matMul
  | bitXor
  | bitAnd
  | bitOr
  | shiftLeft
  | shiftRight
deriving Repr, DecidableEq

/-- Unary operators. -/
inductive UnaryOp where
  | neg
  | pos
  | invert
  | not
deriving Repr, DecidableEq

/-- Boolean operators. -/
inductive BoolOp where
  | and
  | or
deriving Repr, DecidableEq

/-- Comparisons. -/
inductive CompareOp where
  | equal
  | notEqual
  | less
  | lessEqual
  | greater
  | greaterEqual
  | isIn
  | notIn
  | is
  | isNot
deriving Repr, DecidableEq

mutual

/-- An expression. -/
inductive Expr where
  | number (value : Float)
  | string (text : String)
  | bool (value : Bool)
  | none
  | name (name : String)
  | binary (op : BinaryOp) (left right : Expr)
  | unary (op : UnaryOp) (operand : Expr)
  | boolean (op : BoolOp) (left right : Expr)
  /-- A chain of comparisons: the first operand, then each comparison with its right operand. -/
  | compare (left : Expr) (rest : List (CompareOp × Expr))
  | conditional (test body orElse : Expr)
  | lambda (parameters : List String) (body : Expr)
  | call (callee : Expr) (operands : List Operand)
  | member (value : Expr) (field : String)
  | subscript (value index : Expr)
  | slice (lower upper step : Option Expr)
  | list (items : List Expr)
  | tuple (items : List Expr)
  | dict (entries : List (Expr × Expr))
  | set (items : List Expr)
  | comprehension (element : Expr) (target : String) (source : Expr) (conditions : List Expr)
  | assign (target : String) (value : Expr)

/-- What a call in an expression is given. -/
inductive Operand where
  | positional (value : Expr)
  | keyword (name : String) (value : Expr)
  | starred (value : Expr)
  | doubleStarred (value : Expr)

end

namespace Expr

/-- The kinds of expressions. -/
inductive Kind where
  | number
  | string
  | bool
  | none
  | name
  | binary
  | unary
  | boolean
  | compare
  | conditional
  | lambda
  | call
  | member
  | subscript
  | slice
  | list
  | tuple
  | dict
  | set
  | comprehension
  | assign
deriving Repr, DecidableEq

/-- The kind of an expression. -/
def kind : Expr → Kind
  | .number .. => .number
  | .string .. => .string
  | .bool .. => .bool
  | .none => .none
  | .name .. => .name
  | .binary .. => .binary
  | .unary .. => .unary
  | .boolean .. => .boolean
  | .compare .. => .compare
  | .conditional .. => .conditional
  | .lambda .. => .lambda
  | .call .. => .call
  | .member .. => .member
  | .subscript .. => .subscript
  | .slice .. => .slice
  | .list .. => .list
  | .tuple .. => .tuple
  | .dict .. => .dict
  | .set .. => .set
  | .comprehension .. => .comprehension
  | .assign .. => .assign

/-- The phrase for a kind of expression. -/
def Kind.phrase : Kind → String
  | .number => "numeric literal"
  | .string => "string literal"
  | .bool => "boolean literal"
  | .none => "None literal"
  | .name => "name"
  | .binary => "binary operation"
  | .unary => "unary operation"
  | .boolean => "boolean operation"
  | .compare => "comparison"
  | .conditional => "conditional expression"
  | .lambda => "lambda"
  | .call => "call"
  | .member => "attribute access"
  | .subscript => "subscript"
  | .slice => "slice"
  | .list => "list display"
  | .tuple => "tuple display"
  | .dict => "dict display"
  | .set => "set display"
  | .comprehension => "list comprehension"
  | .assign => "assignment"

end Expr

namespace Operand

/-- The forms an operand can take. -/
inductive Kind where
  | positional
  | keyword
  | starred
  | doubleStarred
deriving Repr, DecidableEq

/-- The form of an operand. -/
def kind : Operand → Kind
  | .positional .. => .positional
  | .keyword .. => .keyword
  | .starred .. => .starred
  | .doubleStarred .. => .doubleStarred

/-- The phrase for a form of operand. -/
def Kind.phrase : Kind → String
  | .positional => "positional argument"
  | .keyword => "keyword argument"
  | .starred => "starred argument"
  | .doubleStarred => "double-starred argument"

end Operand

/-- The sign of a binary operator. -/
def BinaryOp.sign : BinaryOp → String
  | .add => "+"
  | .sub => "-"
  | .mul => "*"
  | .div => "/"
  | .floorDiv => "//"
  | .mod => "%"
  | .pow => "**"
  | .matMul => "@"
  | .bitXor => "^"
  | .bitAnd => "&"
  | .bitOr => "|"
  | .shiftLeft => "<<"
  | .shiftRight => ">>"

/-- The sign of a unary operator. -/
def UnaryOp.sign : UnaryOp → String
  | .neg => "-"
  | .pos => "+"
  | .invert => "~"
  | .not => "not"

end CallScript
