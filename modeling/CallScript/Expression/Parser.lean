import CallScript.Expression.Basic
import CallScript.Expression.Token

/-!
# Parsing expressions

The grammar, from the loosest to the tightest binding:

* `name = test` at the top, or a `test`;
* a `test` is `lambda names : test`, or an `orTest` with an optional `if orTest else test`;
* `or`, `and` (both to the left), `not`, and chains of comparisons;
* the binary levels `|`, `^`, `&`, shifts, sums, products, all to the left;
* the signs `-`, `+`, `~`, and `**`, whose right operand may carry a sign;
* calls, subscripts and attributes after a primary;
* literals, names, and displays in brackets.

The parser descends through these levels and decides on one token, so it stops at the first token
that no expression continues with.  Recursion goes through `test`, `orTest`, `notTest` and `factor`
only, and is bounded by a fuel that exceeds four times the number of tokens.
-/

namespace CallScript.Expression

/-- The tokens still to be read. -/
abbrev Input := List (Placed Token)

/-- Reads something from the front of the tokens.  A failure keeps the tokens from the offending one
on. -/
abbrev Parser (α : Type) := Input → Except Input (α × Input)

namespace Parser

variable {α β : Type}

/-- Fails at the first token. -/
def stop : Parser α := fun input => .error input

/-- Reads nothing. -/
def succeed (a : α) : Parser α := fun input => .ok (a, input)

/-- Changes what is read. -/
def map (f : α → β) (p : Parser α) : Parser β := fun input =>
  match p input with
  | .ok (a, rest) => .ok (f a, rest)
  | .error rest => .error rest

/-- Reads one thing and then another that depends on it. -/
def andThen (p : Parser α) (f : α → Parser β) : Parser β := fun input =>
  match p input with
  | .ok (a, rest) => f a rest
  | .error rest => .error rest

/-- Reads a token that carries what is wanted. -/
def token (accept : Token → Option α) : Parser α
  | [] => .error []
  | token :: rest =>
    match accept token.item with
    | some a => .ok (a, rest)
    | none => .error (token :: rest)

/-- Reads something and the token that must follow it. -/
def before (closing : Token → Bool) (p : Parser α) : Parser α :=
  andThen p fun a => map (fun () => a) (token fun t => if closing t then some () else none)

/-- Reads operators with their right operands for as long as there are any; `left` is what has been
read. -/
def chainFrom (operand : Parser α) (operator : Token → Option (α → α → α)) : Nat → α → Parser α
  | 0, left => succeed left
  | fuel + 1, left => fun input =>
    match input with
    | [] => .ok (left, [])
    | token :: rest =>
      match operator token.item with
      | some join =>
        andThen operand (fun right => chainFrom operand operator fuel (join left right)) rest
      | none => .ok (left, token :: rest)

/-- Reads one or more operands with operators between them, joined from the left. -/
def chain (fuel : Nat) (operator : Token → Option (α → α → α)) (operand : Parser α) : Parser α :=
  andThen operand (chainFrom operand operator fuel)

/-- Reads one or more items with commas between them. -/
def commaList (item : Parser α) : Nat → Parser (List α)
  | 0 => stop
  | fuel + 1 => andThen item fun first input =>
    match input with
    | ⟨.comma, _⟩ :: rest => map (first :: ·) (commaList item fuel) rest
    | rest => .ok ([first], rest)

end Parser

open Expression.Parser

/-! ## Single tokens -/

/-- The name a token carries. -/
def asName : Token → Option String
  | .name name => some name
  | _ => none

/-- Reads a name. -/
def name : Parser String :=
  token asName

/-- Whether a token is `)`. -/
def isCloseParen : Token → Bool
  | .closeParen => true
  | _ => false

/-- Whether a token is `]`. -/
def isCloseBracket : Token → Bool
  | .closeBracket => true
  | _ => false

/-- Whether a token is a closing brace. -/
def isCloseBrace : Token → Bool
  | .closeBrace => true
  | _ => false

/-- Whether a token is `:`. -/
def isColon : Token → Bool
  | .colon => true
  | _ => false

/-- Whether a token is `in`. -/
def isIn : Token → Bool
  | .in_ => true
  | _ => false

/-- Whether a token is `else`. -/
def isElse : Token → Bool
  | .else_ => true
  | _ => false

/-! ## Operators -/

/-- The operator of `or`. -/
def orOperator : Token → Option (Expr → Expr → Expr)
  | .or_ => some (.boolean .or)
  | _ => none

/-- The operator of `and`. -/
def andOperator : Token → Option (Expr → Expr → Expr)
  | .and_ => some (.boolean .and)
  | _ => none

/-- The operator of the level of `|`. -/
def bitOrOperator : Token → Option (Expr → Expr → Expr)
  | .pipe => some (.binary .bitOr)
  | _ => none

/-- The operator of the level of `^`. -/
def bitXorOperator : Token → Option (Expr → Expr → Expr)
  | .caret => some (.binary .bitXor)
  | _ => none

/-- The operator of the level of `&`. -/
def bitAndOperator : Token → Option (Expr → Expr → Expr)
  | .ampersand => some (.binary .bitAnd)
  | _ => none

/-- The operators of the level of shifts. -/
def shiftOperator : Token → Option (Expr → Expr → Expr)
  | .shiftLeft => some (.binary .shiftLeft)
  | .shiftRight => some (.binary .shiftRight)
  | _ => none

/-- The operators of the level of sums. -/
def sumOperator : Token → Option (Expr → Expr → Expr)
  | .plus => some (.binary .add)
  | .minus => some (.binary .sub)
  | _ => none

/-- The operators of the level of products. -/
def productOperator : Token → Option (Expr → Expr → Expr)
  | .star => some (.binary .mul)
  | .slash => some (.binary .div)
  | .doubleSlash => some (.binary .floorDiv)
  | .percent => some (.binary .mod)
  | .at_ => some (.binary .matMul)
  | _ => none

/-- The sign a token is in front of an operand. -/
def signOperator : Token → Option UnaryOp
  | .minus => some .neg
  | .plus => some .pos
  | .tilde => some .invert
  | _ => none

/-- The binary levels from `|` down to products, over the level of signs. -/
def binaryLevels (fuel : Nat) (factor : Parser Expr) : Parser Expr :=
  chain fuel bitOrOperator <| chain fuel bitXorOperator <| chain fuel bitAndOperator <|
    chain fuel shiftOperator <| chain fuel sumOperator <| chain fuel productOperator factor

/-! ## Comparisons -/

/-- The comparison at the front, if one starts there; it takes two tokens if it is `not in` or
`is not`. -/
def comparison? : Input → Option (Except Input (CompareOp × Input))
  | ⟨.equalEqual, _⟩ :: rest => some (.ok (.equal, rest))
  | ⟨.notEqual, _⟩ :: rest => some (.ok (.notEqual, rest))
  | ⟨.less, _⟩ :: rest => some (.ok (.less, rest))
  | ⟨.lessEqual, _⟩ :: rest => some (.ok (.lessEqual, rest))
  | ⟨.greater, _⟩ :: rest => some (.ok (.greater, rest))
  | ⟨.greaterEqual, _⟩ :: rest => some (.ok (.greaterEqual, rest))
  | ⟨.in_, _⟩ :: rest => some (.ok (.isIn, rest))
  | ⟨.not_, _⟩ :: ⟨.in_, _⟩ :: rest => some (.ok (.notIn, rest))
  | ⟨.not_, _⟩ :: rest => some (.error rest)
  | ⟨.is_, _⟩ :: ⟨.not_, _⟩ :: rest => some (.ok (.isNot, rest))
  | ⟨.is_, _⟩ :: rest => some (.ok (.is, rest))
  | _ => none

/-- Reads comparisons with their right operands for as long as there are any. -/
def comparisons (operand : Parser Expr) : Nat → Parser (List (CompareOp × Expr))
  | 0 => succeed []
  | fuel + 1 => fun input =>
    match comparison? input with
    | none => .ok ([], input)
    | some (.error rest) => .error rest
    | some (.ok (op, rest)) =>
      andThen operand (fun right => map ((op, right) :: ·) (comparisons operand fuel)) rest

/-- An operand with the comparisons after it, which may be none. -/
def compared (left : Expr) : List (CompareOp × Expr) → Expr
  | [] => left
  | rest => .compare left rest

/-- Reads an operand and the comparisons after it. -/
def comparisonChain (fuel : Nat) (operand : Parser Expr) : Parser Expr :=
  andThen operand fun left => map (compared left) (comparisons operand fuel)

/-! ## Displays -/

/-- Reads what follows the first expression after `(`.  Only that one may be followed by a comma and
the end. -/
def parenthesizedRest (test : Parser Expr) (fuel : Nat) (first : Expr) : Parser Expr
  | ⟨.closeParen, _⟩ :: rest => .ok (first, rest)
  | ⟨.comma, _⟩ :: ⟨.closeParen, _⟩ :: rest => .ok (.tuple [first], rest)
  | ⟨.comma, _⟩ :: rest =>
    map (fun items => .tuple (first :: items)) (before isCloseParen (commaList test fuel)) rest
  | rest => .error rest

/-- Reads what follows `(`: nothing, one expression, or a tuple. -/
def parenthesized (test : Parser Expr) (fuel : Nat) : Parser Expr
  | ⟨.closeParen, _⟩ :: rest => .ok (.tuple [], rest)
  | input => andThen test (parenthesizedRest test fuel) input

/-- Reads the conditions of a comprehension. -/
def conditions (orTest : Parser Expr) : Nat → Parser (List Expr)
  | 0 => succeed []
  | fuel + 1 => fun input =>
    match input with
    | ⟨.if_, _⟩ :: rest =>
      andThen orTest (fun condition => map (condition :: ·) (conditions orTest fuel)) rest
    | rest => .ok ([], rest)

/-- Reads what follows `for` in a comprehension. -/
def comprehension (orTest : Parser Expr) (fuel : Nat) (element : Expr) : Parser Expr :=
  andThen (before isIn name) fun target =>
    andThen orTest fun source =>
      map (.comprehension element target source) (before isCloseBracket (conditions orTest fuel))

/-- Reads what follows the first expression after `[`. -/
def bracketedRest (test orTest : Parser Expr) (fuel : Nat) (first : Expr) : Parser Expr
  | ⟨.closeBracket, _⟩ :: rest => .ok (.list [first], rest)
  | ⟨.comma, _⟩ :: rest =>
    map (fun items => .list (first :: items)) (before isCloseBracket (commaList test fuel)) rest
  | ⟨.for_, _⟩ :: rest => comprehension orTest fuel first rest
  | rest => .error rest

/-- Reads what follows `[` where an expression starts: a list or a comprehension. -/
def bracketed (test orTest : Parser Expr) (fuel : Nat) : Parser Expr
  | ⟨.closeBracket, _⟩ :: rest => .ok (.list [], rest)
  | input => andThen test (bracketedRest test orTest fuel) input

/-- Reads a key, a colon and a value. -/
def entry (test : Parser Expr) : Parser (Expr × Expr) :=
  andThen (before isColon test) fun key => map (fun value => (key, value)) test

/-- Reads what follows the first entry of a mapping. -/
def dictRest (test : Parser Expr) (fuel : Nat) (first : Expr × Expr) : Parser Expr
  | ⟨.closeBrace, _⟩ :: rest => .ok (.dict [first], rest)
  | ⟨.comma, _⟩ :: rest =>
    map (fun entries => .dict (first :: entries))
      (before isCloseBrace (commaList (entry test) fuel)) rest
  | rest => .error rest

/-- Reads what follows the first expression after an opening brace. -/
def bracedRest (test : Parser Expr) (fuel : Nat) (first : Expr) : Parser Expr
  | ⟨.closeBrace, _⟩ :: rest => .ok (.set [first], rest)
  | ⟨.comma, _⟩ :: rest =>
    map (fun items => .set (first :: items)) (before isCloseBrace (commaList test fuel)) rest
  | ⟨.colon, _⟩ :: rest => andThen test (fun value => dictRest test fuel (first, value)) rest
  | rest => .error rest

/-- Reads what follows an opening brace: a mapping or a set. -/
def braced (test : Parser Expr) (fuel : Nat) : Parser Expr
  | ⟨.closeBrace, _⟩ :: rest => .ok (.dict [], rest)
  | input => andThen test (bracedRest test fuel) input

/-- The strings at the front; adjacent literals are one string. -/
def moreStrings : Input → String × Input
  | ⟨.string text, _⟩ :: rest =>
    let (texts, rest) := moreStrings rest
    (text ++ texts, rest)
  | rest => ("", rest)

/-- Reads a literal, a name or a display. -/
def atom (test orTest : Parser Expr) (fuel : Nat) : Parser Expr
  | ⟨.number value, _⟩ :: rest => .ok (.number value, rest)
  | ⟨.string text, _⟩ :: rest =>
    let (texts, rest) := moreStrings rest
    .ok (.string (text ++ texts), rest)
  | ⟨.true_, _⟩ :: rest => .ok (.bool true, rest)
  | ⟨.false_, _⟩ :: rest => .ok (.bool false, rest)
  | ⟨.none_, _⟩ :: rest => .ok (.none, rest)
  | ⟨.name name, _⟩ :: rest => .ok (.name name, rest)
  | ⟨.openParen, _⟩ :: rest => parenthesized test fuel rest
  | ⟨.openBracket, _⟩ :: rest => bracketed test orTest fuel rest
  | ⟨.openBrace, _⟩ :: rest => braced test fuel rest
  | input => .error input

/-! ## Primaries -/

/-- Reads an operand of a call. -/
def operand (test : Parser Expr) : Parser Operand
  | ⟨.name name, _⟩ :: ⟨.equal, _⟩ :: rest => map (.keyword name) test rest
  | ⟨.star, _⟩ :: rest => map .starred test rest
  | ⟨.doubleStar, _⟩ :: rest => map .doubleStarred test rest
  | input => map .positional test input

/-- Reads the operands of a call and the closing parenthesis. -/
def operands (test : Parser Expr) (fuel : Nat) : Parser (List Operand)
  | ⟨.closeParen, _⟩ :: rest => .ok ([], rest)
  | input => before isCloseParen (commaList (operand test) fuel) input

/-- Reads a part of a slice, which may be missing before a colon or the end. -/
def slicePart (test : Parser Expr) : Parser (Option Expr)
  | ⟨.colon, span⟩ :: rest => .ok (none, ⟨.colon, span⟩ :: rest)
  | ⟨.closeBracket, span⟩ :: rest => .ok (none, ⟨.closeBracket, span⟩ :: rest)
  | input => map some test input

/-- Reads what follows the second part of a slice. -/
def sliceRest (test : Parser Expr) (lower upper : Option Expr) : Parser Expr
  | ⟨.closeBracket, _⟩ :: rest => .ok (.slice lower upper none, rest)
  | ⟨.colon, _⟩ :: rest => map (.slice lower upper) (before isCloseBracket (slicePart test)) rest
  | rest => .error rest

/-- Reads what follows the first colon of a slice. -/
def sliceAfter (test : Parser Expr) (lower : Option Expr) : Parser Expr :=
  andThen (slicePart test) (sliceRest test lower)

/-- Reads what follows the first expression of a subscript. -/
def indexRest (test : Parser Expr) (first : Expr) : Parser Expr
  | ⟨.closeBracket, _⟩ :: rest => .ok (first, rest)
  | ⟨.colon, _⟩ :: rest => sliceAfter test (some first) rest
  | rest => .error rest

/-- Reads an index or a slice, and the closing bracket. -/
def index (test : Parser Expr) : Parser Expr
  | ⟨.colon, _⟩ :: rest => sliceAfter test none rest
  | input => andThen test (indexRest test) input

/-- Reads calls, subscripts and attributes after a value, at most `count` of them. -/
def suffixes (test : Parser Expr) (fuel : Nat) : Nat → Expr → Parser Expr
  | 0, value => succeed value
  | count + 1, value => fun input =>
    match input with
    | ⟨.openParen, _⟩ :: rest =>
      andThen (operands test fuel) (fun given => suffixes test fuel count (.call value given)) rest
    | ⟨.openBracket, _⟩ :: rest =>
      andThen (index test) (fun i => suffixes test fuel count (.subscript value i)) rest
    | ⟨.dot, _⟩ :: rest =>
      andThen name (fun field => suffixes test fuel count (.member value field)) rest
    | rest => .ok (value, rest)

/-- Reads an atom with its calls, subscripts and attributes. -/
def primary (test orTest : Parser Expr) (fuel : Nat) : Parser Expr :=
  andThen (atom test orTest fuel) (suffixes test fuel fuel)

/-- Reads `**` and a factor, if they follow. -/
def powerRest (factor : Parser Expr) (base : Expr) : Parser Expr
  | ⟨.doubleStar, _⟩ :: rest => map (.binary .pow base) factor rest
  | rest => .ok (base, rest)

/-! ## The recursive levels -/

/-- Reads the parameters of a lambda and the colon after them. -/
def parameters (fuel : Nat) : Parser (List String)
  | ⟨.colon, _⟩ :: rest => .ok ([], rest)
  | input => before isColon (commaList name fuel) input

/-- Reads a condition and an alternative, if they follow. -/
def conditionalRest (orTest test : Parser Expr) (body : Expr) : Parser Expr
  | ⟨.if_, _⟩ :: rest =>
    andThen (before isElse orTest) (fun condition => map (.conditional condition body) test) rest
  | rest => .ok (body, rest)

mutual

/-- Reads a conditional expression, a lambda, or what binds tighter. -/
def test : Nat → Parser Expr
  | 0 => stop
  | fuel + 1 => fun input =>
    match input with
    | ⟨.lambda_, _⟩ :: rest =>
      andThen (parameters fuel) (fun names => map (.lambda names) (test fuel)) rest
    | input => andThen (orTest fuel) (conditionalRest (orTest fuel) (test fuel)) input

/-- Reads operands of `or`, each made of operands of `and`. -/
def orTest : Nat → Parser Expr
  | 0 => stop
  | fuel + 1 => chain fuel orOperator (chain fuel andOperator (notTest fuel))

/-- Reads a negation, or a chain of comparisons. -/
def notTest : Nat → Parser Expr
  | 0 => stop
  | fuel + 1 => fun input =>
    match input with
    | ⟨.not_, _⟩ :: rest => map (.unary .not) (notTest fuel) rest
    | input => comparisonChain fuel (binaryLevels fuel (factor fuel)) input

/-- Reads a signed operand, or a power. -/
def factor : Nat → Parser Expr
  | 0 => stop
  | fuel + 1 => fun input =>
    match input with
    | [] => .error []
    | token :: rest =>
      match signOperator token.item with
      | some op => map (.unary op) (factor fuel) rest
      | none =>
        andThen (primary (test fuel) (orTest fuel) fuel) (powerRest (factor fuel)) (token :: rest)

end

/-! ## Whole texts -/

/-- Reads a whole expression: an assignment to a name, or a test. -/
def whole (fuel : Nat) : Parser Expr
  | ⟨.name name, _⟩ :: ⟨.equal, _⟩ :: rest => map (.assign name) (test fuel) rest
  | input => test fuel input

/-- The error at the first token of `rest`, or at the end of `tokens` if there is none. It names the
place only: its list of what could stand there instead is left empty, unlike a program's. -/
def errorAt (tokens rest : Input) : SyntaxError :=
  match rest with
  | [] => ⟨.unexpectedEnd [], ⟨lastStop tokens, lastStop tokens⟩⟩
  | token :: _ => ⟨.unexpectedToken token.item.text [], token.span⟩

/-- The greatest number of tokens in an expression. -/
def tokenLimit : Nat := 1000

/-- A fuel that is enough for a number of tokens. -/
def parseFuel (count : Nat) : Nat := 4 * count + 8

/-- The tree of a list of tokens, or the first place that shows that it has none. -/
def parseTokens (tokens : Input) : Except SyntaxError Expr :=
  match tokens[tokenLimit]? with
  | some token => .error ⟨.tooLong tokenLimit, token.span⟩
  | none =>
    match whole (parseFuel tokens.length) tokens with
    | .ok (expr, []) => .ok expr
    | .ok (_, rest) => .error (errorAt tokens rest)
    | .error rest => .error (errorAt tokens rest)

/-- The tree of an expression text, or the first place that shows that it has none. -/
def parse (source : String) : Except SyntaxError Expr := do
  let tokens ← scan source
  parseTokens tokens

end CallScript.Expression
