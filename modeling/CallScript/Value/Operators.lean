import CallScript.Decimal.Binary
import CallScript.Environment
import CallScript.RuntimeError
import CallScript.Value.Matrix

/-!
# Operators on values

The operators an expression may use.  Where an operator needs a whole number it takes doubles that
are equal to an integer of magnitude below `2 ^ 63`; repetition is bounded by `sequenceLimit`.
-/

namespace CallScript.Value

/-- The integer a double is equal to, if it is one of magnitude below `2 ^ 63`. -/
def integer? (x : Float) : Option Int :=
  (wholeNumber? x).filter fun n => n.natAbs < 1 <<< 63

/-- The longest sequence a repetition may give: bytes of a string, items of a list. -/
def sequenceLimit : Nat := 1 <<< 24

/-- How often a sequence of the given length is repeated by a number. -/
def repetitions (x : Float) (length : Nat) : Except RuntimeError Nat :=
  match integer? x with
  | some n =>
    let count := n.toNat
    if length * count ≤ sequenceLimit then .ok count else .error (.sequenceTooLarge sequenceLimit)
  | Option.none => .error (.typeMismatch .fractionalCount)

/-- A string some number of times in sequence. -/
def repeatString (s : String) (count : Nat) : String :=
  if s.isEmpty then "" else Nat.repeat (· ++ s) count ""

/-- A list some number of times in sequence. -/
def repeatList (xs : List Value) (count : Nat) : List Value :=
  if xs.isEmpty then [] else (List.replicate count xs).flatten

/-- A string repeated by a number. -/
def timesString (s : String) (x : Float) : Except RuntimeError Value := do
  let count ← repetitions x s.utf8ByteSize
  return .string (repeatString s count)

/-- A list repeated by a number. -/
def timesList (xs : List Value) (x : Float) : Except RuntimeError Value := do
  let count ← repetitions x xs.length
  return .list (repeatList xs count)

/-- The error for operands that an operator has no meaning for. -/
def unsupported (op : BinaryOp) (left right : Value) : RuntimeError :=
  .typeMismatch (.operands op left.kind right.kind)

/-- An operator that has a meaning for numbers only. -/
def arithmetic (op : BinaryOp) (f : Float → Float → Except RuntimeError Float)
    (left right : Value) : Except RuntimeError Value :=
  match left, right with
  | .number x, .number y => (f x y).map .number
  | left, right => .error (unsupported op left right)

/-- The sum of numbers; strings and lists are joined. -/
def add (left right : Value) : Except RuntimeError Value :=
  match left, right with
  | .number x, .number y => .ok (.number (x + y))
  | .string s, .string t => .ok (.string (s ++ t))
  | .list xs, .list ys => .ok (.list (xs ++ ys))
  | left, right => .error (unsupported .add left right)

/-- The product of numbers; a string or a list with a number is repeated. -/
def multiply (left right : Value) : Except RuntimeError Value :=
  match left, right with
  | .number x, .number y => .ok (.number (x * y))
  | .string s, .number x => timesString s x
  | .number x, .string s => timesString s x
  | .list xs, .number x => timesList xs x
  | .number x, .list xs => timesList xs x
  | left, right => .error (unsupported .mul left right)

/-- The quotient of two numbers. -/
def quotient (x y : Float) : Except RuntimeError Float :=
  if y == 0.0 then .error .divisionByZero else .ok (x / y)

/-- A power of a number.  Zero has no negative powers, a negative number only whole ones. -/
def power (base exponent : Float) : Except RuntimeError Float :=
  if base == 0.0 && exponent < 0.0 then .error .divisionByZero
  else if base < 0.0 && (wholeNumber? exponent).isNone then
    .error (.typeMismatch .fractionalPower)
  else .ok (base.pow exponent)

/-- The exclusive or of two integers of magnitude below `2 ^ 63` in two's complement. -/
def xorIntegers (a b : Int) : Int :=
  (Int64.ofInt a ^^^ Int64.ofInt b).toInt

/-- The exclusive or of two whole numbers, as the nearest double. -/
def exclusiveOr (x y : Float) : Except RuntimeError Float :=
  match integer? x, integer? y with
  | some a, some b => .ok (Float.ofInt (xorIntegers a b))
  | _, _ => .error (.typeMismatch .fractionalBits)

/-- The product of vectors and matrices. -/
def matMul (left right : Value) : Except RuntimeError Value :=
  match product left right with
  | .value v => .ok v
  | .unaligned => .error (.typeMismatch .unalignedShapes)
  | .undefined => .error (unsupported .matMul left right)

/-- A binary operator applied to two values. -/
def binary (op : BinaryOp) (left right : Value) : Except RuntimeError Value :=
  match op with
  | .add => add left right
  | .sub => arithmetic op (fun x y => .ok (x - y)) left right
  | .mul => multiply left right
  | .div => arithmetic op quotient left right
  | .pow => arithmetic op power left right
  | .bitXor => arithmetic op exclusiveOr left right
  | .matMul => matMul left right
  | op => .error (.unsafeExpression (.operator op))

/-- A unary operator applied to a value. -/
def unary (op : UnaryOp) (operand : Value) : Except RuntimeError Value :=
  match op, operand with
  | .neg, .number x => .ok (.number (-x))
  | .neg, operand => .error (.typeMismatch (.negated operand.kind))
  | op, _ => .error (.unsafeExpression (.sign op))

/-- The place a number points to in a sequence: counted from the end if it is negative. -/
def place (x : Float) (length : Nat) : Except RuntimeError Nat :=
  match integer? x with
  | some n =>
    let resolved := if n < 0 then n + length else n
    if resolved < 0 || (length : Int) ≤ resolved then .error (.indexOutOfBounds n length)
    else .ok resolved.toNat
  | Option.none => .error (.typeMismatch .fractionalIndex)

/-- The value a mapping has under a key. -/
def entry (key : String) (value : Option Value) : Except RuntimeError Value :=
  match value with
  | some v => .ok v
  | Option.none => .error (.keyNotFound key)

/-- An item of a list, a character of a string, or the value under a key of a mapping; a view hands
the value out as an environment does. -/
def subscript (value index : Value) : Except RuntimeError Value :=
  match value, index with
  | .list xs, .number x => do
    let i ← place x xs.length
    return xs.getD i .none
  | .string s, .number x => do
    let cs := s.toList
    let i ← place x cs.length
    return .string (String.ofList (cs[i]?.toList))
  | .map es, .string key => entry key (Entries.get? key es)
  | .view es, .string key => entry key (Environment.get? ⟨es⟩ key)
  | value, index => .error (.typeMismatch (.subscript value.kind index.kind))

end CallScript.Value
