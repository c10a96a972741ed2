import CallScript.RuntimeError

/-!
# Allowed expressions

Of all that the grammar accepts, the engine evaluates numbers, names, seven binary operators, the
minus sign, subscripts, and calls of a name with positional arguments.  `Expr.check` refuses
everything else before an expression has any effect, naming the first thing that is not allowed.
-/

namespace CallScript

/-- The binary operators that have a meaning. -/
def BinaryOp.isAllowed : BinaryOp → Bool
  | .add => true
  | .sub => true
  | .mul => true
  | .div => true
  | .pow => true
  | .bitXor => true
  | .matMul => true
  | _ => false

/-- The unary operators that have a meaning. -/
def UnaryOp.isAllowed : UnaryOp → Bool
  | .neg => true
  | _ => false

/-- The refusal of an expression for what it contains. -/
def refuse (what : Refusal) : Except RuntimeError Unit :=
  .error (.unsafeExpression what)

mutual

/-- Refuses an expression for the first thing in it that is not allowed: a node before its parts,
the parts from left to right. -/
def Expr.check : Expr → Except RuntimeError Unit
  | .number _ => .ok ()
  | .name _ => .ok ()
  | .binary op left right =>
    if op.isAllowed then
      match left.check with
      | .ok () => right.check
      | .error e => .error e
    else refuse (.operator op)
  | .unary op operand => if op.isAllowed then operand.check else refuse (.sign op)
  | .call (.name _) operands => Operand.checkAll operands
  | .call _ _ => refuse .computedCallee
  | .subscript value index =>
    match value.check with
    | .ok () => index.check
    | .error e => .error e
  | e => refuse (.node e.kind)

/-- Refuses the operands of a call for the first thing in them that is not allowed. -/
def Operand.checkAll : List Operand → Except RuntimeError Unit
  | [] => .ok ()
  | .positional value :: operands =>
    match value.check with
    | .ok () => Operand.checkAll operands
    | .error e => .error e
  | operand :: _ => refuse (.operand operand.kind)

end

end CallScript
