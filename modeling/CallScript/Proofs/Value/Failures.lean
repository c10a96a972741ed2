import CallScript.Expression.Allowed
import CallScript.Value.Operators

/-!
# What operators fail with

An operator fails for its operands (`RuntimeError.IsOperand`), or because no expression may use it,
and the check of an expression fails for what it may not contain.  None of these errors is about the
nesting of blocks.
-/

namespace CallScript

/-- An error for operands that an operator has no value for. -/
def RuntimeError.IsOperand : RuntimeError → Prop
  | .typeMismatch _ => True
  | .divisionByZero => True
  | .indexOutOfBounds _ _ => True
  | .keyNotFound _ => True
  | .sequenceTooLarge _ => True
  | _ => False

/-- An error that is not about the nesting of blocks. -/
def RuntimeError.IsOrdinary (e : RuntimeError) : Prop :=
  ∀ limit, e ≠ .stackOverflow limit

theorem RuntimeError.IsOperand.isOrdinary {e : RuntimeError} (h : e.IsOperand) : e.IsOrdinary := by
  rintro limit rfl
  exact h

/-- A computation fails with errors that satisfy `p` only. -/
def FailsOnly {α : Type} (p : RuntimeError → Prop) (result : Except RuntimeError α) : Prop :=
  ∀ e, result = .error e → p e

namespace FailsOnly

variable {α β : Type} {p q : RuntimeError → Prop} {result : Except RuntimeError α}

theorem ok (a : α) : FailsOnly p (.ok a : Except RuntimeError α) := nofun

theorem error {e : RuntimeError} (h : p e) : FailsOnly p (.error e : Except RuntimeError α) := by
  rintro _ ⟨⟩
  exact h

theorem imp (h : FailsOnly p result) (hpq : ∀ e, p e → q e) : FailsOnly q result :=
  fun e he => hpq e (h e he)

theorem bind {f : α → Except RuntimeError β} (h : FailsOnly p result)
    (hf : ∀ a, FailsOnly p (f a)) : FailsOnly p (result >>= f) := by
  cases result with
  | ok a => exact hf a
  | error e => exact error (h e rfl)

theorem map (h : FailsOnly p result) (f : α → β) : FailsOnly p (result.map f) := by
  cases result with
  | ok a => exact ok (f a)
  | error e => exact error (h e rfl)

end FailsOnly

namespace Value

open RuntimeError (IsOperand)

theorem arithmetic_failsOnly (op : BinaryOp) {f : Float → Float → Except RuntimeError Float}
    (hf : ∀ x y, FailsOnly IsOperand (f x y)) (left right : Value) :
    FailsOnly IsOperand (arithmetic op f left right) := by
  unfold arithmetic
  split
  · next x y => exact (hf x y).map Value.number
  · exact .error trivial

theorem quotient_failsOnly (x y : Float) : FailsOnly IsOperand (quotient x y) := by
  unfold quotient
  split
  · exact .error trivial
  · exact .ok _

theorem power_failsOnly (x y : Float) : FailsOnly IsOperand (power x y) := by
  unfold power
  split
  · exact .error trivial
  · split
    · exact .error trivial
    · exact .ok _

theorem exclusiveOr_failsOnly (x y : Float) : FailsOnly IsOperand (exclusiveOr x y) := by
  unfold exclusiveOr
  split
  · exact .ok _
  · exact .error trivial

theorem repetitions_failsOnly (x : Float) (length : Nat) :
    FailsOnly IsOperand (repetitions x length) := by
  unfold repetitions
  split
  · dsimp only
    split
    · exact .ok _
    · exact .error trivial
  · exact .error trivial

theorem add_failsOnly (left right : Value) : FailsOnly IsOperand (add left right) := by
  unfold add
  split
  · exact .ok _
  · exact .ok _
  · exact .ok _
  · exact .error trivial

theorem multiply_failsOnly (left right : Value) : FailsOnly IsOperand (multiply left right) := by
  unfold multiply
  split
  · exact .ok _
  · exact (repetitions_failsOnly _ _).bind fun _ => .ok _
  · exact (repetitions_failsOnly _ _).bind fun _ => .ok _
  · exact (repetitions_failsOnly _ _).bind fun _ => .ok _
  · exact (repetitions_failsOnly _ _).bind fun _ => .ok _
  · exact .error trivial

theorem matMul_failsOnly (left right : Value) : FailsOnly IsOperand (matMul left right) := by
  unfold matMul
  split
  · exact .ok _
  · exact .error trivial
  · exact .error trivial

theorem binary_failsOnly (op : BinaryOp) (left right : Value) :
    FailsOnly (fun e => e.IsOperand ∨ op.isAllowed = false ∧ e = .unsafeExpression (.operator op))
      (binary op left right) := by
  cases op with
  | add => exact (add_failsOnly left right).imp fun _ => .inl
  | sub => exact (arithmetic_failsOnly .sub (fun _ _ => .ok _) left right).imp fun _ => .inl
  | mul => exact (multiply_failsOnly left right).imp fun _ => .inl
  | div => exact (arithmetic_failsOnly .div quotient_failsOnly left right).imp fun _ => .inl
  | pow => exact (arithmetic_failsOnly .pow power_failsOnly left right).imp fun _ => .inl
  | bitXor =>
    exact (arithmetic_failsOnly .bitXor exclusiveOr_failsOnly left right).imp fun _ => .inl
  | matMul => exact (matMul_failsOnly left right).imp fun _ => .inl
  | _ => exact .error (.inr ⟨rfl, rfl⟩)

theorem unary_failsOnly (op : UnaryOp) (operand : Value) :
    FailsOnly (fun e => e.IsOperand ∨ op.isAllowed = false ∧ e = .unsafeExpression (.sign op))
      (unary op operand) := by
  cases op with
  | neg =>
    cases operand with
    | number x => exact .ok _
    | _ => exact .error (.inl trivial)
  | _ => exact .error (.inr ⟨rfl, rfl⟩)

theorem place_failsOnly (x : Float) (length : Nat) : FailsOnly IsOperand (place x length) := by
  unfold place
  split
  · next n _ =>
    dsimp only
    generalize (if n < 0 then n + length else n) = resolved
    split
    · exact .error trivial
    · exact .ok _
  · exact .error trivial

theorem entry_failsOnly (key : String) (value : Option Value) :
    FailsOnly IsOperand (entry key value) := by
  cases value with
  | some v => exact .ok v
  | none => exact .error trivial

theorem subscript_failsOnly (value index : Value) :
    FailsOnly IsOperand (subscript value index) := by
  unfold subscript
  split
  · exact (place_failsOnly _ _).bind fun _ => .ok _
  · exact (place_failsOnly _ _).bind fun _ => .ok _
  · exact entry_failsOnly _ _
  · exact entry_failsOnly _ _
  · exact .error trivial

end Value

mutual

theorem Expr.check_failsOnly :
    ∀ expr : Expr, FailsOnly (fun e => ∃ what, e = .unsafeExpression what) expr.check
  | .number _ | .name _ => by
    rw [Expr.check]
    exact .ok ()
  | .binary op left right => by
    rw [Expr.check]
    split
    · split
      · exact Expr.check_failsOnly right
      · next e he => exact .error (Expr.check_failsOnly left e he)
    · exact .error ⟨_, rfl⟩
  | .unary op operand => by
    rw [Expr.check]
    split
    · exact Expr.check_failsOnly operand
    · exact .error ⟨_, rfl⟩
  | .call callee operands => by
    cases callee with
    | name name =>
      rw [Expr.check]
      exact Operand.checkAll_failsOnly operands
    | _ => exact .error ⟨_, rfl⟩
  | .subscript value index => by
    rw [Expr.check]
    split
    · exact Expr.check_failsOnly index
    · next e he => exact .error (Expr.check_failsOnly value e he)
  | .string .. | .bool .. | .none | .boolean .. | .compare .. | .conditional .. | .lambda ..
  | .member .. | .slice .. | .list .. | .tuple .. | .dict .. | .set .. | .comprehension ..
  | .assign .. => .error ⟨_, rfl⟩

theorem Operand.checkAll_failsOnly : ∀ operands : List Operand,
    FailsOnly (fun e => ∃ what, e = .unsafeExpression what) (Operand.checkAll operands)
  | [] => .ok ()
  | .positional value :: operands => by
    rw [Operand.checkAll]
    split
    · exact Operand.checkAll_failsOnly operands
    · next e he => exact .error (Expr.check_failsOnly value e he)
  | .keyword .. :: _ | .starred .. :: _ | .doubleStarred .. :: _ => .error ⟨_, rfl⟩

end

end CallScript
