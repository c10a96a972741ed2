import CallScript.Value.Basic

/-!
# Vectors and matrices

A list of numbers is a vector, and a list of equally long vectors, at least one, is a matrix.
Products are sums of products from left to right, starting from negative zero, so that the sign of a
sum of zeros is that of its terms.
-/

namespace CallScript

/-- The sum of the products of two vectors, from left to right. -/
def dot (xs ys : List Float) : Float :=
  (List.zipWith (· * ·) xs ys).foldl (· + ·) (-0.0)

/-- The entries of a matrix in column `j`. -/
def column (rows : List (List Float)) (j : Nat) : List Float :=
  rows.map fun row => row.getD j 0.0

/-- The number of columns of a matrix. -/
def width (rows : List (List Float)) : Nat :=
  (rows.headD []).length

/-- The product of a vector with each column of a matrix. -/
def dotColumns (xs : List Float) (rows : List (List Float)) : List Float :=
  (List.range (width rows)).map fun j => dot xs (column rows j)

namespace Value

/-- The numbers of a vector. -/
def vector? (value : Value) : Option (List Float) := do
  let items ← value.items?
  items.mapM number?

/-- The rows of a matrix. -/
def matrix? (value : Value) : Option (List (List Float)) := do
  let items ← value.items?
  let rows ← items.mapM vector?
  guard (!rows.isEmpty && rows.all fun row => row.length = width rows)
  return rows

/-- A vector as a value. -/
def ofVector (xs : List Float) : Value :=
  .list (xs.map .number)

/-- What a product of vectors and matrices comes to. -/
inductive Product where
  /-- The shapes fit. -/
  | value (product : Value)
  /-- Both operands are vectors or matrices, and their shapes do not fit. -/
  | unaligned
  /-- An operand is neither a vector nor a matrix. -/
  | undefined

/-- The product of two values as matrices or vectors. -/
def product (left right : Value) : Product :=
  match left.matrix?, right.matrix? with
  | some a, some b =>
    if a.all fun row => row.length = b.length then
      .value (.list (a.map fun row => ofVector (dotColumns row b)))
    else .unaligned
  | some a, Option.none =>
    match right.vector? with
    | some v =>
      if a.all fun row => row.length = v.length then .value (ofVector (a.map fun row => dot row v))
      else .unaligned
    | Option.none => .undefined
  | Option.none, some b =>
    match left.vector? with
    | some v => if v.length = b.length then .value (ofVector (dotColumns v b)) else .unaligned
    | Option.none => .undefined
  | Option.none, Option.none =>
    match left.vector?, right.vector? with
    | some v, some w => if v.length = w.length then .value (.number (dot v w)) else .unaligned
    | _, _ => .undefined

end Value

end CallScript
