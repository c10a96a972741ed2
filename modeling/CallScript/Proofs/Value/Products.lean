import CallScript.Value.Operators
import Mathlib.Data.Fin.VecNotation
import Mathlib.Data.List.OfFn
import Mathlib.LinearAlgebra.Matrix.Defs

/-!
# Products of vectors and matrices

A vector is the value of a tuple of numbers (`ofTuple`), a matrix that of at least one row of
equally long tuples (`ofMatrix`); these are the values that `vector?` and `matrix?` take
(`vector?_eq_some_iff`, `matrix?_eq_some_iff`).  A product of values is the product of the tuples
and matrices if their sizes fit, and fails otherwise (`MultipliesMatrices`).
-/

namespace CallScript.Value

/-- The value of a tuple of numbers. -/
def ofTuple {n : ℕ} (v : Fin n → Float) : Value :=
  .list (List.ofFn fun i => .number (v i))

/-- The value of a matrix, as the list of its rows. -/
def ofMatrix {m n : ℕ} (A : Matrix (Fin m) (Fin n) Float) : Value :=
  .list (List.ofFn fun i => ofTuple (A i))

/-- The sum of the products of two tuples, from left to right, starting with negative zero. -/
def dotProduct {n : ℕ} (v w : Fin n → Float) : Float :=
  Fin.foldl n (fun sum i => sum + v i * w i) (-0.0)

/-- A list of numbers. -/
def IsVector (value : Value) : Prop :=
  ∃ n, ∃ v : Fin n → Float, value = ofTuple v

/-- A list of equally long lists of numbers, at least one. -/
def IsMatrix (value : Value) : Prop :=
  ∃ m n, ∃ A : Matrix (Fin (m + 1)) (Fin n) Float, value = ofMatrix A

/-! ## Reading vectors and matrices -/

/-- Items that are read one by one are those that are written one by one. -/
theorem mapM_eq_some_iff {α β : Type} {read : α → Option β} {write : β → α}
    (h : ∀ a b, read a = some b ↔ a = write b) (as : List α) (bs : List β) :
    as.mapM read = some bs ↔ as = bs.map write := by
  induction as generalizing bs with
  | nil => cases bs <;> simp
  | cons a as ih =>
    rw [List.mapM_cons]
    constructor
    · intro hread
      obtain ⟨b, hb, hrest⟩ := Option.bind_eq_some_iff.1 hread
      obtain ⟨bs', hbs, hcons⟩ := Option.bind_eq_some_iff.1 hrest
      cases hcons
      rw [(h a b).1 hb, (ih bs').1 hbs, List.map_cons]
    · intro hwrite
      cases bs with
      | nil => cases hwrite
      | cons b bs =>
        rw [List.map_cons, List.cons.injEq] at hwrite
        rw [(h a b).2 hwrite.1, (ih bs).2 hwrite.2]
        rfl

theorem number?_eq_some_iff (value : Value) (x : Float) :
    value.number? = some x ↔ value = .number x := by
  cases value <;> simp [number?]

theorem vector?_eq_some_iff (value : Value) (xs : List Float) :
    value.vector? = some xs ↔ value = ofVector xs := by
  cases value with
  | list items =>
    change items.mapM number? = some xs ↔ _
    rw [mapM_eq_some_iff number?_eq_some_iff, ofVector, list.injEq]
  | _ => exact iff_of_false nofun nofun

theorem matrix?_eq_some_iff (value : Value) (rows : List (List Float)) :
    value.matrix? = some rows ↔
      value = .list (rows.map ofVector) ∧ rows ≠ [] ∧ ∀ row ∈ rows, row.length = width rows := by
  cases value with
  | list items =>
    rw [list.injEq, ← mapM_eq_some_iff vector?_eq_some_iff]
    change ((items.mapM vector?).bind fun rows => do
      guard (!rows.isEmpty && rows.all fun row => row.length = width rows)
      return rows) = some rows ↔ _
    cases items.mapM vector? with
    | none => simp
    | some read =>
      rw [Option.bind_some, Option.some_inj]
      constructor
      · intro hguard
        obtain ⟨⟨⟩, hshape, hread⟩ := Option.bind_eq_some_iff.1 hguard
        cases hread
        refine ⟨rfl, ?_⟩
        simpa using hshape
      · rintro ⟨rfl, hne, hlength⟩
        have hshape : (!read.isEmpty && read.all fun row => row.length = width read) = true := by
          simpa using ⟨hne, hlength⟩
        rw [guard, if_pos hshape]
        rfl
  | _ => exact iff_of_false nofun nofun

/-- The rows of a matrix as lists. -/
def rowsOf {m n : ℕ} (A : Matrix (Fin m) (Fin n) Float) : List (List Float) :=
  List.ofFn fun i => List.ofFn (A i)

section Shapes

variable {m n : ℕ}

theorem ofTuple_eq (v : Fin n → Float) : ofTuple v = ofVector (List.ofFn v) := by
  rw [ofTuple, ofVector, List.map_ofFn]
  rfl

theorem map_rowsOf {α : Type} (f : List Float → α) (A : Matrix (Fin m) (Fin n) Float) :
    (rowsOf A).map f = List.ofFn fun i => f (List.ofFn (A i)) :=
  List.map_ofFn

theorem ofMatrix_eq (A : Matrix (Fin m) (Fin n) Float) :
    ofMatrix A = .list ((rowsOf A).map ofVector) := by
  rw [map_rowsOf]
  simp only [ofMatrix, ofTuple_eq]

theorem length_of_mem_rowsOf {A : Matrix (Fin m) (Fin n) Float} {row : List Float}
    (h : row ∈ rowsOf A) : row.length = n := by
  obtain ⟨i, rfl⟩ := List.mem_ofFn.1 h
  exact List.length_ofFn

theorem length_rowsOf (A : Matrix (Fin m) (Fin n) Float) : (rowsOf A).length = m :=
  List.length_ofFn

theorem width_rowsOf (A : Matrix (Fin (m + 1)) (Fin n) Float) : width (rowsOf A) = n := by
  rw [width, rowsOf, List.ofFn_succ]
  exact List.length_ofFn

theorem vector?_ofTuple (v : Fin n → Float) : (ofTuple v).vector? = some (List.ofFn v) :=
  (vector?_eq_some_iff _ _).2 (ofTuple_eq v)

theorem matrix?_ofMatrix (A : Matrix (Fin (m + 1)) (Fin n) Float) :
    (ofMatrix A).matrix? = some (rowsOf A) := by
  refine (matrix?_eq_some_iff _ _).2 ⟨ofMatrix_eq A, ?_, fun row hrow => ?_⟩
  · exact List.ne_nil_of_length_pos (by rw [length_rowsOf]; exact Nat.succ_pos m)
  · rw [length_of_mem_rowsOf hrow, width_rowsOf]

/-- A list of numbers is not a list of lists. -/
theorem matrix?_ofTuple (v : Fin n → Float) : (ofTuple v).matrix? = Option.none := by
  rw [Option.eq_none_iff_forall_ne_some]
  intro rows hrows
  obtain ⟨hvalue, hne, -⟩ := (matrix?_eq_some_iff _ _).1 hrows
  obtain ⟨row, rest, rfl⟩ := List.exists_cons_of_ne_nil hne
  cases n with
  | zero => cases hvalue
  | succ n =>
    rw [ofTuple, List.ofFn_succ, List.map_cons, list.injEq, List.cons.injEq] at hvalue
    cases hvalue.1

theorem isVector_of_vector? {value : Value} {xs : List Float} (h : value.vector? = some xs) :
    IsVector value := by
  refine ⟨xs.length, xs.get, ?_⟩
  rw [ofTuple_eq, List.ofFn_get]
  exact (vector?_eq_some_iff value xs).1 h

theorem ofTuple_get {row : List Float} (h : n = row.length) :
    ofTuple (fun j : Fin n => row.get (j.cast h)) = ofVector row := by
  subst h
  exact (ofTuple_eq row.get).trans (congrArg ofVector (List.ofFn_get row))

theorem isMatrix_of_matrix? {value : Value} {rows : List (List Float)}
    (h : value.matrix? = some rows) : IsMatrix value := by
  obtain ⟨rfl, hne, hlength⟩ := (matrix?_eq_some_iff value rows).1 h
  obtain ⟨first, rest, rfl⟩ := List.exists_cons_of_ne_nil hne
  have hget (i : Fin (rest.length + 1)) : first.length = ((first :: rest).get i).length :=
    (hlength _ (List.get_mem (first :: rest) i)).symm
  refine ⟨rest.length, first.length,
    fun i j => ((first :: rest).get i).get (j.cast (hget i)), ?_⟩
  have hrows : (List.ofFn fun i => ofTuple fun j => ((first :: rest).get i).get
      (j.cast (hget i))) = (first :: rest).map ofVector := by
    simp only [ofTuple_get (hget _)]
    conv_rhs => rw [← List.ofFn_get (first :: rest), List.map_ofFn]
    rfl
  exact congrArg Value.list hrows.symm

/-! ## Sums of products -/

theorem foldl_zipWith_ofFn (v w : Fin n → Float) (start : Float) :
    (List.zipWith (· * ·) (List.ofFn v) (List.ofFn w)).foldl (· + ·) start =
      Fin.foldl n (fun sum i => sum + v i * w i) start := by
  induction n generalizing start with
  | zero => rfl
  | succ n ih =>
    rw [List.ofFn_succ, List.ofFn_succ, List.zipWith_cons_cons, List.foldl_cons, ih,
      Fin.foldl_succ]

theorem dot_ofFn (v w : Fin n → Float) : dot (List.ofFn v) (List.ofFn w) = dotProduct v w :=
  foldl_zipWith_ofFn v w (-0.0)

/-- Every row reaches as far as the width of the matrix, so each column has an entry in it. -/
theorem column_rowsOf (A : Matrix (Fin m) (Fin n) Float) (j : Fin n) :
    column (rowsOf A) j = List.ofFn fun i => A i j := by
  rw [column, map_rowsOf]
  simp

theorem dotColumns_rowsOf (v : Fin (m + 1) → Float) (A : Matrix (Fin (m + 1)) (Fin n) Float) :
    dotColumns (List.ofFn v) (rowsOf A) = List.ofFn fun j => dotProduct v fun i => A i j := by
  rw [dotColumns, width_rowsOf]
  refine List.ext_getElem (by simp) fun j hj hj' => ?_
  rw [List.length_map, List.length_range] at hj
  rw [List.getElem_map, List.getElem_range, List.getElem_ofFn, ← dot_ofFn,
    column_rowsOf A ⟨j, hj⟩]

theorem all_length_rowsOf (A : Matrix (Fin (m + 1)) (Fin n) Float) (k : ℕ) :
    ((rowsOf A).all fun row => row.length = k) = decide (n = k) := by
  rw [Bool.eq_iff_iff, List.all_eq_true, decide_eq_true_iff]
  constructor
  · intro h
    have hfirst : List.ofFn (A 0) ∈ rowsOf A := List.mem_ofFn.2 ⟨0, rfl⟩
    rw [← length_of_mem_rowsOf hfirst]
    exact of_decide_eq_true (h _ hfirst)
  · rintro rfl row hrow
    exact decide_eq_true (length_of_mem_rowsOf hrow)

end Shapes

/-! ## Products -/

/-- The error for sizes that do not fit. -/
abbrev unaligned : RuntimeError :=
  .typeMismatch .unalignedShapes

/-- Sizes decide between a product and an error. -/
theorem matMul_of_product {left right value : Value} {fits : Prop} [Decidable fits]
    (h : product left right = if fits then .value value else .unaligned) :
    matMul left right = if fits then .ok value else .error unaligned := by
  rw [matMul, h]
  by_cases hfits : fits
  · rw [if_pos hfits, if_pos hfits]
  · rw [if_neg hfits, if_neg hfits]

section Products

variable {m n p q : ℕ}

theorem matMul_matrix_matrix (A : Matrix (Fin (m + 1)) (Fin n) Float)
    (B : Matrix (Fin (p + 1)) (Fin q) Float) : matMul (ofMatrix A) (ofMatrix B) =
      if n = p + 1 then .ok (.list ((rowsOf A).map fun row => ofVector (dotColumns row (rowsOf B))))
      else .error unaligned := by
  apply matMul_of_product
  rw [product, matrix?_ofMatrix, matrix?_ofMatrix]
  simp only [all_length_rowsOf, length_rowsOf, decide_eq_true_eq]

theorem matMul_matrix_vector (A : Matrix (Fin (m + 1)) (Fin n) Float) (v : Fin p → Float) :
    matMul (ofMatrix A) (ofTuple v) =
      if n = p then .ok (ofVector ((rowsOf A).map fun row => dot row (List.ofFn v)))
      else .error unaligned := by
  apply matMul_of_product
  rw [product, matrix?_ofMatrix, matrix?_ofTuple]
  simp only [vector?_ofTuple, all_length_rowsOf, List.length_ofFn, decide_eq_true_eq]

theorem matMul_vector_matrix (v : Fin n → Float) (B : Matrix (Fin (p + 1)) (Fin q) Float) :
    matMul (ofTuple v) (ofMatrix B) =
      if n = p + 1 then .ok (ofVector (dotColumns (List.ofFn v) (rowsOf B)))
      else .error unaligned := by
  apply matMul_of_product
  rw [product, matrix?_ofTuple, matrix?_ofMatrix]
  simp only [vector?_ofTuple, length_rowsOf, List.length_ofFn]

theorem matMul_vector_vector (v : Fin n → Float) (w : Fin p → Float) :
    matMul (ofTuple v) (ofTuple w) =
      if n = p then .ok (.number (dot (List.ofFn v) (List.ofFn w))) else .error unaligned := by
  apply matMul_of_product
  rw [product, matrix?_ofTuple, matrix?_ofTuple]
  simp only [vector?_ofTuple, List.length_ofFn]

end Products

/-- Where an operand is neither a vector nor a matrix, there is no product. -/
theorem product_eq_undefined {left right : Value}
    (h : ¬((IsVector left ∨ IsMatrix left) ∧ (IsVector right ∨ IsMatrix right))) :
    product left right = .undefined := by
  unfold product
  split
  · next a b ha hb =>
    exact absurd ⟨.inr (isMatrix_of_matrix? ha), .inr (isMatrix_of_matrix? hb)⟩ h
  · next a ha hb =>
    split
    · next v hv => exact absurd ⟨.inr (isMatrix_of_matrix? ha), .inl (isVector_of_vector? hv)⟩ h
    · rfl
  · next b ha hb =>
    split
    · next v hv => exact absurd ⟨.inl (isVector_of_vector? hv), .inr (isMatrix_of_matrix? hb)⟩ h
    · rfl
  · split
    · next v w hv hw =>
      exact absurd ⟨.inl (isVector_of_vector? hv), .inl (isVector_of_vector? hw)⟩ h
    · rfl

/-- What a product of values has to be: the product of the tuples and matrices where the sizes fit,
and an error otherwise. -/
structure MultipliesMatrices (mul : Value → Value → Except RuntimeError Value) : Prop where
  matrix_matrix : ∀ {m n p : ℕ} (A : Matrix (Fin (m + 1)) (Fin (n + 1)) Float)
    (B : Matrix (Fin (n + 1)) (Fin p) Float),
    mul (ofMatrix A) (ofMatrix B) = .ok (ofMatrix fun i j => dotProduct (A i) fun k => B k j)
  matrix_vector : ∀ {m n : ℕ} (A : Matrix (Fin (m + 1)) (Fin n) Float) (v : Fin n → Float),
    mul (ofMatrix A) (ofTuple v) = .ok (ofTuple fun i => dotProduct (A i) v)
  vector_matrix : ∀ {n p : ℕ} (v : Fin (n + 1) → Float) (B : Matrix (Fin (n + 1)) (Fin p) Float),
    mul (ofTuple v) (ofMatrix B) = .ok (ofTuple fun j => dotProduct v fun k => B k j)
  vector_vector : ∀ {n : ℕ} (v w : Fin n → Float),
    mul (ofTuple v) (ofTuple w) = .ok (.number (dotProduct v w))
  matrix_matrix_unaligned : ∀ {m n p q : ℕ} (A : Matrix (Fin (m + 1)) (Fin n) Float)
    (B : Matrix (Fin (p + 1)) (Fin q) Float), n ≠ p + 1 →
    mul (ofMatrix A) (ofMatrix B) = .error unaligned
  matrix_vector_unaligned : ∀ {m n p : ℕ} (A : Matrix (Fin (m + 1)) (Fin n) Float)
    (v : Fin p → Float), n ≠ p → mul (ofMatrix A) (ofTuple v) = .error unaligned
  vector_matrix_unaligned : ∀ {n p q : ℕ} (v : Fin n → Float)
    (B : Matrix (Fin (p + 1)) (Fin q) Float), n ≠ p + 1 →
    mul (ofTuple v) (ofMatrix B) = .error unaligned
  vector_vector_unaligned : ∀ {n p : ℕ} (v : Fin n → Float) (w : Fin p → Float), n ≠ p →
    mul (ofTuple v) (ofTuple w) = .error unaligned
  other : ∀ left right, ¬((IsVector left ∨ IsMatrix left) ∧ (IsVector right ∨ IsMatrix right)) →
    mul left right = .error (.typeMismatch (.operands .matMul left.kind right.kind))

/-- The operator `@` is the product of vectors and matrices, and every entry that it reads of a
matrix is in its row. -/
theorem binary_matMul_product : MultipliesMatrices (binary .matMul) ∧
    ∀ value rows, matrix? value = some rows → ∀ row ∈ rows, ∀ j < width rows, j < row.length := by
  refine ⟨⟨?_, ?_, ?_, ?_, ?_, ?_, ?_, ?_, ?_⟩, ?_⟩
  · intro m n p A B
    refine (matMul_matrix_matrix A B).trans ?_
    rw [if_pos rfl, map_rowsOf]
    simp only [ofMatrix, dotColumns_rowsOf, ofTuple_eq]
  · intro m n A v
    refine (matMul_matrix_vector A v).trans ?_
    rw [if_pos rfl, ofTuple_eq, map_rowsOf]
    simp only [dot_ofFn]
  · intro n p v B
    refine (matMul_vector_matrix v B).trans ?_
    rw [if_pos rfl, ofTuple_eq, dotColumns_rowsOf]
  · intro n v w
    refine (matMul_vector_vector v w).trans ?_
    rw [if_pos rfl, dot_ofFn]
  · intro m n p q A B h
    exact (matMul_matrix_matrix A B).trans (if_neg h)
  · intro m n p A v h
    exact (matMul_matrix_vector A v).trans (if_neg h)
  · intro n p q v B h
    exact (matMul_vector_matrix v B).trans (if_neg h)
  · intro n p v w h
    exact (matMul_vector_vector v w).trans (if_neg h)
  · intro left right h
    rw [binary, matMul, product_eq_undefined h]
    rfl
  · intro value rows hrows row hrow j hj
    rwa [((matrix?_eq_some_iff value rows).1 hrows).2.2 row hrow]

theorem IsVector.vector?_ne_none {value : Value} (h : IsVector value) :
    value.vector? ≠ Option.none := by
  obtain ⟨n, v, rfl⟩ := h
  rw [vector?_ofTuple]
  exact Option.some_ne_none _

theorem IsMatrix.matrix?_ne_none {value : Value} (h : IsMatrix value) :
    value.matrix? ≠ Option.none := by
  obtain ⟨m, n, A, rfl⟩ := h
  rw [matrix?_ofMatrix]
  exact Option.some_ne_none _

/-- A row by a column, rows without entries by the empty vector and by a matrix, and rows of
different lengths. -/
theorem binary_matMul_product_shapes :
    binary .matMul (.list [.list [.number 1.0, .number 2.0]])
        (.list [.list [.number 3.0], .list [.number 4.0]]) =
      .ok (.list [.list [.number (-0.0 + 1.0 * 3.0 + 2.0 * 4.0)]]) ∧
    binary .matMul (.list [.list [], .list []]) (.list []) =
      .ok (.list [.number (-0.0), .number (-0.0)]) ∧
    binary .matMul (.list [.list []]) (.list [.list [.number 1.0]]) = .error unaligned ∧
    binary .matMul (.list [.list [.number 1.0], .list []]) (.list []) =
      .error (.typeMismatch (.operands .matMul .list .list)) := by
  have hrules := binary_matMul_product.1
  refine ⟨?_, ?_, ?_, ?_⟩
  · exact hrules.matrix_matrix (m := 0) (n := 1) (p := 1) (fun _ j => ![1.0, 2.0] j)
      (fun i _ => ![3.0, 4.0] i)
  · exact hrules.matrix_vector (m := 1) (n := 0) (fun _ j => j.elim0) Fin.elim0
  · exact hrules.matrix_matrix_unaligned (m := 0) (n := 0) (p := 0) (q := 1) (fun _ j => j.elim0)
      (fun _ _ => 1.0) (by decide)
  · apply hrules.other
    rintro ⟨hvector | hmatrix, -⟩
    · exact hvector.vector?_ne_none rfl
    · exact hmatrix.matrix?_ne_none rfl

end CallScript.Value
