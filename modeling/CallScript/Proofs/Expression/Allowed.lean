import CallScript.Engine.Run
import CallScript.Proofs.Value.Failures
import Mathlib.Logic.Relation

/-!
# Allowed expressions and their evaluation

An expression passes the check exactly if every part of it is allowed (`Expr.check_eq_ok_iff`).  The
evaluation of one that does not pass never gives a value, and the evaluation of one that does fails
for something that is not allowed only if a function fails so that it has called: `Engine.Reaches`
says which functions an evaluation comes to call, with which values and in which world.
-/

namespace CallScript

/-! ## Parts of expressions -/

namespace Expr

/-- The value of an operand. -/
def ofOperand : Operand → Expr
  | .positional value => value
  | .keyword _ value => value
  | .starred value => value
  | .doubleStarred value => value

/-- The expressions that an expression is made of. -/
def parts : Expr → List Expr
  | .number _ => []
  | .string _ => []
  | .bool _ => []
  | .none => []
  | .name _ => []
  | .binary _ left right => [left, right]
  | .unary _ operand => [operand]
  | .boolean _ left right => [left, right]
  | .compare left rest => left :: rest.map Prod.snd
  | .conditional test body orElse => [test, body, orElse]
  | .lambda _ body => [body]
  | .call callee operands => callee :: operands.map ofOperand
  | .member value _ => [value]
  | .subscript value index => [value, index]
  | .slice lower upper step => lower.toList ++ upper.toList ++ step.toList
  | .list items => items
  | .tuple items => items
  | .dict entries => entries.flatMap fun entry => [entry.1, entry.2]
  | .set items => items
  | .comprehension element _ source conditions => element :: source :: conditions
  | .assign _ value => [value]

/-- An expression in another one, at any depth; the expression itself is one. -/
def Contains : Expr → Expr → Prop :=
  Relation.ReflTransGen fun whole part => part ∈ whole.parts

/-- A node that an expression may have. -/
def IsAllowed : Expr → Prop
  | .number _ => True
  | .name _ => True
  | .binary op _ _ => op ∈ [.add, .sub, .mul, .div, .pow, .bitXor, .matMul]
  | .unary op _ => op = .neg
  | .subscript _ _ => True
  | .call callee operands =>
    (∃ name, callee = .name name) ∧ ∀ operand ∈ operands, ∃ value, operand = .positional value
  | _ => False

end Expr

/-! ## The check -/

theorem BinaryOp.isAllowed_iff (op : BinaryOp) :
    op.isAllowed = true ↔ op ∈ [.add, .sub, .mul, .div, .pow, .bitXor, .matMul] := by
  cases op <;> decide

theorem UnaryOp.isAllowed_iff (op : UnaryOp) : op.isAllowed = true ↔ op = .neg := by
  cases op <;> decide

namespace Expr

theorem check_binary (op : BinaryOp) (left right : Expr) :
    (binary op left right).check = .ok () ↔
      op.isAllowed = true ∧ left.check = .ok () ∧ right.check = .ok () := by
  rw [check]
  split <;> cases left.check <;> simp_all [refuse]

theorem check_unary (op : UnaryOp) (operand : Expr) :
    (unary op operand).check = .ok () ↔ op.isAllowed = true ∧ operand.check = .ok () := by
  rw [check]
  split <;> simp_all [refuse]

theorem check_subscript (value index : Expr) :
    (subscript value index).check = .ok () ↔ value.check = .ok () ∧ index.check = .ok () := by
  rw [check]
  cases value.check <;> simp

theorem check_call (callee : Expr) (operands : List Operand) :
    (call callee operands).check = .ok () ↔
      (∃ name, callee = .name name) ∧ Operand.checkAll operands = .ok () := by
  cases callee <;> simp [check, refuse]

theorem checkAll_eq_ok_iff (operands : List Operand) :
    Operand.checkAll operands = .ok () ↔
      ∀ operand ∈ operands, ∃ value, operand = .positional value ∧ value.check = .ok () := by
  induction operands with
  | nil => simp [Operand.checkAll]
  | cons operand operands ih =>
    cases operand with
    | positional value => cases h : value.check <;> simp [Operand.checkAll, h, ih]
    | _ => simp [Operand.checkAll, refuse]

/-- A node passes the check exactly if it is allowed and its parts pass it. -/
theorem check_eq_ok_iff_parts (e : Expr) :
    e.check = .ok () ↔ e.IsAllowed ∧ ∀ part ∈ e.parts, part.check = .ok () := by
  cases e with
  | number => simp [check, IsAllowed, parts]
  | name => simp [check, IsAllowed, parts]
  | binary op left right => simp [check_binary, IsAllowed, parts, BinaryOp.isAllowed_iff]
  | unary op operand => simp [check_unary, IsAllowed, parts, UnaryOp.isAllowed_iff]
  | subscript value index => simp [check_subscript, IsAllowed, parts]
  | call callee operands =>
    rw [check_call, checkAll_eq_ok_iff]
    simp only [IsAllowed, parts, List.mem_cons, List.mem_map, forall_eq_or_imp]
    constructor
    · rintro ⟨⟨name, rfl⟩, h⟩
      refine ⟨⟨⟨name, rfl⟩, fun operand ho => ?_⟩, by simp [check], ?_⟩
      · obtain ⟨value, hv, -⟩ := h operand ho
        exact ⟨value, hv⟩
      · rintro part ⟨operand, ho, rfl⟩
        obtain ⟨value, rfl, hvalue⟩ := h operand ho
        exact hvalue
    · rintro ⟨⟨hname, hpositional⟩, -, h⟩
      refine ⟨hname, fun operand ho => ?_⟩
      obtain ⟨value, rfl⟩ := hpositional operand ho
      exact ⟨value, rfl, h value ⟨.positional value, ho, rfl⟩⟩
  | _ => simp [check, refuse, IsAllowed]

theorem sizeOf_ofOperand_lt (operand : Operand) : sizeOf (ofOperand operand) < sizeOf operand := by
  cases operand <;>
    simp only [ofOperand, Operand.positional.sizeOf_spec, Operand.keyword.sizeOf_spec,
      Operand.starred.sizeOf_spec, Operand.doubleStarred.sizeOf_spec] <;>
    omega

/-- Parts are smaller than what they are parts of. -/
theorem sizeOf_lt_of_mem_parts {e part : Expr} (h : part ∈ e.parts) : sizeOf part < sizeOf e := by
  cases e with
  | compare left rest =>
    rcases List.mem_cons.1 h with rfl | h
    · simp only [compare.sizeOf_spec]
      omega
    · obtain ⟨⟨op, right⟩, hmem, rfl⟩ := List.mem_map.1 h
      have := List.sizeOf_lt_of_mem hmem
      simp only [Prod.mk.sizeOf_spec, compare.sizeOf_spec] at this ⊢
      omega
  | call callee operands =>
    rcases List.mem_cons.1 h with rfl | h
    · simp only [call.sizeOf_spec]
      omega
    · obtain ⟨operand, hmem, rfl⟩ := List.mem_map.1 h
      have := List.sizeOf_lt_of_mem hmem
      have := sizeOf_ofOperand_lt operand
      simp only [call.sizeOf_spec]
      omega
  | slice lower upper step =>
    simp only [parts, List.mem_append, Option.mem_toList] at h
    rcases h with (rfl | rfl) | rfl <;> simp only [slice.sizeOf_spec, Option.some.sizeOf_spec] <;>
      omega
  | list items =>
    have : sizeOf part < sizeOf items := List.sizeOf_lt_of_mem h
    simp only [list.sizeOf_spec]
    omega
  | tuple items =>
    have : sizeOf part < sizeOf items := List.sizeOf_lt_of_mem h
    simp only [tuple.sizeOf_spec]
    omega
  | dict entries =>
    obtain ⟨⟨key, value⟩, hmem, hpart⟩ := List.mem_flatMap.1 h
    have := List.sizeOf_lt_of_mem hmem
    simp only [Prod.mk.sizeOf_spec, dict.sizeOf_spec, List.mem_cons, List.not_mem_nil,
      or_false] at this hpart ⊢
    rcases hpart with rfl | rfl <;> omega
  | set items =>
    have : sizeOf part < sizeOf items := List.sizeOf_lt_of_mem h
    simp only [set.sizeOf_spec]
    omega
  | comprehension element target source conditions =>
    simp only [parts, List.mem_cons] at h
    rcases h with rfl | rfl | h
    · simp only [comprehension.sizeOf_spec]
      omega
    · simp only [comprehension.sizeOf_spec]
      omega
    · have := List.sizeOf_lt_of_mem h
      simp only [comprehension.sizeOf_spec]
      omega
  | _ => simp [parts] at h <;> grind

/-- An expression passes the check exactly if every node in it is allowed. -/
theorem check_eq_ok_iff (e : Expr) :
    e.check = .ok () ↔ ∀ node, e.Contains node → node.IsAllowed := by
  constructor
  · intro h node hnode
    have hcheck : node.check = .ok () := by
      induction hnode with
      | refl => exact h
      | tail _ hpart ih => exact ((check_eq_ok_iff_parts _).1 ih).2 _ hpart
    exact ((check_eq_ok_iff_parts node).1 hcheck).1
  · intro h
    induction hn : sizeOf e using Nat.strongRecOn generalizing e with
    | ind n ih =>
      refine (check_eq_ok_iff_parts e).2 ⟨h e .refl, fun part hpart => ?_⟩
      have hlt : sizeOf part < n := hn ▸ sizeOf_lt_of_mem_parts hpart
      exact ih _ hlt part (fun node hnode => h node (.head hpart hnode)) rfl

end Expr

/-! ## Operators -/

namespace Value

theorem isAllowed_of_binary_eq_ok {op : BinaryOp} {left right v : Value}
    (h : binary op left right = .ok v) : op.isAllowed = true := by
  cases op <;> first | rfl | cases h

theorem isAllowed_of_unary_eq_ok {op : UnaryOp} {operand v : Value}
    (h : unary op operand = .ok v) : op.isAllowed = true := by
  cases op <;> first | rfl | cases h

end Value

/-- A computation that does not fail for something that is not allowed. -/
def Harmless {α : Type} (result : Except RuntimeError α) : Prop :=
  ∀ what, result ≠ .error (.unsafeExpression what)

theorem Harmless.of_failsOnly {α : Type} {result : Except RuntimeError α}
    {p : RuntimeError → Prop} (h : FailsOnly p result) (hp : ∀ what, ¬p (.unsafeExpression what)) :
    Harmless result :=
  fun what he => hp what (h _ he)

namespace Value

theorem binary_harmless {op : BinaryOp} (hop : op.isAllowed = true) (left right : Value) :
    Harmless (binary op left right) := by
  refine .of_failsOnly (binary_failsOnly op left right) fun what he => ?_
  rcases he with he | ⟨hnot, -⟩
  · exact he
  · simp [hop] at hnot

theorem unary_harmless {op : UnaryOp} (hop : op.isAllowed = true) (operand : Value) :
    Harmless (unary op operand) := by
  refine .of_failsOnly (unary_failsOnly op operand) fun what he => ?_
  rcases he with he | ⟨hnot, -⟩
  · exact he
  · simp [hop] at hnot

theorem subscript_harmless (value index : Value) : Harmless (subscript value index) :=
  .of_failsOnly (subscript_failsOnly value index) fun _ he => he

end Value

/-! ## Evaluation -/

namespace Outcome

variable {α β : Type} {outcome : Outcome α} {f : α → World → Outcome β} {w : World}

theorem andThen_eq_value_iff {b : β} : outcome.andThen f = .value b w ↔
    ∃ a w', outcome = .value a w' ∧ f a w' = .value b w := by
  cases outcome <;> simp [and_assoc]

theorem andThen_eq_error_iff {e : RuntimeError} : outcome.andThen f = .error e w ↔
    outcome = .error e w ∨ ∃ a w', outcome = .value a w' ∧ f a w' = .error e w := by
  cases outcome <;> simp [and_assoc]

theorem ofExcept_eq_value_iff {result : Except RuntimeError α} {a : α} {w' : World} :
    ofExcept result w = .value a w' ↔ result = .ok a ∧ w = w' := by
  cases result <;> simp [ofExcept]

theorem ofExcept_eq_error_iff {result : Except RuntimeError α} {e : RuntimeError} {w' : World} :
    ofExcept result w = .error e w' ↔ result = .error e ∧ w = w' := by
  cases result <;> simp [ofExcept]

end Outcome

namespace Engine

variable (engine : Engine) (recur : Job → World → Outcome Value) (scope : Scope)

/-- A function that is called: the name it goes by, what it is given, and the world it finds. -/
structure CallPoint where
  name : String
  callable : Callable
  values : List Value
  world : World

/-- What becomes of a call. -/
def CallPoint.outcome (point : CallPoint) : Outcome Value :=
  callValues engine recur scope.frame? point.name point.callable point.values point.world

mutual

/-- The evaluation of an expression comes to call a function. -/
inductive Reaches : Expr → World → CallPoint → Prop where
  | left {op : BinaryOp} {left right : Expr} {w : World} {point : CallPoint}
    (h : Reaches left w point) : Reaches (.binary op left right) w point
  | right {op : BinaryOp} {left right : Expr} {w w' : World} {v : Value} {point : CallPoint}
    (hl : evaluate engine recur scope left w = .value v w') (h : Reaches right w' point) :
    Reaches (.binary op left right) w point
  | operand {op : UnaryOp} {operand : Expr} {w : World} {point : CallPoint}
    (h : Reaches operand w point) : Reaches (.unary op operand) w point
  | value {value index : Expr} {w : World} {point : CallPoint} (h : Reaches value w point) :
    Reaches (.subscript value index) w point
  | index {value index : Expr} {w w' : World} {v : Value} {point : CallPoint}
    (hv : evaluate engine recur scope value w = .value v w') (h : Reaches index w' point) :
    Reaches (.subscript value index) w point
  | argument {name own : String} {callee : Value} {callable : Callable} {operands : List Operand}
    {w : World} {point : CallPoint} (hname : scope.lookup name w = some callee)
    (hfunction : callee.function? name = some (own, callable)) (h : ReachesAny operands w point) :
    Reaches (.call (.name name) operands) w point
  | call {name own : String} {callee : Value} {callable : Callable} {operands : List Operand}
    {values : List Value} {w w' : World} (hname : scope.lookup name w = some callee)
    (hfunction : callee.function? name = some (own, callable))
    (hvalues : evaluateAll engine recur scope operands w = .value values w') :
    Reaches (.call (.name name) operands) w ⟨own, callable, values, w'⟩

/-- The evaluation of operands comes to call a function. -/
inductive ReachesAny : List Operand → World → CallPoint → Prop where
  | head {operand : Expr} {operands : List Operand} {w : World} {point : CallPoint}
    (h : Reaches operand w point) : ReachesAny (.positional operand :: operands) w point
  | tail {operand : Expr} {operands : List Operand} {w w' : World} {v : Value} {point : CallPoint}
    (hv : evaluate engine recur scope operand w = .value v w')
    (h : ReachesAny operands w' point) : ReachesAny (.positional operand :: operands) w point

end

variable {engine recur scope}

mutual

/-- What has a value passes the check. -/
theorem check_of_evaluate_eq_value :
    ∀ {e : Expr} {w w' : World} {v : Value}, evaluate engine recur scope e w = .value v w' →
      e.check = .ok ()
  | .number _, _, _, _, _ => by simp [Expr.check]
  | .name _, _, _, _, _ => by simp [Expr.check]
  | .binary op left right, w, w', v, h => by
    rw [evaluate, Outcome.andThen_eq_value_iff] at h
    obtain ⟨l, w₁, hl, h⟩ := h
    obtain ⟨r, w₂, hr, h⟩ := Outcome.andThen_eq_value_iff.1 h
    have hop := Value.isAllowed_of_binary_eq_ok (Outcome.ofExcept_eq_value_iff.1 h).1
    exact (Expr.check_binary op left right).2
      ⟨hop, check_of_evaluate_eq_value hl, check_of_evaluate_eq_value hr⟩
  | .unary op operand, w, w', v, h => by
    rw [evaluate, Outcome.andThen_eq_value_iff] at h
    obtain ⟨x, w₁, hx, h⟩ := h
    have hop := Value.isAllowed_of_unary_eq_ok (Outcome.ofExcept_eq_value_iff.1 h).1
    exact (Expr.check_unary op operand).2 ⟨hop, check_of_evaluate_eq_value hx⟩
  | .subscript value index, w, w', v, h => by
    rw [evaluate, Outcome.andThen_eq_value_iff] at h
    obtain ⟨x, w₁, hx, h⟩ := h
    obtain ⟨i, w₂, hi, -⟩ := Outcome.andThen_eq_value_iff.1 h
    exact (Expr.check_subscript value index).2
      ⟨check_of_evaluate_eq_value hx, check_of_evaluate_eq_value hi⟩
  | .call callee operands, w, w', v, h => by
    cases callee with
    | name name =>
      rw [evaluate] at h
      split at h
      · cases h
      · split at h
        · cases h
        · obtain ⟨values, w₁, hvalues, -⟩ := Outcome.andThen_eq_value_iff.1 h
          exact (Expr.check_call _ operands).2
            ⟨⟨name, rfl⟩, checkAll_of_evaluateAll_eq_value hvalues⟩
    | _ => simp [evaluate] at h
  | .string .., _, _, _, h | .bool .., _, _, _, h | .none, _, _, _, h | .boolean .., _, _, _, h
  | .compare .., _, _, _, h | .conditional .., _, _, _, h | .lambda .., _, _, _, h
  | .member .., _, _, _, h | .slice .., _, _, _, h | .list .., _, _, _, h | .tuple .., _, _, _, h
  | .dict .., _, _, _, h | .set .., _, _, _, h | .comprehension .., _, _, _, h
  | .assign .., _, _, _, h => by simp [evaluate] at h

theorem checkAll_of_evaluateAll_eq_value :
    ∀ {operands : List Operand} {w w' : World} {values : List Value},
      evaluateAll engine recur scope operands w = .value values w' →
      Operand.checkAll operands = .ok ()
  | [], _, _, _, _ => rfl
  | .positional operand :: operands, w, w', values, h => by
    rw [evaluateAll, Outcome.andThen_eq_value_iff] at h
    obtain ⟨x, w₁, hx, h⟩ := h
    obtain ⟨xs, w₂, hxs, -⟩ := Outcome.andThen_eq_value_iff.1 h
    simp only [Operand.checkAll, check_of_evaluate_eq_value hx,
      checkAll_of_evaluateAll_eq_value hxs]
  | .keyword .. :: _, _, _, _, h => by simp [evaluateAll] at h
  | .starred .. :: _, _, _, _, h => by simp [evaluateAll] at h
  | .doubleStarred .. :: _, _, _, _, h => by simp [evaluateAll] at h

end

variable {what : Refusal}

mutual

/-- What passes the check and fails for something that is not allowed has called a function that
fails so. -/
theorem exists_reaches_of_evaluate_eq_error :
    ∀ {e : Expr} {w w' : World}, e.check = .ok () →
      evaluate engine recur scope e w = .error (.unsafeExpression what) w' →
      ∃ point, Reaches engine recur scope e w point ∧
        point.outcome engine recur scope = .error (.unsafeExpression what) w'
  | .number _, _, _, _, h => by simp [evaluate] at h
  | .name name, w, _, _, h => by
    rw [evaluate] at h
    split at h <;> cases h
  | .binary op left right, w, w', hc, h => by
    obtain ⟨hop, hcl, hcr⟩ := (Expr.check_binary op left right).1 hc
    rw [evaluate, Outcome.andThen_eq_error_iff] at h
    rcases h with hl | ⟨l, w₁, hl, h⟩
    · obtain ⟨point, hp, ho⟩ := exists_reaches_of_evaluate_eq_error hcl hl
      exact ⟨point, .left hp, ho⟩
    rcases Outcome.andThen_eq_error_iff.1 h with hr | ⟨r, w₂, -, h⟩
    · obtain ⟨point, hp, ho⟩ := exists_reaches_of_evaluate_eq_error hcr hr
      exact ⟨point, .right hl hp, ho⟩
    · exact absurd (Outcome.ofExcept_eq_error_iff.1 h).1 (Value.binary_harmless hop l r what)
  | .unary op operand, w, w', hc, h => by
    obtain ⟨hop, hco⟩ := (Expr.check_unary op operand).1 hc
    rw [evaluate, Outcome.andThen_eq_error_iff] at h
    rcases h with hx | ⟨x, w₁, -, h⟩
    · obtain ⟨point, hp, ho⟩ := exists_reaches_of_evaluate_eq_error hco hx
      exact ⟨point, .operand hp, ho⟩
    · exact absurd (Outcome.ofExcept_eq_error_iff.1 h).1 (Value.unary_harmless hop x what)
  | .subscript value index, w, w', hc, h => by
    obtain ⟨hcv, hci⟩ := (Expr.check_subscript value index).1 hc
    rw [evaluate, Outcome.andThen_eq_error_iff] at h
    rcases h with hx | ⟨x, w₁, hx, h⟩
    · obtain ⟨point, hp, ho⟩ := exists_reaches_of_evaluate_eq_error hcv hx
      exact ⟨point, .value hp, ho⟩
    rcases Outcome.andThen_eq_error_iff.1 h with hi | ⟨i, w₂, -, h⟩
    · obtain ⟨point, hp, ho⟩ := exists_reaches_of_evaluate_eq_error hci hi
      exact ⟨point, .index hx hp, ho⟩
    · exact absurd (Outcome.ofExcept_eq_error_iff.1 h).1 (Value.subscript_harmless x i what)
  | .call callee operands, w, w', hc, h => by
    obtain ⟨⟨name, rfl⟩, hco⟩ := (Expr.check_call callee operands).1 hc
    rw [evaluate] at h
    split at h
    · cases h
    · next callee hname =>
      split at h
      · cases h
      · next own callable hfunction =>
        rcases Outcome.andThen_eq_error_iff.1 h with ha | ⟨values, w₁, hvalues, h⟩
        · obtain ⟨point, hp, ho⟩ := exists_reachesAny_of_evaluateAll_eq_error hco ha
          exact ⟨point, .argument hname hfunction hp, ho⟩
        · exact ⟨_, .call hname hfunction hvalues, h⟩
  | .string .., _, _, h, _ | .bool .., _, _, h, _ | .none, _, _, h, _ | .boolean .., _, _, h, _
  | .compare .., _, _, h, _ | .conditional .., _, _, h, _ | .lambda .., _, _, h, _
  | .member .., _, _, h, _ | .slice .., _, _, h, _ | .list .., _, _, h, _ | .tuple .., _, _, h, _
  | .dict .., _, _, h, _ | .set .., _, _, h, _ | .comprehension .., _, _, h, _
  | .assign .., _, _, h, _ => by simp [Expr.check, refuse] at h

theorem exists_reachesAny_of_evaluateAll_eq_error :
    ∀ {operands : List Operand} {w w' : World}, Operand.checkAll operands = .ok () →
      evaluateAll engine recur scope operands w = .error (.unsafeExpression what) w' →
      ∃ point, ReachesAny engine recur scope operands w point ∧
        point.outcome engine recur scope = .error (.unsafeExpression what) w'
  | [], _, _, _, h => by simp [evaluateAll] at h
  | .positional operand :: operands, w, w', hc, h => by
    have hall := (Expr.checkAll_eq_ok_iff (.positional operand :: operands)).1 hc
    have hoperand : operand.check = .ok () := by simpa using hall _ (List.mem_cons_self ..)
    have hrest : Operand.checkAll operands = .ok () :=
      (Expr.checkAll_eq_ok_iff operands).2 fun o ho => hall o (List.mem_cons_of_mem _ ho)
    rw [evaluateAll, Outcome.andThen_eq_error_iff] at h
    rcases h with hx | ⟨x, w₁, hx, h⟩
    · obtain ⟨point, hp, ho⟩ := exists_reaches_of_evaluate_eq_error hoperand hx
      exact ⟨point, .head hp, ho⟩
    rcases Outcome.andThen_eq_error_iff.1 h with hxs | ⟨xs, w₂, -, h⟩
    · obtain ⟨point, hp, ho⟩ := exists_reachesAny_of_evaluateAll_eq_error hrest hxs
      exact ⟨point, .tail hx hp, ho⟩
    · cases h
  | .keyword .. :: _, _, _, h, _ | .starred .. :: _, _, _, h, _
  | .doubleStarred .. :: _, _, _, h, _ => by simp [Operand.checkAll, refuse] at h

end

/-- The check passes exactly the expressions all of whose nodes are allowed.  What it does not pass
has no value, whatever the names stand for; and what it passes fails for something that is not
allowed only through a function it calls. -/
theorem check_agrees_with_evaluate (e : Expr) :
    (e.check ≠ .ok () → ∀ (engine : Engine) recur scope w v w',
      evaluate engine recur scope e w ≠ .value v w') ∧
    (e.check = .ok () → ∀ (engine : Engine) recur scope w what w',
      evaluate engine recur scope e w = .error (.unsafeExpression what) w' →
      ∃ point, Reaches engine recur scope e w point ∧
        point.outcome engine recur scope = .error (.unsafeExpression what) w') ∧
    (e.check = .ok () ↔ ∀ node, e.Contains node → node.IsAllowed) := by
  refine ⟨?_, ?_, e.check_eq_ok_iff⟩
  · intro hc engine recur scope w v w' h
    exact hc (check_of_evaluate_eq_value h)
  · intro hc engine recur scope w what w' h
    exact exists_reaches_of_evaluate_eq_error hc h

/-- A quotient that is not allowed, and a call of a host function that fails as if something were
not. -/
theorem check_agrees_with_evaluate_quotient_and_call :
    let quotient : Expr := .binary .floorDiv (.number 7) (.number 2)
    let call : Expr := .call (.name "f") [.positional (.unary .neg (.number 1))]
    let engine : Engine := ⟨⟨fun _ _ => .nothing, fun _ _ => .nothing,
      fun _ _ => .error (.unsafeExpression (.sign .not))⟩, []⟩
    let scope : Scope := .bindings [("f", .callable (.host .pure 0 "f"))]
    (∀ v w, evaluate engine (engine.run 1) scope quotient .empty ≠ .value v w) ∧
    ∃ point, Reaches engine (engine.run 1) scope call .empty point ∧
      point.outcome engine (engine.run 1) scope =
        .error (.unsafeExpression (.sign .not)) .empty := by
  intro quotient call engine scope
  have hquotient : quotient.check ≠ .ok () := by
    simp [quotient, Expr.check, BinaryOp.isAllowed, refuse]
  have hcall : call.check = .ok () := by
    simp [call, Expr.check, Operand.checkAll, UnaryOp.isAllowed]
  refine ⟨(check_agrees_with_evaluate quotient).1 hquotient _ _ _ _, ?_⟩
  refine (check_agrees_with_evaluate call).2.1 hcall _ _ _ _ _ _ ?_
  simp [call, evaluate, evaluateAll, scope, Scope.lookup, Entries.get?, Value.function?,
    Value.unary, Outcome.ofExcept, callValues, engine]

end Engine

end CallScript
