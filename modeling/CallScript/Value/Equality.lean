import CallScript.Value.Basic

/-!
# Equality of values

Values are equal by content: lists item by item, mappings key by key in whatever order and in either
form.  Callables are equal if they are the same one, and functions if their names agree as well.
-/

namespace CallScript

/-- Whether two callables are the same one. -/
def Callable.same : Callable → Callable → Bool
  | .builtin a, .builtin b => a = b
  | .host kind stamp _, .host kind' stamp' _ => kind = kind' && stamp = stamp'
  | .definition a, .definition b => a.stamp = b.stamp && a.owner = b.owner
  | _, _ => false

namespace Value

mutual

/-- Whether two values are equal. -/
def same : Value → Value → Bool
  | .none, .none => true
  | .number a, .number b => a == b
  | .string a, .string b => a = b
  | .list as, .list bs => sameItems as bs
  | .map as, .map bs => as.length = bs.length && sameEntries as bs
  | .map as, .view bs => as.length = bs.length && sameEntries as bs
  | .view as, .map bs => as.length = bs.length && sameEntries as bs
  | .view as, .view bs => as.length = bs.length && sameEntries as bs
  | .callable a, .callable b => a.same b
  | .function name a, .function name' b => name = name' && a.same b
  | _, _ => false

/-- Whether two lists are equal item by item. -/
def sameItems : List Value → List Value → Bool
  | [], [] => true
  | a :: as, b :: bs => same a b && sameItems as bs
  | _, _ => false

/-- Whether every entry has an equal one under the same name. -/
def sameEntries : Bindings → Bindings → Bool
  | [], _ => true
  | (key, a) :: as, bs =>
    (match Entries.get? key bs with
      | some b => same a b
      | Option.none => false) && sameEntries as bs

end

instance : BEq Value := ⟨same⟩

end Value

end CallScript
