import CallScript.Decimal.Binary
import CallScript.Engine.Procedure
import CallScript.Value.Text

/-!
# Stock functions of the host

A toolkit of small functions of all three kinds: arithmetic and construction of values without
effects, functions that look at or change the environment, and functions that take their arguments
as written.
-/

namespace CallScript

/-- The sum of numbers. -/
def sumOf (total : Float) : List Value → Except RuntimeError Value
  | [] => .ok (.number total)
  | .number x :: values => sumOf (total + x) values
  | _ :: _ => .error (.typeMismatch (.refused "sum takes numbers"))

/-- The mapping of alternating keys and values; a last key without a value gets none. -/
def pairsOf (entries : Bindings) : List Value → Bindings
  | [] => entries
  | [key] => Entries.insert key.display .none entries
  | key :: value :: values => pairsOf (Entries.insert key.display value entries) values

/-- Prints the text of each value on a line and gives the last one. -/
def sayAll (last : Value) : List Value → Procedure
  | [] => .done last
  | value :: values => .print value.repr (sayAll value values)

/-- How often a number says to do something. -/
def timesCount : Value → Nat
  | .number x => (truncated x).toNat
  | _ => 0

namespace Toolkit

/-- A function that the toolkit does not have. -/
def missing (name : String) : RuntimeError :=
  .undefinedName name none

/-- The stock functions that have no effects. -/
def stockPure (name : String) (values : List Value) : Except RuntimeError Value :=
  match name with
  | "sum" => sumOf 0.0 values
  | "list" => .ok (.list values)
  | "first" =>
    match values with
    | value :: _ => .ok value
    | [] => .error (.arityMismatch name (.atLeast 1) 0)
  | "types" => .ok (.list (values.map fun value => .string value.kind.word))
  | "map" => .ok (.map (pairsOf [] values))
  | "fail" =>
    .error (.typeMismatch (.refused ("fail: " ++ "|".intercalate (values.map Value.display))))
  | _ => .error (missing name)

/-- The stock functions that take the values of their arguments. -/
def stockContextual (name : String) (values : List Value) : Procedure :=
  match name with
  | "count" => .inspect fun env _ => .done (.number (Float.ofNat env.size))
  | "depth" => .inspect fun _ depth => .done (.number (Float.ofNat depth))
  | "say" => sayAll .none values
  | "bind" =>
    match values with
    | [.string target, value] => .define target value .nothing
    | _ => .fail (.typeMismatch (.refused "bind takes a name and a value"))
  | "drop" =>
    match values with
    | [.string target] => .inspect fun env _ =>
      .remove target (.done ((env.getRaw? target).getD .none))
    | _ => .fail (.typeMismatch (.refused "drop takes a name"))
  | _ => .fail (missing name)

/-- The stock functions that take their arguments as written. -/
def stockSpecial (name : String) (arguments : List Argument) : Procedure :=
  match name with
  | "kinds" => .done (.list (arguments.map fun argument => .string argument.kind.word))
  | "quote" => .done (.list (arguments.map fun argument => .string argument.render))
  | "sandbox" =>
    .inCopy (.loadAll arguments fun values => .done (values.getLastD .none)) .done
  | "times" =>
    match arguments with
    | [count, argument] => .load count fun n =>
      .loadTimes argument [] (fun values => .done (.list values)) (timesCount n)
    | _ => .fail (.arityMismatch name (.exactly 2) arguments.length)
  | _ => .fail (missing name)

/-- The toolkit of stock functions. -/
def stock : Toolkit :=
  ⟨stockSpecial, stockContextual, stockPure⟩

/-- The kind of a stock function. -/
def stockKind? (name : String) : Option HostKind :=
  if name ∈ ["sum", "list", "first", "types", "map", "fail"] then some .pure
  else if name ∈ ["count", "depth", "say", "bind", "drop"] then some .contextual
  else if name ∈ ["kinds", "quote", "sandbox", "times"] then some .special
  else none

end Toolkit

end CallScript
