import CallScript.Engine.Procedure
import CallScript.Value.Text

/-!
# Built-in functions

The names and the procedures of the functions that every session starts with.  All of them take
their arguments as written.
-/

namespace CallScript

namespace Builtin

/-- The name a built-in function is bound to. -/
def name : Builtin → String
  | .out => "out"
  | .set => "set"
  | .ret => "ret"
  | .define => "def"
  | .names => "lse"
  | .dump => "fle"
  | .calculate => "clc"
  | .calculateOut => "pcl"
  | .evaluate => "ecl"

/-- The built-in functions that work on the environment. -/
def basic : List Builtin :=
  [.out, .set, .ret, .define, .names, .dump]

/-- The built-in functions that evaluate expressions. -/
def bridge : List Builtin :=
  [.calculate, .calculateOut, .evaluate]

/-- Built-in functions bound to their names. -/
def bindings (builtins : List Builtin) : Bindings :=
  builtins.map fun b => (b.name, .callable (.builtin b))

/-- The failure of a call with the wrong number of arguments. -/
def wrongCount (b : Builtin) (arity : Arity) (arguments : List Argument) : Procedure :=
  .fail (.arityMismatch b.name arity arguments.length)

/-- The line that prints values, blanks between them. -/
def line (values : List Value) : String :=
  " ".intercalate (values.map Value.display)

/-- Evaluates the expression in a single string argument.  Any other single argument stands for no
expression and has no value. -/
def withExpression (b : Builtin) (arguments : List Argument)
    (request : String → (Value → Procedure) → Procedure) (next : Value → Procedure) : Procedure :=
  match arguments with
  | [.string source] => request source next
  | [_] => next .none
  | _ => b.wrongCount (.exactly 1) arguments

/-- What a built-in function does with its arguments. -/
def procedure (b : Builtin) (arguments : List Argument) : Procedure :=
  match b with
  | .out => .loadAll arguments fun values => .print (line values) .nothing
  | .set =>
    match arguments with
    | [.name target, value] => .load value fun v => .define target v .nothing
    | [target, _] => .fail (.invalidTarget target.kind)
    | _ => b.wrongCount (.exactly 2) arguments
  | .ret =>
    match arguments with
    | [] => b.wrongCount (.atLeast 1) arguments
    | [argument] => .load argument .done
    | _ => .loadAll arguments fun values => .done (.list values)
  | .define =>
    match arguments with
    | [.name target, .block body] => .defineBlock target body .nothing
    | [.name _, body] => .fail (.typeMismatch (.definitionBody body.kind))
    | [target, _] => .fail (.invalidTarget target.kind)
    | _ => b.wrongCount (.exactly 2) arguments
  | .names =>
    match arguments with
    | [] => .inspect fun env _ =>
      .print (Value.list (env.names.map .string)).display .nothing
    | _ => b.wrongCount (.exactly 0) arguments
  | .dump =>
    match arguments with
    | [] => .inspect fun env _ => .print env.display .nothing
    | _ => b.wrongCount (.exactly 0) arguments
  | .calculate => b.withExpression arguments .calculate .done
  | .calculateOut =>
    b.withExpression arguments .calculate fun value => .print value.display .nothing
  | .evaluate => b.withExpression arguments .evaluate .done

end Builtin

end CallScript
