import CallScript.Engine.Builtins
import CallScript.Engine.World
import CallScript.Expression.Allowed
import CallScript.Expression.Parser
import CallScript.Value.Operators

/-!
# Steps of the engine

Blocks, definitions and expressions run one another, so each step is given what runs the parts that
are not smaller: `recur : Job → World → Outcome Value`.  Everything else in a step is a recursion on
a program, an expression or a procedure.
-/

namespace CallScript

/-- What a block runs in. -/
structure Frame where
  /-- The number of the environment. -/
  home : Nat
  /-- Where printed lines go. -/
  sink : Sink
  /-- How many blocks may be run inside one another. -/
  maxDepth : Nat

/-- The depth of nesting that sessions allow if they are not told otherwise. -/
def defaultMaxDepth : Nat := 10000

/-- The frame of a definition that is called where no frame is running. -/
def Frame.standalone (home : Nat) : Frame :=
  ⟨home, .standard, defaultMaxDepth⟩

/-- Where an expression takes the values of names from. -/
inductive Scope where
  /-- Bindings, read as stored. -/
  | bindings (bindings : Bindings)
  /-- An environment as it is now. -/
  | environment (env : Environment)
  /-- The environment with a number. -/
  | home (number : Nat)
  /-- The environment of a running frame, which is handed to the functions called. -/
  | frame (frame : Frame)
  /-- A source of the host's own, with the frame it hands to the functions called, if it has one. -/
  | host (source : String → World → Option Value) (given : Option Frame)

namespace Scope

/-- The value of a name. -/
def lookup (scope : Scope) (name : String) (world : World) : Option Value :=
  match scope with
  | .bindings bs => Entries.get? name bs
  | .environment env => env.get? name
  | .home number => (world.environment number).get? name
  | .frame f => (world.environment f.home).get? name
  | .host source _ => source name world

/-- The frame that is handed to the functions called. -/
def frame? : Scope → Option Frame
  | .frame f => some f
  | .host _ given => given
  | _ => none

end Scope

/-- What can be run. -/
inductive Job where
  /-- Runs calls in order, one level deeper. -/
  | calls (frame : Frame) (calls : List Call)
  /-- Evaluates an expression. -/
  | expression (scope : Scope) (expr : Expr)

/-- What stays the same during a run. -/
structure Engine where
  /-- The functions of the host. -/
  toolkit : Toolkit
  /-- The calculator's variables. -/
  vars : Bindings

/-- The expression a text stands for, if it is one and allowed. -/
def readExpression (source : String) : Except RuntimeError Expr :=
  match Expression.parse source with
  | .error e => .error (.malformedExpression e)
  | .ok expr =>
    match expr.check with
    | .ok () => .ok expr
    | .error e => .error e

/-- A value as an argument that is written, for functions that take their arguments as written. -/
def literalArgument (function : String) : Value → Except RuntimeError Argument
  | .number x => .ok (.number x)
  | .string s => .ok (.string s)
  | value => .error (.typeMismatch (.literalArgument function value.kind))

/-- The value of a name in an environment, or the error that names the nearest bound name. -/
def Environment.find (env : Environment) (name : String) : Except RuntimeError Value :=
  match env.get? name with
  | some value => .ok value
  | none => .error (.undefinedName name (nearest? name 2 env.names))

/-- The callable a value is, with the name it goes by if it is read under `name`. -/
def Value.function? (name : String) : Value → Option (String × Callable)
  | .function own c => some (own, c)
  | .callable c => some (name, c)
  | _ => Option.none

namespace Engine

variable (engine : Engine) (recur : Job → World → Outcome Value)

/-- The value of an argument. -/
def load (frame : Frame) (argument : Argument) (world : World) : Outcome Value :=
  match argument with
  | .number x => .value (.number x) world
  | .string s => .value (.string s) world
  | .name name => .ofExcept ((world.environment frame.home).find name) world
  | .call c => recur (.calls frame [c]) world
  | .block b => recur (.calls frame b.calls) world

/-- The values of arguments from left to right, after those in `loaded`, the last one first. -/
def loadFrom (frame : Frame) (loaded : List Value) :
    List Argument → World → Outcome (List Value)
  | [], world => .value loaded.reverse world
  | argument :: arguments, world =>
    (load recur frame argument world).andThen fun value world =>
      loadFrom frame (value :: loaded) arguments world

/-- The values of arguments from left to right. -/
def loadAll (frame : Frame) (arguments : List Argument) (world : World) : Outcome (List Value) :=
  loadFrom recur frame [] arguments world

/-- Evaluates the expression a text stands for. -/
def evaluateText (scope : Scope) (source : String) (world : World) : Outcome Value :=
  match readExpression source with
  | .ok expr => recur (.expression scope expr) world
  | .error e => .error e world

/-- Follows a procedure. -/
def perform (frame : Frame) : Procedure → World → Outcome Value
  | .done value, world => .value value world
  | .fail e, world => .error e world
  | .load argument next, world =>
    (load recur frame argument world).andThen fun value world =>
      perform frame (next value) world
  | .print line next, world => perform frame next (world.print frame.sink line)
  | .inspect next, world => perform frame (next (world.environment frame.home) world.depth) world
  | .define name value next, world => perform frame next (world.define frame.home name value)
  | .defineBlock name body next, world =>
    perform frame next (world.defineBlock frame.home name body)
  | .remove name next, world => perform frame next (world.remove frame.home name)
  | .evaluate source next, world =>
    (evaluateText recur (.frame frame) source world).andThen fun value world =>
      perform frame (next value) world
  | .calculate source next, world =>
    (evaluateText recur (.bindings engine.vars) source world).andThen fun value world =>
      perform frame (next value) world
  | .inCopy body next, world =>
    let copy := world.fresh
    ((perform { frame with home := copy } body
      (world.allocate (world.environment frame.home))).afterwards (·.release copy)).andThen
        fun value world => perform frame (next value) world

/-- Runs the body of a definition in the environment it was made in: in the session of the running
frame, or in a session of its own, which starts at depth zero, if there is none. -/
def callDefinition (frame? : Option Frame) (name : String) (definition : Definition)
    (world : World) : Outcome Value :=
  if world.isLive definition.owner then
    match frame? with
    | some frame =>
      recur (.calls { frame with home := definition.owner } definition.body.calls) world
    | none =>
      (recur (.calls (.standalone definition.owner) definition.body.calls)
        (world.atDepth 0)).afterwards (·.atDepth world.depth)
  else .error (.detachedDefinition name) world

/-- Calls a callable with arguments as they are written. -/
def callWritten (frame : Frame) (name : String) (callable : Callable) (arguments : List Argument)
    (world : World) : Outcome Value :=
  match callable with
  | .builtin b => perform engine recur frame (b.procedure arguments) world
  | .host .special _ host =>
    perform engine recur frame (engine.toolkit.special host arguments) world
  | .host .contextual _ host =>
    (loadAll recur frame arguments world).andThen fun values world =>
      perform engine recur frame (engine.toolkit.contextual host values) world
  | .host .pure _ host =>
    (loadAll recur frame arguments world).andThen fun values world =>
      .ofExcept (engine.toolkit.pure host values) world
  | .definition d =>
    if arguments.isEmpty then callDefinition recur (some frame) name d world
    else .error (.arityMismatch name (.exactly 0) arguments.length) world

/-- Follows the procedure of a function that takes its arguments as written, given their values. -/
def performLiterals (frame? : Option Frame) (name : String) (values : List Value)
    (procedure : List Argument → Procedure) (world : World) : Outcome Value :=
  match frame? with
  | none => .error (.missingFrame name) world
  | some frame =>
    match values.mapM (literalArgument name) with
    | .ok arguments => perform engine recur frame (procedure arguments) world
    | .error e => .error e world

/-- Calls a callable with values. -/
def callValues (frame? : Option Frame) (name : String) (callable : Callable) (values : List Value)
    (world : World) : Outcome Value :=
  match callable with
  | .builtin b => performLiterals engine recur frame? name values b.procedure world
  | .host .special _ host =>
    performLiterals engine recur frame? name values (engine.toolkit.special host) world
  | .host .contextual _ host =>
    match frame? with
    | none => .error (.missingFrame name) world
    | some frame => perform engine recur frame (engine.toolkit.contextual host values) world
  | .host .pure _ host => .ofExcept (engine.toolkit.pure host values) world
  | .definition d =>
    if values.isEmpty then callDefinition recur frame? name d world
    else .error (.arityMismatch name (.exactly 0) values.length) world

/-! ## Calls of a program -/

/-- Looks up what a call names and calls it. -/
def invoke (frame : Frame) (call : Call) (world : World) : Outcome Value :=
  match (world.environment frame.home).find call.name with
  | .error e => .error e world
  | .ok (.function name callable) =>
    callWritten engine recur frame name callable call.arguments world
  | .ok value => .error (.notCallable call.name value.kind) world

/-- Runs calls in order.  The result is that of the last one, or `last` if there is none. -/
def invokeAll (frame : Frame) (last : Value) : List Call → World → Outcome Value
  | [], world => .value last world
  | call :: calls, world =>
    (invoke engine recur frame call world).andThen fun value world =>
      invokeAll frame value calls world

/-- Runs calls in order, one level deeper, unless that is too deep. -/
def runCalls (frame : Frame) (calls : List Call) (world : World) : Outcome Value :=
  if world.depth < frame.maxDepth then
    (invokeAll engine recur frame .none calls (world.atDepth (world.depth + 1))).afterwards
      fun world => world.atDepth (world.depth - 1)
  else .error (.stackOverflow frame.maxDepth) world

/-! ## Expressions -/

mutual

/-- The value of an expression. -/
def evaluate (scope : Scope) : Expr → World → Outcome Value
  | .number x, world => .value (.number x) world
  | .name name, world =>
    match scope.lookup name world with
    | some value => .value value world
    | none => .error (.unknownVariable name) world
  | .binary op left right, world =>
    (evaluate scope left world).andThen fun left world =>
      (evaluate scope right world).andThen fun right world =>
        .ofExcept (Value.binary op left right) world
  | .unary op operand, world =>
    (evaluate scope operand world).andThen fun operand world =>
      .ofExcept (Value.unary op operand) world
  | .call (.name name) operands, world =>
    match scope.lookup name world with
    | none => .error (.unknownVariable name) world
    | some callee =>
      match callee.function? name with
      | none => .error (.notCallable name callee.kind) world
      | some (own, callable) =>
        (evaluateAll scope operands world).andThen fun values world =>
          callValues engine recur scope.frame? own callable values world
  | .call _ _, world => .error (.unsafeExpression .computedCallee) world
  | .subscript value index, world =>
    (evaluate scope value world).andThen fun value world =>
      (evaluate scope index world).andThen fun index world =>
        .ofExcept (Value.subscript value index) world
  | expr, world => .error (.unsafeExpression (.node expr.kind)) world

/-- The values of the operands of a call from left to right. -/
def evaluateAll (scope : Scope) : List Operand → World → Outcome (List Value)
  | [], world => .value [] world
  | .positional operand :: operands, world =>
    (evaluate scope operand world).andThen fun value world =>
      (evaluateAll scope operands world).andThen fun values world =>
        .value (value :: values) world
  | operand :: _, world => .error (.unsafeExpression (.operand operand.kind)) world

end

/-- Runs a job, with `recur` for the parts that are not smaller. -/
def step : Job → World → Outcome Value
  | .calls frame calls, world => runCalls engine recur frame calls world
  | .expression scope expr, world => evaluate engine recur scope expr world

end Engine

end CallScript
