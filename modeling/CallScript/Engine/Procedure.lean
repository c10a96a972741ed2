import CallScript.Environment
import CallScript.RuntimeError

/-!
# Procedures

What a function that is handed the running frame does: a tree of requests to the engine, each
followed by what is done with the answer.  Procedures are data, so a function is given by what it
asks for, and the engine alone decides how a request is met.
-/

namespace CallScript

/-- A tree of requests to the engine. -/
inductive Procedure where
  /-- Ends with a value. -/
  | done (value : Value)
  /-- Ends with an error. -/
  | fail (error : RuntimeError)
  /-- Asks for the value of an argument. -/
  | load (argument : Argument) (next : Value → Procedure)
  /-- Prints a line. -/
  | print (line : String) (next : Procedure)
  /-- Asks for the environment and the depth of nesting. -/
  | inspect (next : Environment → Nat → Procedure)
  /-- Binds a name to a value. -/
  | define (name : String) (value : Value) (next : Procedure)
  /-- Binds a name to a new definition. -/
  | defineBlock (name : String) (body : Block) (next : Procedure)
  /-- Unbinds a name. -/
  | remove (name : String) (next : Procedure)
  /-- Asks for the value of an expression over the environment. -/
  | evaluate (source : String) (next : Value → Procedure)
  /-- Asks for the value of an expression over the calculator's variables. -/
  | calculate (source : String) (next : Value → Procedure)
  /-- Follows a procedure in a copy of the environment, which is given up at its end. -/
  | inCopy (body : Procedure) (next : Value → Procedure)

namespace Procedure

/-- The procedure that has no result. -/
def nothing : Procedure := .done .none

/-- Asks for the values of arguments from left to right; `loaded` are the values already there, the
last one first. -/
def loadFrom (loaded : List Value) (next : List Value → Procedure) : List Argument → Procedure
  | [] => next loaded.reverse
  | argument :: arguments =>
    .load argument fun value => loadFrom (value :: loaded) next arguments

/-- Asks for the values of arguments from left to right. -/
def loadAll (arguments : List Argument) (next : List Value → Procedure) : Procedure :=
  loadFrom [] next arguments

/-- Asks for the value of an argument some number of times. -/
def loadTimes (argument : Argument) (loaded : List Value) (next : List Value → Procedure) :
    Nat → Procedure
  | 0 => next loaded.reverse
  | count + 1 => .load argument fun value => loadTimes argument (value :: loaded) next count

end Procedure

/-- The functions of the host by name. -/
structure Toolkit where
  /-- The functions that take their arguments as written. -/
  special : String → List Argument → Procedure
  /-- The functions that take the values of their arguments. -/
  contextual : String → List Value → Procedure
  /-- The functions that have no effects. What one answers depends on its values alone: a function
  without a frame that calls a definition it is given, which runs in that definition's own
  environment, is not among them. -/
  pure : String → List Value → Except RuntimeError Value

end CallScript
