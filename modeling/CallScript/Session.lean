import CallScript.Engine.Run
import CallScript.Program.Parser

/-!
# Sessions

A session keeps an environment, the bindings a reset brings back, a calculator with variables of its
own, and what became of its last program.  Each operation gives its result and the session after it.

Programs change the environment.  The calculator's variables are the host's: no program changes
them.
-/

namespace CallScript

/-- Why a text could not be run or evaluated. -/
inductive Failure where
  /-- The text is neither a program nor an expression. -/
  | malformed (error : SyntaxError)
  | runtime (error : RuntimeError)
  /-- The run was given too little fuel. -/
  | outOfFuel
deriving Repr, DecidableEq

namespace Failure

/-- The wording of a failure. -/
def message : Failure → String
  | .malformed e => e.message
  | .runtime e => e.message
  | .outOfFuel => "out of fuel"

/-- The wording of a failure with its class in front. -/
def display : Failure → String
  | .malformed e => e.display
  | .runtime e => e.display
  | .outOfFuel => "out of fuel"

end Failure

/-- What became of the last program of a session. -/
inductive Stage where
  /-- It has run none. -/
  | idle
  | completed
  | failed
deriving Repr, DecidableEq

/-- The word for a stage. -/
def Stage.word : Stage → String
  | .idle => "idle"
  | .completed => "completed"
  | .failed => "failed"

/-- Variables for expressions that programs evaluate beside the environment. -/
structure Calculator where
  /-- What a reset brings back. -/
  defaults : Bindings
  vars : Bindings

namespace Calculator

/-- The calculator without variables. -/
def empty : Calculator := ⟨[], []⟩

/-- Sets what the next reset brings back. -/
def setDefaults (calculator : Calculator) (bindings : Bindings) : Calculator :=
  { calculator with defaults := bindings }

/-- Brings the defaults back. -/
def reset (calculator : Calculator) : Calculator :=
  { calculator with vars := calculator.defaults }

/-- Sets a variable. -/
def insert (calculator : Calculator) (name : String) (value : Value) : Calculator :=
  { calculator with vars := Entries.insert name value calculator.vars }

end Calculator

/-- An environment and all that is kept around it from one operation to the next. -/
structure Session where
  /-- The functions of the host. -/
  toolkit : Toolkit
  world : World
  /-- The number of the environment. -/
  home : Nat
  /-- What a reset brings back. -/
  defaults : Bindings
  calculator : Calculator
  /-- Where printed lines go. -/
  sink : Sink
  /-- How many blocks may be run inside one another. -/
  maxDepth : Nat
  stage : Stage

namespace Session

/-- The bindings of a new session. -/
def registry : Bindings :=
  Builtin.bindings (Builtin.basic ++ Builtin.bridge)

/-- A session that has run nothing. -/
def new (toolkit : Toolkit) (sink : Sink) (maxDepth : Nat) : Session where
  toolkit
  world := World.empty.allocate ⟨registry⟩
  home := World.empty.fresh
  defaults := registry
  calculator := .empty
  sink
  maxDepth
  stage := .idle

/-- The environment of a session. -/
def environment (session : Session) : Environment :=
  session.world.environment session.home

/-- Changes the environment of a session. -/
def updateEnvironment (session : Session) (f : Environment → Environment) : Session :=
  { session with world := session.world.update session.home f }

/-- Adds bindings to the environment and to what a reset brings back. -/
def install (session : Session) (bindings : Bindings) : Session :=
  { session.updateEnvironment (·.extend bindings) with
    defaults := Entries.extend session.defaults bindings }

/-- Replaces the environment by a new one that binds the defaults. -/
def reset (session : Session) : Session :=
  { session with
    world := (session.world.release session.home).allocate ⟨session.defaults⟩
    home := session.world.fresh }

/-- The frame that programs of the session run in. -/
def frame (session : Session) : Frame :=
  ⟨session.home, session.sink, session.maxDepth⟩

/-- The engine of a session. -/
def engine (session : Session) : Engine :=
  ⟨session.toolkit, session.calculator.vars⟩

/-- The result of an outcome, and the session in the world it leaves behind. -/
def settle (session : Session) : Outcome Value → Except Failure Value × Session
  | .value v world => (.ok v, { session with world })
  | .error e world => (.error (.runtime e), { session with world })
  | .outOfFuel => (.error .outOfFuel, session)

/-- Records how a run ended. -/
def conclude : Except Failure Value × Session → Except Failure Value × Session
  | (.ok v, session) => (.ok v, { session with stage := .completed })
  | (.error e, session) => (.error e, { session with stage := .failed })

/-- Runs a block. -/
def execute (session : Session) (fuel : Nat) (block : Block) : Except Failure Value × Session :=
  conclude (session.settle
    (session.engine.run fuel (.calls session.frame block.calls) session.world))

/-- Runs the program a text stands for. -/
def run (session : Session) (fuel : Nat) (source : String) : Except Failure Value × Session :=
  match Program.parse source with
  | .ok tree => session.execute fuel (Block.ofTree tree)
  | .error e => (.error (.malformed e), { session with stage := .failed })

/-- Evaluates the expression a text stands for. -/
def evaluateIn (session : Session) (fuel : Nat) (scope : Scope) (source : String) :
    Except Failure Value × Session :=
  match Expression.parse source with
  | .error e => (.error (.malformed e), session)
  | .ok expr =>
    match expr.check with
    | .error e => (.error (.runtime e), session)
    | .ok () => session.settle (session.engine.run fuel (.expression scope expr) session.world)

/-- Evaluates an expression over the calculator's variables. -/
def calculate (session : Session) (fuel : Nat) (source : String) : Except Failure Value × Session :=
  session.evaluateIn fuel (.bindings session.calculator.vars) source

/-- Evaluates an expression over the environment. -/
def evaluate (session : Session) (fuel : Nat) (source : String) : Except Failure Value × Session :=
  session.evaluateIn fuel (.frame session.frame) source

/-- The value of a name in the environment. -/
def lookup (session : Session) (name : String) : Except RuntimeError Value :=
  session.environment.find name

/-- Calls a function with values, handing over the session's frame or not. -/
def call (session : Session) (fuel : Nat) (withFrame : Bool) (name : String) (callable : Callable)
    (values : List Value) : Except Failure Value × Session :=
  session.settle (session.engine.callValues (session.engine.run fuel)
    (if withFrame then some session.frame else none) name callable values session.world)

/-- Takes the captured lines out of a session. -/
def takeCaptured (session : Session) : List String × Session :=
  (session.world.captured.toList, { session with world := { session.world with captured := #[] } })

/-- Takes the lines on standard output out of a session. -/
def takePrinted (session : Session) : List String × Session :=
  (session.world.printed.toList, { session with world := { session.world with printed := #[] } })

end Session

/-- Runs a program in a session of its own that prints to standard output. -/
def runProgram (toolkit : Toolkit) (fuel : Nat) (source : String) :
    Except Failure Value × Session :=
  (Session.new toolkit .standard defaultMaxDepth).run fuel source

end CallScript
