import CallScript.Environment
import CallScript.RuntimeError

/-!
# Worlds

Everything that running code can change: the environments in use, the depth of nesting, and the
lines printed so far.  A step of a run takes a world to an `Outcome`, which keeps a value, an error
and a run that was given too little fuel apart; the first two come with the world they leave behind.
-/

namespace CallScript

/-- Where printed lines go. -/
inductive Sink where
  /-- Kept for whoever made the session. -/
  | captured
  /-- The standard output of the process. -/
  | standard
deriving Repr, DecidableEq

/-- The state of a run. -/
structure World where
  /-- The next number that neither an environment nor a definition has. -/
  fresh : Nat
  /-- The environments in use, by number. -/
  live : List (Nat × Environment)
  /-- How many blocks of the session are being run. -/
  depth : Nat
  /-- The captured lines. -/
  captured : Array String
  /-- The lines on standard output. -/
  printed : Array String

namespace World

/-- The world in which nothing has happened. -/
def empty : World := ⟨0, [], 0, #[], #[]⟩

/-- The environment with a number, if it is in use. -/
def environment? (world : World) (home : Nat) : Option Environment :=
  world.live.lookup home

/-- The environment with a number. -/
def environment (world : World) (home : Nat) : Environment :=
  (world.environment? home).getD .empty

/-- Whether an environment is in use. -/
def isLive (world : World) (home : Nat) : Bool :=
  (world.environment? home).isSome

/-- Changes the environment with a number. -/
def update (world : World) (home : Nat) (f : Environment → Environment) : World :=
  { world with live := world.live.map fun (n, env) => if n = home then (n, f env) else (n, env) }

/-- Puts an environment to use; its number is `world.fresh`. -/
def allocate (world : World) (env : Environment) : World :=
  { world with fresh := world.fresh + 1, live := (world.fresh, env) :: world.live }

/-- Gives up an environment. -/
def release (world : World) (home : Nat) : World :=
  { world with live := world.live.filter fun (n, _) => n ≠ home }

/-- Binds a name in an environment. -/
def define (world : World) (home : Nat) (name : String) (value : Value) : World :=
  world.update home (·.define name value)

/-- Binds a name to a new definition that runs in the environment it is bound in. -/
def defineBlock (world : World) (home : Nat) (name : String) (body : Block) : World :=
  { world with fresh := world.fresh + 1 }.define home name
    (.callable (.definition ⟨world.fresh, home, body⟩))

/-- Unbinds a name in an environment. -/
def remove (world : World) (home : Nat) (name : String) : World :=
  world.update home (·.remove name)

/-- Prints a line. -/
def print (world : World) (sink : Sink) (line : String) : World :=
  match sink with
  | .captured => { world with captured := world.captured.push line }
  | .standard => { world with printed := world.printed.push line }

/-- Sets the depth of nesting. -/
def atDepth (world : World) (depth : Nat) : World :=
  { world with depth := depth }

end World

/-- What a step of a run comes to. -/
inductive Outcome (α : Type) where
  | value (a : α) (world : World)
  | error (e : RuntimeError) (world : World)
  | outOfFuel

namespace Outcome

variable {α β : Type}

/-- Goes on with the value and the world of an outcome. -/
@[inline]
def andThen (outcome : Outcome α) (f : α → World → Outcome β) : Outcome β :=
  match outcome with
  | .value a world => f a world
  | .error e world => .error e world
  | .outOfFuel => .outOfFuel

/-- Changes the world that a value or an error leaves behind. -/
@[inline]
def afterwards (outcome : Outcome α) (f : World → World) : Outcome α :=
  match outcome with
  | .value a world => .value a (f world)
  | .error e world => .error e (f world)
  | .outOfFuel => .outOfFuel

/-- The outcome of a computation that changes nothing. -/
@[inline]
def ofExcept (result : Except RuntimeError α) (world : World) : Outcome α :=
  match result with
  | .ok a => .value a world
  | .error e => .error e world

@[simp] theorem andThen_value (a : α) (world : World) (f : α → World → Outcome β) :
    (value a world).andThen f = f a world := rfl

@[simp] theorem andThen_error (e : RuntimeError) (world : World) (f : α → World → Outcome β) :
    (error e world).andThen f = .error e world := rfl

@[simp] theorem andThen_outOfFuel (f : α → World → Outcome β) :
    (outOfFuel : Outcome α).andThen f = .outOfFuel := rfl

@[simp] theorem andThen_assoc {γ : Type} (outcome : Outcome α) (f : α → World → Outcome β)
    (g : β → World → Outcome γ) :
    (outcome.andThen f).andThen g = outcome.andThen fun a world => (f a world).andThen g := by
  cases outcome <;> rfl

end Outcome

end CallScript
