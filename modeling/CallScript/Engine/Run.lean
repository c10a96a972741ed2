import CallScript.Engine.Step

/-!
# Runs of the engine

`Engine.run` closes the recursion of `Engine.step` with a bound on how deep jobs may start one
another. A run that needs more than its fuel says so and gives no answer (`Outcome.outOfFuel`).
-/

namespace CallScript

/-- The value of `f`, computed on a stack of its own.  Nesting is then bounded by memory and not by
the size of one stack. -/
@[noinline]
def onOwnStack {α : Type} (f : Unit → α) : α :=
  (Task.spawn f Task.Priority.dedicated).get

@[simp] theorem onOwnStack_eq {α : Type} (f : Unit → α) : onOwnStack f = f () := rfl

/-- How many jobs may start one another on one stack. -/
def stackSpan : Nat := 256

namespace Engine

/-- Runs a job in which jobs start one another at most `fuel` deep. -/
def run (engine : Engine) : Nat → Job → World → Outcome Value
  | 0, _, _ => .outOfFuel
  | fuel + 1, job, world =>
    if fuel % stackSpan = 0 then onOwnStack fun _ => engine.step (run engine fuel) job world
    else engine.step (run engine fuel) job world

@[simp] theorem run_zero (engine : Engine) (job : Job) (world : World) :
    engine.run 0 job world = .outOfFuel := rfl

theorem run_succ (engine : Engine) (fuel : Nat) (job : Job) (world : World) :
    engine.run (fuel + 1) job world = engine.step (engine.run fuel) job world := by
  simp [run]

/-- Fuel for any program that nests in reasonable bounds. -/
def ampleFuel : Nat := 1000000

end Engine

end CallScript
