import CallScript.Proofs.Engine.Stock
import CallScript.Proofs.Session.Operations
import CallScript.Proofs.Value.Equality

/-!
# The values of a session

If the host hands over only values with a property that values hand on to one another, it finds only
such values in its session: every operation keeps the property (`Session.Supplied.each`), and what
an operation answers has it (`Session.Supplied.gives`).  So no mapping that a session builds has a
key twice (`Session.Supplied.proper`), however its entries were written.
-/

namespace CallScript

open Engine

variable {P : Value → Prop}

/-- Code handles only values that satisfy `P`, and brings only such values into an environment. -/
def Discipline.keeping (engine : Engine) (hP : Value.Hereditary P)
    (hcallables : ∀ c, P (.callable c)) (htoolkit : engine.toolkit.HandsOn hP)
    (hvars : Bindings.Each P engine.vars) : Discipline engine where
  __ := Discipline.free engine
  toAllowances := .steady (.keeping hP)
  world w := w.Each P
  held hw home := hw.environment home
  vars _ _ := hvars
  print _ hw line := ⟨hw.print _ line, trivial⟩
  define _ hw hv name := ⟨hw.define hv _ name, trivial⟩
  defineBlock _ hw name _ := ⟨hw.defineBlock (hcallables _) name, trivial⟩
  remove _ hw name := ⟨hw.remove _ name, trivial⟩
  copy _ _ hw := ⟨trivial, hw.allocate (hw.environment _), fun _ _ => trivial⟩
  release _ _ _ hw' _ := ⟨hw'.release _, trivial⟩
  enter _ hw _ := ⟨trivial, hw⟩
  exit _ _ _ hw' _ := ⟨hw', trivial⟩
  owner _ _ _ _ := trivial
  alone _ hw _ := ⟨trivial, hw, fun _ _ => trivial⟩
  back _ _ _ hw' _ := ⟨hw', trivial⟩
  builtin _ _ := trivial
  special _ arguments := htoolkit.special _ arguments
  contextual _ values hvs := htoolkit.contextual _ values hvs
  pure _ hvs hv := htoolkit.pure _ _ _ hvs hv
  pureFailure _ _ _ _ := trivial

namespace Session

/-- A session after any number of operations in which the host hands over values that satisfy
`P`. -/
inductive Supplied (P : Value → Prop) : Session → Prop where
  | new (toolkit : Toolkit) (sink : Sink) (maxDepth : Nat) :
    Supplied P (.new toolkit sink maxDepth)
  | runs {session : Session} (h : Supplied P session) {answer : Except Failure Value × Session}
    (hr : session.Runs answer) : Supplied P answer.2
  | call {session : Session} (h : Supplied P session) {callable : Callable} {values : List Value}
    (hvs : ∀ v ∈ values, P v) (fuel : Nat) (withFrame : Bool) (name : String) :
    Supplied P (session.call fuel withFrame name callable values).2
  | changes {session after : Session} (h : Supplied P session) (hc : session.Changes P after) :
    Supplied P after
  | reset {session : Session} (h : Supplied P session) : Supplied P session.reset

/-- A value that the host reads in a session or is given as an answer. -/
inductive Gives (P : Value → Prop) (session : Session) (v : Value) : Prop where
  | bound {name : String} (h : session.environment.get? name = some v)
  | var {name : String} (h : Entries.get? name session.calculator.vars = some v)
  | answer {answer : Except Failure Value × Session} (hr : session.Runs answer)
    (h : answer.1 = .ok v)
  | call {callable : Callable} {values : List Value} (hvs : ∀ v ∈ values, P v) {fuel : Nat}
    {withFrame : Bool} {name : String}
    (h : (session.call fuel withFrame name callable values).1 = .ok v)

variable {session : Session}

section Operations

variable (hP : Value.Hereditary P) (hcallables : ∀ c, P (.callable c))
  (htoolkit : session.toolkit.HandsOn hP) (h : session.Each P)

/-- The discipline of a session whose values satisfy `P`. -/
abbrev Each.discipline : Discipline session.engine :=
  .keeping session.engine hP hcallables htoolkit h.calculator.vars

theorem Each.runs {answer : Except Failure Value × Session} (hr : session.Runs answer) :
    session.Keeps (h.discipline hP hcallables htoolkit) answer :=
  hr.keeps _ trivial h.world trivial

theorem Each.call {values : List Value} (hvs : ∀ v ∈ values, P v) (callable : Callable)
    (fuel : Nat) (withFrame : Bool) (name : String) :
    session.Keeps (h.discipline hP hcallables htoolkit)
      (session.call fuel withFrame name callable values) :=
  call_keeps (h.discipline hP hcallables htoolkit) trivial h.world withFrame (hcallables callable)
    (fun _ => trivial) hvs fuel name

variable {hP hcallables htoolkit h}

/-- An operation that keeps the discipline leaves only values that satisfy `P` in the session. -/
theorem Keeps.each {answer : Except Failure Value × Session}
    (hk : session.Keeps (h.discipline hP hcallables htoolkit) answer) : answer.2.Each P := by
  obtain ⟨⟨world, stage, hrest⟩, hafter, -⟩ := hk
  rw [hrest] at hafter ⊢
  exact { h with world := hafter.world }

end Operations

namespace Supplied

/-- Every value in a session satisfies `P`, if every value that the host has handed over does. -/
theorem each (h : session.Supplied P) {hP : Value.Hereditary P}
    (hcallables : ∀ c, P (.callable c)) (htoolkit : session.toolkit.HandsOn hP) :
    session.Each P := by
  induction h with
  | new toolkit sink maxDepth => exact .new (fun b => hcallables (.builtin b)) toolkit sink maxDepth
  | runs _ hr ih =>
    rw [hr.toolkit] at htoolkit
    exact ((ih htoolkit).runs hP hcallables htoolkit hr).each
  | call _ hvs fuel withFrame name ih =>
    rw [call_toolkit] at htoolkit
    exact ((ih htoolkit).call hP hcallables htoolkit hvs _ fuel withFrame name).each
  | changes _ hc ih =>
    obtain ⟨hsame, -⟩ := hc.same
    exact hc.each (fun _ hv => hv) (ih (hsame ▸ htoolkit))
  | reset _ ih => exact (ih htoolkit).reset

/-- Every value that the host reads or is given satisfies `P`, if every value that it has handed
over does. -/
theorem gives (h : session.Supplied P) {hP : Value.Hereditary P}
    (hcallables : ∀ c, P (.callable c)) (htoolkit : session.toolkit.HandsOn hP) {v : Value}
    (hv : session.Gives P v) : P v := by
  have heach := h.each hcallables htoolkit
  cases hv with
  | bound hv => exact hP.environment (heach.world.environment session.home) hv
  | var hv => exact heach.calculator.vars.get? hv
  | answer hr hv => exact (heach.runs hP hcallables htoolkit hr).value v hv
  | call hvs hv => exact (heach.call hP hcallables htoolkit hvs _ _ _ _).value v hv

/-- No mapping in a value that the host reads or is given has a key twice, if none has in the values
that it has handed over. -/
theorem proper (h : session.Supplied Value.Proper)
    (htoolkit : session.toolkit.HandsOn Value.Proper.hereditary) {v : Value}
    (hv : session.Gives Value.Proper v) : v.Proper :=
  h.gives .callable htoolkit hv

end Supplied

end Session

end CallScript
