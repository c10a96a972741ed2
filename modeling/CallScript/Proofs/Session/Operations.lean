import CallScript.Proofs.Engine.Result
import CallScript.Proofs.Engine.World
import CallScript.Session

/-!
# What the host does with a session

The host has code run (`Session.Runs`), calls functions (`Session.call`), changes bindings
(`Session.Changes`) and replaces the environment (`Session.reset`).  Running code changes the world
of a session and nothing else that later operations depend on, and it keeps every discipline of the
engine that the session respects (`Session.Runs.keeps`, `Session.call_keeps`).
-/

namespace CallScript

open Engine

/-- Every value of a calculator satisfies `P`. -/
structure Calculator.Each (P : Value → Prop) (calculator : Calculator) : Prop where
  vars : Bindings.Each P calculator.vars
  defaults : Bindings.Each P calculator.defaults

/-- Every callable among the variables of a calculator satisfies `p`. -/
abbrev Calculator.All (p : Callable → Prop) : Calculator → Prop :=
  Calculator.Each (Value.All p)

theorem Calculator.Each.imp {P Q : Value → Prop} (h : ∀ v, P v → Q v) {calculator : Calculator}
    (heach : calculator.Each P) : calculator.Each Q :=
  ⟨heach.vars.imp h, heach.defaults.imp h⟩

namespace Session

variable {session : Session}

/-! ## Running code -/

/-- The host has code run. -/
inductive Runs (session : Session) : Except Failure Value × Session → Prop where
  | run (fuel : Nat) (source : String) : Runs session (session.run fuel source)
  | execute (fuel : Nat) (block : Block) : Runs session (session.execute fuel block)
  | calculate (fuel : Nat) (source : String) : Runs session (session.calculate fuel source)
  | evaluate (fuel : Nat) (source : String) : Runs session (session.evaluate fuel source)

/-- The jobs that running code comes down to. -/
inductive HasJob (session : Session) : Job → Prop where
  | block (block : Block) : HasJob session (.calls session.frame block.calls)
  | evaluate {source : String} {expr : Expr} (h : readExpression source = .ok expr) :
    HasJob session (.expression (.frame session.frame) expr)
  | calculate {source : String} {expr : Expr} (h : readExpression source = .ok expr) :
    HasJob session (.expression (.bindings session.calculator.vars) expr)

/-- What a discipline says of an answer. -/
structure Keeps (session : Session) (D : Discipline session.engine)
    (answer : Except Failure Value × Session) : Prop where
  rest : ∃ world stage, answer.2 = { session with world, stage }
  after : D.After session.world answer.2.world
  value : ∀ v, answer.1 = .ok v → D.value answer.2.world.fresh v

namespace Keeps

variable {D : Discipline session.engine} {answer : Except Failure Value × Session}

theorem toolkit (h : session.Keeps D answer) : answer.2.toolkit = session.toolkit := by
  obtain ⟨world, stage, hrest⟩ := h.rest
  rw [hrest]

theorem refused (hworld : D.world session.world) (failure : Failure) (stage : Stage) :
    session.Keeps D (.error failure, { session with stage }) where
  rest := ⟨session.world, stage, rfl⟩
  after := .refl hworld
  value := nofun

theorem settle (hworld : D.world session.world) {o : Outcome Value}
    (ho : D.ends D.value session.world o) : session.Keeps D (session.settle o) := by
  cases o with
  | value v w =>
    refine ⟨⟨w, session.stage, rfl⟩, ho.2, fun v' hv => ?_⟩
    cases hv
    exact ho.1
  | error e w => exact ⟨⟨w, session.stage, rfl⟩, ho.2, nofun⟩
  | outOfFuel => exact refused hworld .outOfFuel session.stage

theorem conclude (h : session.Keeps D answer) : session.Keeps D (Session.conclude answer) := by
  obtain ⟨result, after⟩ := answer
  obtain ⟨⟨world, stage, hrest⟩, hafter, hvalue⟩ := h
  cases hrest
  cases result with
  | error e => exact ⟨⟨world, .failed, rfl⟩, hafter, nofun⟩
  | ok v => exact ⟨⟨world, .completed, rfl⟩, hafter, hvalue⟩

end Keeps

section Disciplines

variable (D : Discipline session.engine) (hframe : D.frame session.world session.frame)
  (hworld : D.world session.world)

include hframe in
theorem HasJob.respects (ht : D.texts) {job : Job} (h : session.HasJob job) :
    D.job job session.world := by
  cases h with
  | block block => exact hframe
  | evaluate hread => exact ⟨Discipline.scope_frame hframe, D.reads ht hread⟩
  | calculate hread => exact ⟨Discipline.scope_vars ht, D.reads ht hread⟩

include hframe hworld

theorem HasJob.keeps (ht : D.texts) {job : Job} (h : session.HasJob job) (fuel : Nat) :
    session.Keeps D (session.settle (session.engine.run fuel job session.world)) :=
  .settle hworld (keeps_run D (h.respects D hframe ht) hworld fuel)

theorem execute_keeps (ht : D.texts) (fuel : Nat) (block : Block) :
    session.Keeps D (session.execute fuel block) :=
  ((HasJob.block block).keeps D hframe hworld ht fuel).conclude

theorem evaluateIn_keeps (ht : D.texts) (fuel : Nat) {scope : Scope} {source : String}
    (hscope : ∀ {expr}, readExpression source = .ok expr →
      session.HasJob (.expression scope expr)) :
    session.Keeps D (session.evaluateIn fuel scope source) := by
  unfold evaluateIn
  split
  · exact .refused hworld _ session.stage
  · next expr hparse =>
    split
    · exact .refused hworld _ session.stage
    · next hcheck =>
      have hread : readExpression source = .ok expr := by simp only [readExpression, hparse, hcheck]
      exact (hscope hread).keeps D hframe hworld ht fuel

/-- Whatever code the host has run, it keeps the disciplines that the session respects. -/
theorem Runs.keeps (ht : D.texts) {answer : Except Failure Value × Session}
    (h : session.Runs answer) : session.Keeps D answer := by
  cases h with
  | execute fuel block => exact execute_keeps D hframe hworld ht fuel block
  | calculate fuel source => exact evaluateIn_keeps D hframe hworld ht fuel .calculate
  | evaluate fuel source => exact evaluateIn_keeps D hframe hworld ht fuel .evaluate
  | run fuel source =>
    unfold Session.run
    split
    · exact execute_keeps D hframe hworld ht fuel _
    · exact .refused hworld _ .failed

theorem call_follows {c : Callable} {values : List Value} {withFrame : Bool}
    (hc : D.value session.world.fresh (.callable c)) (hbare : withFrame = false → D.bare c)
    (hvalues : D.values session.world.fresh values) (name : String) :
    D.Follows session.world D.value fun recur =>
      callValues session.engine recur (if withFrame then some session.frame else none) name c values
        session.world := by
  refine Discipline.callValues_follows (fun f hf => ?_) hc (fun hnone => ?_) hvalues hworld
  · cases withFrame with
    | false => cases hf
    | true =>
      cases hf
      exact hframe
  · cases withFrame with
    | false => exact hbare rfl
    | true => cases hnone

/-- A call of a function by the host keeps the disciplines that the session respects. -/
theorem call_keeps {c : Callable} {values : List Value} (withFrame : Bool)
    (hc : D.value session.world.fresh (.callable c)) (hbare : withFrame = false → D.bare c)
    (hvalues : D.values session.world.fresh values) (fuel : Nat) (name : String) :
    session.Keeps D (session.call fuel withFrame name c values) := by
  refine .settle hworld ?_
  by_cases hend : callValues session.engine (session.engine.run fuel)
      (if withFrame then some session.frame else none) name c values session.world = .outOfFuel
  · rw [hend]
    trivial
  · exact (call_follows D hframe hworld hc hbare hvalues name).sound
      (fun job world hasks _ => keeps_run D hasks.1 hasks.2.1 fuel) hend

end Disciplines

/-- Running code leaves the functions of the host as they are. -/
theorem Runs.toolkit {answer : Except Failure Value × Session} (h : session.Runs answer) :
    answer.2.toolkit = session.toolkit :=
  (h.keeps (.free session.engine) trivial trivial trivial).toolkit

theorem call_toolkit (fuel : Nat) (withFrame : Bool) (name : String) (callable : Callable)
    (values : List Value) :
    (session.call fuel withFrame name callable values).2.toolkit = session.toolkit :=
  (call_keeps (.free session.engine) trivial trivial withFrame trivial (fun _ => trivial)
    (fun _ _ => trivial) fuel name).toolkit

/-! ## Changing bindings -/

/-- The host changes bindings, with values that satisfy `given`. -/
inductive Changes (given : Value → Prop) (session : Session) : Session → Prop where
  | install {bindings : Bindings} (h : ∀ entry ∈ bindings, given entry.2) :
    Changes given session (session.install bindings)
  | define (name : String) {value : Value} (h : given value) :
    Changes given session (session.updateEnvironment (·.define name value))
  | remove (name : String) : Changes given session (session.updateEnvironment (·.remove name))
  | setDefaults {bindings : Bindings} (h : ∀ entry ∈ bindings, given entry.2) :
    Changes given session { session with calculator := session.calculator.setDefaults bindings }
  | resetVars : Changes given session { session with calculator := session.calculator.reset }
  | insertVar (name : String) {value : Value} (h : given value) :
    Changes given session { session with calculator := session.calculator.insert name value }

/-- Every value that a session keeps satisfies `P`. -/
structure Each (P : Value → Prop) (session : Session) : Prop where
  world : session.world.Each P
  defaults : Bindings.Each P session.defaults
  calculator : session.calculator.Each P

/-- Every callable that a session keeps satisfies `p`. -/
abbrev All (p : Callable → Prop) : Session → Prop :=
  Each (Value.All p)

namespace Each

variable {P Q : Value → Prop}

theorem imp (h : ∀ v, P v → Q v) (heach : session.Each P) : session.Each Q :=
  ⟨heach.world.imp h, heach.defaults.imp h, heach.calculator.imp h⟩

theorem new (hbuiltins : ∀ b, P (.callable (.builtin b))) (toolkit : Toolkit) (sink : Sink)
    (maxDepth : Nat) : (Session.new toolkit sink maxDepth).Each P := by
  have hregistry : Bindings.Each P registry := by
    intro entry hentry
    obtain ⟨b, -, rfl⟩ := List.mem_map.1 hentry
    exact hbuiltins b
  have hempty : World.Each P .empty := nofun
  exact ⟨hempty.allocate hregistry, hregistry, nofun, nofun⟩

theorem reset (h : session.Each P) : session.reset.Each P :=
  { h with world := (h.world.release session.home).allocate h.defaults }

end Each

namespace Changes

variable {given : Value → Prop} {P : Value → Prop} {after : Session}

theorem calculator_each (h : session.Changes given after) (hgiven : ∀ v, given v → P v)
    (heach : session.calculator.Each P) : after.calculator.Each P := by
  cases h with
  | install _ => exact heach
  | define _ _ => exact heach
  | remove _ => exact heach
  | setDefaults hb => exact ⟨heach.vars, fun entry hentry => hgiven _ (hb entry hentry)⟩
  | resetVars => exact ⟨heach.defaults, heach.defaults⟩
  | insertVar name hv => exact ⟨heach.vars.insert (hgiven _ hv) name, heach.defaults⟩

theorem each (h : session.Changes given after) (hgiven : ∀ v, given v → P v)
    (heach : session.Each P) : after.Each P := by
  have hcalculator := h.calculator_each hgiven heach.calculator
  cases h with
  | install hb =>
    have hbindings : Bindings.Each P _ := fun entry hentry => hgiven _ (hb entry hentry)
    exact ⟨heach.world.update (fun _ henv => henv.extend hbindings) session.home,
      heach.defaults.extend hbindings, hcalculator⟩
  | define name hv =>
    exact { heach with world := heach.world.define (hgiven _ hv) session.home name }
  | remove name => exact { heach with world := heach.world.remove session.home name }
  | setDefaults _ => exact { heach with calculator := hcalculator }
  | resetVars => exact { heach with calculator := hcalculator }
  | insertVar _ _ => exact { heach with calculator := hcalculator }

/-- A change of bindings leaves the rest of a session as it was. -/
theorem same (h : session.Changes given after) : after.toolkit = session.toolkit ∧
    after.home = session.home ∧ after.world.fresh = session.world.fresh ∧
    ∀ n, after.world.isLive n = session.world.isLive n := by
  cases h with
  | install _ => exact ⟨rfl, rfl, rfl, World.isLive_update _ _ _⟩
  | define _ _ => exact ⟨rfl, rfl, rfl, World.isLive_update _ _ _⟩
  | remove _ => exact ⟨rfl, rfl, rfl, World.isLive_update _ _ _⟩
  | setDefaults _ => exact ⟨rfl, rfl, rfl, fun _ => rfl⟩
  | resetVars => exact ⟨rfl, rfl, rfl, fun _ => rfl⟩
  | insertVar _ _ => exact ⟨rfl, rfl, rfl, fun _ => rfl⟩

end Changes

end Session

end CallScript
