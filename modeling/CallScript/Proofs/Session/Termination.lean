import CallScript.Engine.Stock
import CallScript.Proofs.Engine.Endless
import CallScript.Proofs.Session.Operations

/-!
# Sessions and the end of runs

The host gives a session data, and programs make definitions of the built-in functions.  In such a
session an operation ends unless it comes to texts that evaluate texts without end, and blocks that
nest past the limit end it with the error that says so (`Session.GivenData.ends_iff`).
-/

namespace CallScript

open Engine

namespace Session

/-- A session that holds no function of the host, and data for variables. -/
structure Scripted (session : Session) : Prop where
  world : session.world.All Callable.Scripted
  defaults : Bindings.All Callable.Scripted session.defaults
  vars : Bindings.All Callable.None session.calculator.vars
  varDefaults : Bindings.All Callable.None session.calculator.defaults

/-- A session that the host has given data only, after any number of operations. -/
inductive GivenData : Session → Prop where
  | new (toolkit : Toolkit) (sink : Sink) (maxDepth : Nat) : GivenData (.new toolkit sink maxDepth)
  | install {session : Session} (h : GivenData session) {bindings : Bindings}
    (hdata : Bindings.All Callable.None bindings) : GivenData (session.install bindings)
  | define {session : Session} (h : GivenData session) (name : String) {value : Value}
    (hdata : value.All Callable.None) :
    GivenData (session.updateEnvironment (·.define name value))
  /-- A value read from the environment is stored under another name. -/
  | copy {session : Session} (h : GivenData session) (name target : String) {value : Value}
    (hvalue : session.environment.get? name = some value) :
    GivenData (session.updateEnvironment (·.define target value))
  | remove {session : Session} (h : GivenData session) (name : String) :
    GivenData (session.updateEnvironment (·.remove name))
  | reset {session : Session} (h : GivenData session) : GivenData session.reset
  | setDefaults {session : Session} (h : GivenData session) {bindings : Bindings}
    (hdata : Bindings.All Callable.None bindings) :
    GivenData { session with calculator := session.calculator.setDefaults bindings }
  | resetVars {session : Session} (h : GivenData session) :
    GivenData { session with calculator := session.calculator.reset }
  | insertVar {session : Session} (h : GivenData session) (name : String) {value : Value}
    (hdata : value.All Callable.None) :
    GivenData { session with calculator := session.calculator.insert name value }
  | run {session : Session} (h : GivenData session) (fuel : Nat) (source : String) :
    GivenData (session.run fuel source).2
  | execute {session : Session} (h : GivenData session) (fuel : Nat) (block : Block) :
    GivenData (session.execute fuel block).2
  | calculate {session : Session} (h : GivenData session) (fuel : Nat) (source : String) :
    GivenData (session.calculate fuel source).2
  | evaluate {session : Session} (h : GivenData session) (fuel : Nat) (source : String) :
    GivenData (session.evaluate fuel source).2

/-- The discipline of a scripted session. -/
abbrev Scripted.discipline {session : Session} (h : session.Scripted) : Discipline session.engine :=
  .scripted session.engine session.maxDepth h.vars

theorem Scripted.frame {session : Session} (h : session.Scripted) :
    h.discipline.frame session.world session.frame := rfl

/-! ## What operations keep -/

namespace Scripted

variable {session : Session}

theorem update (h : session.Scripted) {f : Environment → Environment}
    (hf : ∀ env : Environment, Bindings.All Callable.Scripted env.bindings →
      Bindings.All Callable.Scripted (f env).bindings) :
    (session.updateEnvironment f).Scripted :=
  { h with world := h.world.update hf session.home }

theorem extend {entries more : Bindings} (he : Bindings.All Callable.Scripted entries)
    (hm : Bindings.All Callable.None more) :
    Bindings.All Callable.Scripted (Entries.extend entries more) :=
  he.extend (hm.imp fun _ hv => hv.imp fun _ hc => False.elim hc)

/-- What is left of a session after code has run is scripted. -/
theorem runs (h : session.Scripted) {answer : Except Failure Value × Session}
    (hr : session.Runs answer) : answer.2.Scripted := by
  obtain ⟨⟨world, stage, hrest⟩, hafter, -⟩ := hr.keeps h.discipline h.frame h.world trivial
  rw [hrest] at hafter ⊢
  exact { h with world := hafter.world }

end Scripted

/-- A session that the host has given data only is scripted. -/
theorem GivenData.scripted {session : Session} (h : session.GivenData) : session.Scripted := by
  induction h with
  | new toolkit sink maxDepth =>
    have hnew : (Session.new toolkit sink maxDepth).All Callable.Scripted :=
      .new (fun _ => .callable trivial) toolkit sink maxDepth
    exact ⟨hnew.world, hnew.defaults, by simp [Session.new, Calculator.empty, Bindings.Each],
      by simp [Session.new, Calculator.empty, Bindings.Each]⟩
  | install _ hdata ih =>
    have hup := ih.update fun env henv => Scripted.extend henv hdata
    exact { hup with defaults := Scripted.extend ih.defaults hdata }
  | define _ name hdata ih =>
    exact ih.update fun env henv => henv.insert (hdata.imp fun _ hc => False.elim hc) name
  | copy _ name target hvalue ih =>
    have hv := Value.All.environment (ih.world.environment _) hvalue
    exact ih.update fun env henv => henv.insert hv target
  | remove _ name ih =>
    exact ih.update fun env henv => henv.erase name
  | reset _ ih =>
    exact { ih with world := (ih.world.release _).allocate ih.defaults }
  | setDefaults _ hdata ih => exact { ih with varDefaults := hdata }
  | resetVars _ ih => exact { ih with vars := ih.varDefaults }
  | insertVar _ name hdata ih => exact { ih with vars := ih.vars.insert hdata name }
  | run _ fuel source ih => exact ih.runs (.run fuel source)
  | execute _ fuel block ih => exact ih.runs (.execute fuel block)
  | calculate _ fuel source ih => exact ih.runs (.calculate fuel source)
  | evaluate _ fuel source ih => exact ih.runs (.evaluate fuel source)

/-! ## The end of operations -/

/-- With enough fuel an operation gives an answer, and with more fuel the same. -/
def Ends (operation : Nat → Except Failure Value × Session) : Prop :=
  ∃ fuel, (operation fuel).1 ≠ .error .outOfFuel ∧
    ∀ more, fuel ≤ more → operation more = operation fuel

/-- With enough fuel an operation fails with a runtime error. -/
def FailsWith (e : RuntimeError) (operation : Nat → Except Failure Value × Session) : Prop :=
  ∃ fuel, ∀ more, fuel ≤ more → (operation more).1 = .error (.runtime e)

/-- What becomes of an outcome when it is the answer of an operation. -/
structure Reports (after : Outcome Value → Except Failure Value × Session) : Prop where
  outOfFuel : ∀ o, (after o).1 = .error .outOfFuel ↔ o = .outOfFuel
  error : ∀ e w, (after (.error e w)).1 = .error (.runtime e)

theorem reports_settle (session : Session) : Reports session.settle where
  outOfFuel o := by cases o <;> simp [Session.settle]
  error _ _ := rfl

theorem reports_conclude (session : Session) : Reports fun o => conclude (session.settle o) where
  outOfFuel o := by cases o <;> simp [Session.settle, conclude]
  error _ _ := rfl

theorem ends_const {answer : Except Failure Value × Session} (h : answer.1 ≠ .error .outOfFuel) :
    Ends fun _ => answer :=
  ⟨0, h, fun _ _ => rfl⟩

section Operations

variable {session : Session} {after : Outcome Value → Except Failure Value × Session} {job : Job}

theorem Reports.ends_iff_result (ha : Reports after) {world : World} :
    Ends (fun fuel => after (session.engine.run fuel job world)) ↔
      session.engine.result job world ≠ .outOfFuel := by
  constructor
  · rintro ⟨fuel, hne, -⟩ hend
    exact hne ((ha.outOfFuel _).2 (result_eq_outOfFuel_iff.1 hend fuel))
  · intro hne
    obtain ⟨fuel, hf⟩ := exists_run_eq_result hne
    rw [← hf] at hne
    refine ⟨fuel, fun h => hne ((ha.outOfFuel _).1 h), fun more hm => ?_⟩
    dsimp only
    rw [run_mono hm job world hne]

theorem Reports.failsWith (ha : Reports after) {world w : World} {e : RuntimeError}
    (h : session.engine.result job world = .error e w) :
    FailsWith e fun fuel => after (session.engine.run fuel job world) := by
  have hne : session.engine.result job world ≠ .outOfFuel := by simp [h]
  obtain ⟨fuel, hf⟩ := exists_run_eq_result hne
  rw [h] at hf
  refine ⟨fuel, fun more hm => ?_⟩
  dsimp only
  rw [run_mono hm job world (by simp [hf]), hf, ha.error]

/-- An operation ends unless its job comes to texts that evaluate texts without end. -/
theorem Scripted.ends_iff_not_endless (h : session.Scripted) (ha : Reports after)
    (hjob : h.discipline.job job session.world) (hform : job.IsCalls ∨ job.IsText) :
    Ends (fun fuel => after (session.engine.run fuel job session.world)) ↔
      ¬session.engine.Endless (job, session.world) := by
  rw [ha.ends_iff_result, Ne, result_eq_outOfFuel_iff_endless hjob h.world hform]

/-- An operation whose job comes to calls at the limit of nesting fails for that. -/
theorem Scripted.failsWith_stackOverflow (h : session.Scripted) (ha : Reports after)
    (hjob : h.discipline.job job session.world) {f : Frame} {calls : List Call} {w : World}
    (hcomes : session.engine.Comes (job, session.world) (.calls f calls, w))
    (hdepth : session.maxDepth ≤ w.depth) :
    FailsWith (.stackOverflow session.maxDepth)
      fun fuel => after (session.engine.run fuel job session.world) := by
  obtain ⟨w', hw⟩ := result_of_comes_overflow hjob h.world hcomes hdepth
  exact ha.failsWith hw

end Operations

/-! ## Texts that are read -/

/-- An evaluation over the environment reads its text as `ecl` does. -/
theorem evaluate_of_readExpression (session : Session) {source : String} {expr : Expr}
    (h : readExpression source = .ok expr) (fuel : Nat) :
    session.evaluate fuel source = session.settle
      (session.engine.run fuel (.expression (.frame session.frame) expr) session.world) := by
  unfold readExpression at h
  split at h
  · cases h
  · next hparse =>
    split at h
    · next hcheck =>
      cases h
      simp only [Session.evaluate, Session.evaluateIn, hparse, hcheck]
    · cases h

theorem ends_evaluate_of_readExpression_error (session : Session) {source : String}
    {e : RuntimeError} (h : readExpression source = .error e) :
    Ends fun fuel => session.evaluate fuel source := by
  unfold readExpression at h
  split at h
  · next hparse =>
    simp only [Session.evaluate, Session.evaluateIn, hparse]
    exact ends_const (by simp)
  · next hparse =>
    split at h
    · cases h
    · next hcheck =>
      simp only [Session.evaluate, Session.evaluateIn, hparse, hcheck]
      exact ends_const (by simp)

theorem run_of_parse (session : Session) {source : String} {tree : Program.Tree.Block}
    (h : Program.parse source = .ok tree) (fuel : Nat) :
    session.run fuel source = conclude (session.settle (session.engine.run fuel
      (.calls session.frame (Block.ofTree tree).calls) session.world)) := by
  simp only [Session.run, h, Session.execute]

theorem ends_run_of_parse_error (session : Session) {source : String} {e : SyntaxError}
    (h : Program.parse source = .error e) : Ends fun fuel => session.run fuel source := by
  simp only [Session.run, h]
  exact ends_const (by simp)

/-! ## A program that evaluates itself -/

/-- The call of `ecl` on the text under `x`. -/
def eclOfX : Expr := .call (.name "ecl") [.positional (.name "x")]

theorem readExpression_eclOfX : readExpression "ecl(x)" = .ok eclOfX := by
  cbv

/-- Where `x` is the text of `eclOfX`, its evaluation has no end. -/
theorem run_eclOfX (engine : Engine) {f : Frame} {w : World}
    (hecl : (w.environment f.home).get? "ecl" = some (.function "ecl" (.builtin .evaluate)))
    (hx : (w.environment f.home).get? "x" = some (.string "ecl(x)")) (fuel : Nat) :
    engine.run fuel (.expression (.frame f) eclOfX) w = .outOfFuel := by
  induction fuel with
  | zero => rfl
  | succ fuel ih =>
    have hstep : engine.step (engine.run fuel) (.expression (.frame f) eclOfX) w =
        (engine.run fuel (.expression (.frame f) eclOfX) w).andThen fun v w => .value v w := by
      simp only [step, eclOfX, Engine.evaluate, evaluateAll, Scope.lookup, hecl, hx,
        Value.function?, Outcome.andThen_value, callValues, Scope.frame?, performLiterals,
        List.mapM_cons, List.mapM_nil, literalArgument]
      simp only [bind, Except.bind, pure, Except.pure, Builtin.procedure, Builtin.withExpression,
        perform, evaluateText, readExpression_eclOfX, eclOfX]
    rw [run_succ, hstep, ih, Outcome.andThen_outOfFuel]

/-- A program that gives `x` the text of `eclOfX` and evaluates it. -/
def selfEvaluating : String := "\x7bset(x, \"ecl(x)\"); ecl(\"ecl(x)\")\x7d"

theorem parse_selfEvaluating : ∃ tree, Program.parse selfEvaluating = .ok tree ∧
    (Block.ofTree tree).calls =
      [⟨"set", [.name "x", .string "ecl(x)"]⟩, ⟨"ecl", [.string "ecl(x)"]⟩] := by
  -- The tree is the one that evaluation of the parser leaves.
  refine ⟨?tree, ?parse, ?calls⟩
  case parse =>
    cbv
    rfl
  case calls => rfl

/-- The calls of `selfEvaluating` have no end where the names in them mean what they mean in a new
session. -/
theorem invokeAll_selfEvaluating (engine : Engine) {f : Frame} {w : World}
    (hset : (w.environment f.home).get? "set" = some (.function "set" (.builtin .set)))
    (hecl : ((w.define f.home "x" (.string "ecl(x)")).environment f.home).get? "ecl" =
      some (.function "ecl" (.builtin .evaluate)))
    (hx : ((w.define f.home "x" (.string "ecl(x)")).environment f.home).get? "x" =
      some (.string "ecl(x)")) (fuel : Nat) :
    invokeAll engine (engine.run fuel) f .none
      [⟨"set", [.name "x", .string "ecl(x)"]⟩, ⟨"ecl", [.string "ecl(x)"]⟩] w = .outOfFuel := by
  have hend := run_eclOfX engine hecl hx fuel
  simp only [invokeAll, invoke, Environment.find, hset, callWritten, Builtin.procedure, perform,
    load, Outcome.andThen_value, Procedure.nothing, hecl, Builtin.withExpression, evaluateText,
    readExpression_eclOfX, hend, Outcome.andThen_outOfFuel]

/-- Whatever its limit of nesting, a session may run a program without an end. -/
theorem run_selfEvaluating (toolkit : Toolkit) (sink : Sink) (n fuel : Nat) :
    ((Session.new toolkit sink (n + 1)).run fuel selfEvaluating).1 = .error .outOfFuel := by
  obtain ⟨tree, hparse, hcalls⟩ := parse_selfEvaluating
  rw [run_of_parse _ hparse, (reports_conclude _).outOfFuel, hcalls]
  cases fuel with
  | zero => rfl
  | succ fuel =>
    have hdepth : (Session.new toolkit sink (n + 1)).world.depth <
        (Session.new toolkit sink (n + 1)).frame.maxDepth := Nat.succ_pos n
    rw [run_succ, step, runCalls, if_pos hdepth, invokeAll_selfEvaluating _ rfl rfl rfl]
    rfl

/-- A session that nests no deeper than one block runs a program without an end. -/
theorem not_ends_selfEvaluating :
    ¬Ends fun fuel => (Session.new .stock .captured 1).run fuel selfEvaluating := by
  rintro ⟨fuel, hne, -⟩
  exact hne (run_selfEvaluating .stock .captured 0 fuel)

/-! ## Which operations end -/

/-- The run of a program ends unless it comes to texts that evaluate texts without end, and so does
the evaluation of an expression; one that comes to calls at the limit of nesting fails for that. -/
theorem GivenData.ends_iff {session : Session} (h : session.GivenData) (source : String) :
    (Ends (fun fuel => session.run fuel source) ↔ ∀ tree, Program.parse source = .ok tree →
      ¬session.engine.Endless (.calls session.frame (Block.ofTree tree).calls, session.world)) ∧
    (Ends (fun fuel => session.evaluate fuel source) ↔
      ∀ expr, readExpression source = .ok expr →
        ¬session.engine.Endless (.expression (.frame session.frame) expr, session.world)) ∧
    (∀ tree f calls w, Program.parse source = .ok tree →
      session.engine.Comes (.calls session.frame (Block.ofTree tree).calls, session.world)
        (.calls f calls, w) → session.maxDepth ≤ w.depth →
      FailsWith (.stackOverflow session.maxDepth) fun fuel => session.run fuel source) ∧
    (∀ expr f calls w, readExpression source = .ok expr →
      session.engine.Comes (.expression (.frame session.frame) expr, session.world)
        (.calls f calls, w) → session.maxDepth ≤ w.depth →
      FailsWith (.stackOverflow session.maxDepth) fun fuel => session.evaluate fuel source) := by
  have hs := h.scripted
  have hprogram (tree : Program.Tree.Block) :
      hs.discipline.job (.calls session.frame (Block.ofTree tree).calls) session.world := hs.frame
  have hexpr {expr : Expr} (hread : readExpression source = .ok expr) :
      hs.discipline.job (.expression (.frame session.frame) expr) session.world :=
    (HasJob.evaluate hread).respects hs.discipline hs.frame trivial
  refine ⟨?_, ?_, ?_, ?_⟩
  · cases hparse : Program.parse source with
    | error e => simp [session.ends_run_of_parse_error hparse]
    | ok tree =>
      have hcalls : (Job.calls session.frame (Block.ofTree tree).calls).IsCalls := ⟨_, _, rfl⟩
      simp only [session.run_of_parse hparse, Except.ok.injEq, forall_eq']
      exact hs.ends_iff_not_endless session.reports_conclude (hprogram tree) (.inl hcalls)
  · cases hread : readExpression source with
    | error e => simp [session.ends_evaluate_of_readExpression_error hread]
    | ok expr =>
      have htext : (Job.expression (.frame session.frame) expr).IsText := ⟨_, _, source, hread, rfl⟩
      simp only [session.evaluate_of_readExpression hread, Except.ok.injEq, forall_eq']
      exact hs.ends_iff_not_endless session.reports_settle (hexpr hread) (.inr htext)
  · intro tree f calls w hparse hcomes hdepth
    simp only [session.run_of_parse hparse]
    exact hs.failsWith_stackOverflow session.reports_conclude (hprogram tree) hcomes hdepth
  · intro expr f calls w hread hcomes hdepth
    simp only [session.evaluate_of_readExpression hread]
    exact hs.failsWith_stackOverflow session.reports_settle (hexpr hread) hcomes hdepth

/-- The program that evaluates itself comes to texts that evaluate texts without end. -/
theorem selfEvaluating_endless : ∃ tree, Program.parse selfEvaluating = .ok tree ∧
    (Session.new .stock .captured 1).engine.Endless
      (.calls (Session.new .stock .captured 1).frame (Block.ofTree tree).calls,
        (Session.new .stock .captured 1).world) := by
  by_contra hnone
  have hends := (GivenData.ends_iff (.new .stock .captured 1) selfEvaluating).1.2
    fun tree hparse hend => hnone ⟨tree, hparse, hend⟩
  obtain ⟨fuel, hne, -⟩ := hends
  exact hne (run_selfEvaluating .stock .captured 0 fuel)

end Session

end CallScript
