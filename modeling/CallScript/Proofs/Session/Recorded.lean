import CallScript.Proofs.Engine.Trace
import CallScript.Proofs.Session.Invariant

/-!
# The environment of a session as an ordered map

The host changes the environment of a session and has code run in it, and all that happens to the
environment is a list of acts: those of the host, and those in the traces of its runs
(`Session.Recorded`).  After every operation the environment is the ordered map that these acts
describe, and so is what code sees while it runs (`Session.Recorded.last_write_wins`).
-/

namespace CallScript

open Engine Environment

namespace Session

variable {session : Session} {t : Trace} {acts : List Act}

/-! ## What code does -/

/-- What a block does with the environments. -/
def executeTrace (session : Session) (fuel : Nat) (block : Block) : Trace :=
  session.engine.trace fuel (.calls session.frame block.calls) session.world

/-- What the program a text stands for does with the environments. -/
def runTrace (session : Session) (fuel : Nat) (source : String) : Trace :=
  match Program.parse source with
  | .ok tree => session.executeTrace fuel (Block.ofTree tree)
  | .error _ => []

/-- What the expression a text stands for does with the environments. -/
def evaluateInTrace (session : Session) (fuel : Nat) (scope : Scope) (source : String) : Trace :=
  match Expression.parse source with
  | .error _ => []
  | .ok expr =>
    match expr.check with
    | .error _ => []
    | .ok () => session.engine.trace fuel (.expression scope expr) session.world

/-- What a function that the host calls does with the environments. -/
def callTrace (session : Session) (fuel : Nat) (withFrame : Bool) (name : String) (c : Callable)
    (values : List Value) : Trace :=
  session.engine.callValuesTrace (session.engine.run fuel) (session.engine.trace fuel)
    (if withFrame then some session.frame else none) name c values session.world

/-- The host has code run, which does what the trace says. -/
inductive Does (session : Session) : Trace → Except Failure Value × Session → Prop where
  | run (fuel : Nat) (source : String) :
    Does session (session.runTrace fuel source) (session.run fuel source)
  | execute (fuel : Nat) (block : Block) :
    Does session (session.executeTrace fuel block) (session.execute fuel block)
  | evaluateIn (fuel : Nat) (scope : Scope) (source : String) :
    Does session (session.evaluateInTrace fuel scope source) (session.evaluateIn fuel scope source)
  | call (fuel : Nat) (withFrame : Bool) (name : String) (c : Callable) (values : List Value) :
    Does session (session.callTrace fuel withFrame name c values)
      (session.call fuel withFrame name c values)

/-- A trace accounts for what becomes of the environment of a session until an answer is given, if
one is given. -/
structure Accounted (session : Session) (t : Trace) (answer : Except Failure Value × Session) :
    Prop where
  leads : ∃ env, Environment.Leads session.environment (t.acts session.home) env
  after : Returns answer → ∃ world stage, answer.2 = { session with world, stage } ∧
    session.world.Leads session.home t world

namespace Accounted

theorem refused (h : session.world.Houses session.home) (failure : Failure) (stage : Stage) :
    session.Accounted [] (.error failure, { session with stage }) where
  leads := ⟨_, .done _⟩
  after _ := ⟨session.world, stage, rfl, .of_eq h rfl⟩

theorem settle {o : Outcome Value} (ho : o.Traced session.home session.world t) :
    session.Accounted t (session.settle o) where
  leads := ho.leads
  after hr := by
    cases o with
    | value v w => exact ⟨w, session.stage, rfl, ho⟩
    | error e w => exact ⟨w, session.stage, rfl, ho⟩
    | outOfFuel => exact absurd rfl hr

theorem conclude {answer : Except Failure Value × Session} (h : session.Accounted t answer) :
    session.Accounted t (Session.conclude answer) where
  leads := h.leads
  after hr := by
    obtain ⟨result, after⟩ := answer
    have hr' : Returns (result, after) := by
      cases result <;> exact hr
    obtain ⟨world, stage, rfl, hleads⟩ := h.after hr'
    cases result with
    | error e => exact ⟨world, .failed, rfl, hleads⟩
    | ok v => exact ⟨world, .completed, rfl, hleads⟩

end Accounted

theorem execute_accounted (h : session.world.Houses session.home) (fuel : Nat) (block : Block) :
    session.Accounted (session.executeTrace fuel block) (session.execute fuel block) :=
  (Accounted.settle (run_traced fuel _ h)).conclude

theorem Does.accounted {answer : Except Failure Value × Session} (hdoes : session.Does t answer)
    (h : session.world.Houses session.home) : session.Accounted t answer := by
  cases hdoes with
  | execute fuel block => exact execute_accounted h fuel block
  | run fuel source =>
    unfold runTrace Session.run
    cases Program.parse source with
    | ok tree => exact execute_accounted h fuel _
    | error e => exact .refused h _ .failed
  | evaluateIn fuel scope source =>
    unfold evaluateInTrace Session.evaluateIn
    cases Expression.parse source with
    | error e => exact .refused h _ session.stage
    | ok expr =>
      cases hcheck : expr.check with
      | error e =>
        simp only [hcheck]
        exact .refused h _ session.stage
      | ok _ =>
        simp only [hcheck]
        exact .settle (run_traced fuel _ h)
  | call fuel withFrame name c values =>
    exact .settle (callValues_traced (fun job w hw => run_traced fuel job hw) h _ name c values)

/-! ## Histories -/

/-- A session after any number of operations, and all that has been done with its environment since
the environment was made. -/
inductive Recorded : Session → List Act → Prop where
  /-- The session gets a new environment. -/
  | start (session : Session) {bindings : Bindings} (hbindings : (Entries.keys bindings).Nodup)
    (hdefaults : (Entries.keys session.defaults).Nodup) :
    Recorded { session with
        world := session.world.allocate ⟨bindings⟩, home := session.world.fresh }
      (Act.writes bindings)
  | define {session : Session} {acts : List Act} (h : Recorded session acts) (name : String)
    (value : Value) :
    Recorded (session.updateEnvironment (·.define name value)) (acts ++ [.write name value])
  | extend {session : Session} {acts : List Act} (h : Recorded session acts) (more : Bindings) :
    Recorded (session.updateEnvironment (·.extend more)) (acts ++ Act.writes more)
  | remove {session : Session} {acts : List Act} (h : Recorded session acts) (name : String) :
    Recorded (session.updateEnvironment (·.remove name)) (acts ++ [.removal name])
  | install {session : Session} {acts : List Act} (h : Recorded session acts)
    (bindings : Bindings) :
    Recorded (session.install bindings) (acts ++ Act.writes bindings)
  /-- A new environment takes the place of the old one. -/
  | reset {session : Session} {acts : List Act} (h : Recorded session acts) :
    Recorded session.reset (Act.writes session.defaults)
  | runs {session : Session} {acts : List Act} (h : Recorded session acts) {t : Trace}
    {answer : Except Failure Value × Session} (hdoes : session.Does t answer)
    (hr : Returns answer) : Recorded answer.2 (acts ++ t.acts session.home)
  /-- Whatever else the host does, such as taking the lines printed or changing the calculator. -/
  | aside {session after : Session} {acts : List Act} (h : Recorded session acts)
    (hlive : after.world.live = session.world.live)
    (hfresh : after.world.fresh = session.world.fresh) (hhome : after.home = session.home)
    (hdefaults : after.defaults = session.defaults) : Recorded after acts

/-- What every operation keeps. -/
structure Mirrors (session : Session) (acts : List Act) : Prop where
  houses : session.world.Houses session.home
  defaults : (Entries.keys session.defaults).Nodup
  records : session.environment.Records acts

namespace Mirrors

theorem start {bindings : Bindings} (session : Session)
    (hbindings : (Entries.keys bindings).Nodup) (hdefaults : (Entries.keys session.defaults).Nodup)
    (world : World) :
    Mirrors { session with world := world.allocate ⟨bindings⟩, home := world.fresh }
      (Act.writes bindings) where
  houses := ⟨(world.isLive_allocate _ _).2 (.inl rfl), Nat.lt_succ_self _⟩
  defaults := hdefaults
  records := by
    show ((world.allocate ⟨bindings⟩).environment world.fresh).Records _
    rw [world.environment_allocate]
    exact Records.empty.leads (.writes_empty hbindings)

theorem update (h : session.Mirrors acts) {f : Environment → Environment} {more : List Act}
    (hf : ∀ env, Environment.Leads env more (f env)) :
    (session.updateEnvironment f).Mirrors (acts ++ more) where
  houses := ⟨by simpa [updateEnvironment] using h.houses.live, h.houses.old⟩
  defaults := h.defaults
  records := by
    have henv : (session.updateEnvironment f).environment = f session.environment :=
      session.world.environment_update h.houses.live f
    rw [henv]
    exact h.records.leads (hf _)

end Mirrors

theorem Recorded.mirrors (h : Recorded session acts) : session.Mirrors acts := by
  induction h with
  | start session hbindings hdefaults => exact .start session hbindings hdefaults _
  | define _ name value ih => exact ih.update fun env => .write (.done _)
  | extend _ more ih => exact ih.update fun env => .writes env more
  | remove _ name ih => exact ih.update fun env => .removal (.done _)
  | install _ bindings ih =>
    have hupdate := ih.update fun env => .writes env bindings
    exact ⟨hupdate.houses, Entries.nodup_keys_extend bindings ih.defaults, hupdate.records⟩
  | @reset session _ _ ih =>
    exact .start session ih.defaults ih.defaults (session.world.release session.home)
  | @runs session _ _ t answer hdoes hr ih =>
    obtain ⟨world, stage, hafter, hleads⟩ := (hdoes.accounted ih.houses).after hr
    rw [hafter]
    exact ⟨hleads.houses, ih.defaults, ih.records.leads hleads.leads⟩
  | @aside session after _ _ hlive hfresh hhome hdefaults ih =>
    have henv (home : Nat) : after.world.environment home = session.world.environment home := by
      rw [World.environment, World.environment?, hlive]
      rfl
    refine ⟨⟨?_, ?_⟩, ?_, ?_⟩
    · rw [World.isLive, World.environment?, hlive, hhome]
      exact ih.houses.live
    · rw [hfresh, hhome]
      exact ih.houses.old
    · rw [hdefaults]
      exact ih.defaults
    · rw [environment, hhome, henv]
      exact ih.records

/-- After any operations, the environment of a session is the ordered map that all that has been
done with it describes: it lists the names that have been written since they were last removed, with
the values written last, in the order of their first writing since then.  The same goes for what
code of the session sees at any moment while it runs, whether it comes to an end or not.  An
assignment of a program is a write of the value or the definition that it assigns. -/
theorem Recorded.last_write_wins (h : Recorded session acts) :
    session.environment.IsOrderedMap acts ∧
    (∀ t answer, session.Does t answer → ∀ before seen after,
      t.acts session.home = before ++ .look seen :: after → seen.IsOrderedMap (acts ++ before)) ∧
    ∀ fuel, session.engine.Assigns (session.engine.run fuel) (session.engine.trace fuel) := by
  refine ⟨h.mirrors.records.isOrderedMap, ?_, fun fuel => assigns _ _ _⟩
  intro t answer hdoes before seen after hacts
  obtain ⟨env, hleads⟩ := (hdoes.accounted h.mirrors.houses).leads
  rw [hacts] at hleads
  exact (h.mirrors.records.leads hleads.before_look).isOrderedMap

/-- A new session is recorded from its first bindings on. -/
theorem recorded_new (toolkit : Toolkit) (sink : Sink) (maxDepth : Nat) :
    Recorded (.new toolkit sink maxDepth) (Act.writes registry) := by
  have hregistry : (Entries.keys registry).Nodup := by decide
  exact .start { Session.new toolkit sink maxDepth with world := .empty } hregistry hregistry

/-- Writes `a`, `b` and `a` again. -/
def rewriting : Block :=
  ⟨[⟨"set", [.name "a", .number 1]⟩, ⟨"set", [.name "b", .number 2]⟩,
    ⟨"set", [.name "a", .number 3]⟩]⟩

/-- The session after the program, after `a` is removed, and after both are written once more. -/
def rewritten : Session :=
  (((Session.new .stock .captured 2).execute 2 rewriting).2.updateEnvironment
    (·.remove "a")).updateEnvironment (·.extend [("a", .number 4), ("b", .number 5)])

/-- `b` keeps its place from the program, and `a` comes after it.  When the program is run once more,
its second call sees the `a` that its first call has written. -/
theorem last_write_wins_rewritten :
    ∃ acts, Recorded rewritten acts ∧ rewritten.environment.IsOrderedMap acts ∧
      rewritten.environment.names = Entries.keys registry ++ ["b", "a"] ∧
      Act.Precedes acts "b" "a" ∧ Act.LastWritten acts "b" (.number 5) ∧
      ∃ before seen after, (rewritten.executeTrace 2 rewriting).acts rewritten.home =
          before ++ .look seen :: after ∧
        seen.IsOrderedMap (acts ++ before) ∧ seen.getRaw? "a" = some (.number 1) := by
  have hreturns : Returns ((Session.new .stock .captured 2).execute 2 rewriting) := by
    rintro ⟨⟩
  have hexecuted := (recorded_new .stock .captured 2).runs (.execute 2 rewriting) hreturns
  have hrecorded := (hexecuted.remove "a").extend [("a", .number 4), ("b", .number 5)]
  obtain ⟨hmap, hlooks, -⟩ := Recorded.last_write_wins hrecorded
  have hnames : rewritten.environment.names = Entries.keys registry ++ ["b", "a"] := by rfl
  have hordered : rewritten.environment.names.Pairwise _ := hmap.ordered
  rw [hnames] at hordered
  have hlast := List.rel_of_pairwise_cons (List.pairwise_append.1 hordered).2.1
    (List.mem_singleton.2 rfl)
  have hacts : (rewritten.executeTrace 2 rewriting).acts rewritten.home =
      [.look rewritten.environment, .write "a" (.number 1)] ++
        .look (rewritten.environment.define "a" (.number 1)) :: _ := rfl
  exact ⟨_, hrecorded, hmap, hnames, hlast, (hmap.getRaw? "b" (.number 5)).1 rfl,
    _, _, _, hacts, hlooks _ _ (.execute 2 rewriting) _ _ _ hacts, rfl⟩

end Session

end CallScript
