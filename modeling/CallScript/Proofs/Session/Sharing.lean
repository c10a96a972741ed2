import CallScript.Engine.Stock
import CallScript.Proofs.Engine.Bridge
import CallScript.Proofs.Session.Operations
import Mathlib.Tactic.Spread

/-!
# What the code of a session shares

A session has one place where its code prints and one count of the blocks that its code runs inside
one another.  Code hands both on wherever it runs code, with one exception: a definition that an
expression calls from the calculator's variables is given no frame, and runs in a session of its
own.  So a session shares both with all its code exactly if no variable that an expression can name
is a definition that can still run (`Session.Reachable.shares_iff`).
-/

namespace CallScript

open Engine

/-! ## Nested jobs -/

/-- The frame that a job runs in. -/
def Job.frame? : Job → Option Frame
  | .calls f _ => some f
  | .expression s _ => s.frame?

/-- How many blocks a job runs itself. -/
def Job.blocks : Job → Nat
  | .calls .. => 1
  | .expression .. => 0

/-- A job comes to another job, with some number of blocks being run around that one. -/
inductive Engine.Nested (engine : Engine) (outer : Job × World) : Nat → Job × World → Prop where
  | refl : Nested engine outer 0 outer
  | step {n : Nat} {middle inner : Job × World} (h : Nested engine outer n middle)
    (hs : engine.Starts middle inner) : Nested engine outer (n + middle.1.blocks) inner

/-! ## Disciplines -/

/-- Environments that are put to use get greater and greater numbers. -/
def Discipline.growing (engine : Engine) : Discipline engine where
  __ := Discipline.free engine
  counted := True
  grows _ h := h

/-- A definition that the calculator has a variable for, under a name that can be written. -/
def Engine.HasVariable (engine : Engine) (d : Definition) : Prop :=
  ∃ name own v, Expression.IsName name ∧ Entries.get? name engine.vars = some v ∧
    v.function? name = some (own, .definition d)

/-- The environments of definitions among the variables are not in use, nor will they be. -/
def Engine.Detached (engine : Engine) (w : World) : Prop :=
  ∀ d, engine.HasVariable d → d.owner < w.fresh ∧ w.isLive d.owner = false

theorem Engine.Detached.mono {engine : Engine} {w w' : World} (h : engine.Detached w)
    (hfresh : w.fresh ≤ w'.fresh) (hlive : ∀ n < w.fresh, w'.isLive n → w.isLive n) :
    engine.Detached w' := by
  intro d hd
  obtain ⟨hlt, hdead⟩ := h d hd
  refine ⟨Nat.lt_of_lt_of_le hlt hfresh, ?_⟩
  rw [← Bool.not_eq_true] at hdead ⊢
  exact fun hl => hdead (hlive _ hlt hl)

/-- While no variable is a definition that can run, every frame prints to the captured lines and has
the limit of the first one. -/
def Discipline.shared (engine : Engine) (limit : Nat) : Discipline engine where
  __ := Discipline.free engine
  named := Expression.IsName
  bare := Callable.Among engine.HasVariable
  frame _ f := f.sink = .captured ∧ f.maxDepth = limit
  world w := engine.Detached w
  leads w w' := w'.depth = w.depth ∧ w'.printed = w.printed ∧
    w.captured.toList <+: w'.captured.toList
  near w w' := w'.depth = w.depth
  leads_refl _ := ⟨rfl, rfl, List.prefix_refl _⟩
  leads_trans h₁ h₂ := ⟨h₂.1.trans h₁.1, h₂.2.1.trans h₁.2.1, h₁.2.2.trans h₂.2.2⟩
  near_refl := World.depth_rfl
  near_trans h₁ h₂ := h₂.trans h₁.1
  stays hf _ := hf
  vars _ _ _ _ := trivial
  held _ _ _ _ := trivial
  varCalls _ hname hv hc d hd := ⟨_, _, _, hname, hv, hd ▸ hc⟩
  reads _ := readExpression_looksUp
  print hf hw line := by
    rw [hf.1]
    exact ⟨hw, rfl, rfl, by simp [World.print]⟩
  define _ hw _ _ := ⟨hw.mono (Nat.le_refl _) (by simp), rfl, rfl, List.prefix_refl _⟩
  defineBlock _ hw _ _ := ⟨hw.mono (Nat.le_succ _) (by simp), rfl, rfl, List.prefix_refl _⟩
  remove _ hw _ := ⟨hw.mono (Nat.le_refl _) (by simp), rfl, rfl, List.prefix_refl _⟩
  copy {f w} _ hf hw := by
    refine ⟨hf, hw.mono (Nat.le_succ _) fun n hn hlive => ?_, fun _ h => h⟩
    exact ((w.isLive_allocate _ n).1 hlive).resolve_left (by omega)
  release {f w w'} _ _ _ hw' hl :=
    ⟨hw'.mono (Nat.le_refl _) fun n _ hlive => ((w'.isLive_release _ n).1 hlive).2, hl⟩
  enter hf hw _ := ⟨hf, hw⟩
  exit _ _ _ hw' hl := ⟨hw', World.depth_leave hl.1, hl.2⟩
  overflow _ := trivial
  owner hf _ _ _ := hf
  alone {d w} hd hw hlive := by
    rw [(hw d (hd d rfl)).2] at hlive
    cases hlive
  back {d w w'} hd hw hlive := by
    rw [(hw d (hd d rfl)).2] at hlive
    cases hlive

/-- Where no variable is a definition that can run, nested jobs are counted. -/
theorem Engine.Nested.respects {engine : Engine} {limit n : Nat} {job job' : Job} {w w' : World}
    (h : engine.Nested (job, w) n (job', w')) (hjob : (Discipline.shared engine limit).job job w)
    (hw : engine.Detached w) :
    (Discipline.shared engine limit).job job' w' ∧ engine.Detached w' ∧
      w'.depth = w.depth + n := by
  generalize hinner : (job', w') = inner at h
  induction h generalizing job' w' with
  | refl =>
    cases hinner
    exact ⟨hjob, hw, rfl⟩
  | @step n middle inner _ hs ih =>
    subst hinner
    obtain ⟨job, world⟩ := middle
    obtain ⟨hjob', hw', hdepth⟩ := ih rfl
    obtain ⟨hasked, hworld, hnear, -⟩ := hs.asks (.shared engine limit) hjob' hw'
    refine ⟨hasked, hworld, ?_⟩
    cases job with
    | calls f calls =>
      have hnear : w'.depth = world.depth + 1 := hnear
      show w'.depth = w.depth + (n + 1)
      omega
    | expression s expr =>
      have hnear : w'.depth = world.depth := hnear
      show w'.depth = w.depth + n
      omega

/-- An expression that calls a definition from the variables runs it in a session of its own. -/
theorem Engine.starts_standalone (engine : Engine) {w : World} {d : Definition} {name own : String}
    {v : Value} (hv : Entries.get? name engine.vars = some v)
    (hd : v.function? name = some (own, .definition d)) (hlive : w.isLive d.owner) :
    engine.Starts (.expression (.bindings engine.vars) (.call (.name name) []), w)
      (.calls (.standalone d.owner) d.body.calls, w.atDepth 0) := by
  intro e w'
  refine ⟨w'.atDepth w.depth, ?_⟩
  simp only [step, evaluate, Scope.lookup, hv, hd, evaluateAll, Outcome.andThen_value, callValues,
    List.isEmpty_nil, if_true, callDefinition, hlive, Scope.frame?, failing]
  rfl

/-! ## Sessions that share -/

/-- A callable that is no definition but one of an environment with a number below `n`. -/
def Callable.OwnedBelow (n : Nat) : Callable → Prop :=
  Callable.Among fun d => d.owner < n

theorem Calculator.ownedBelow_mono {calculator : Calculator} {n m : Nat} (hnm : n ≤ m)
    (h : calculator.All (Callable.OwnedBelow n)) : calculator.All (Callable.OwnedBelow m) :=
  h.imp fun _ hv => hv.imp fun _ hc d hd => Nat.lt_of_lt_of_le (hc d hd) hnm

namespace Session

/-- All code of a session prints to the captured lines, and all its blocks are counted by the
session against its limit. -/
structure Shares (session : Session) : Prop where
  frame : ∀ {job inner : Job} {n : Nat} {f : Frame} {w : World}, session.HasJob job →
    session.engine.Nested (job, session.world) n (inner, w) → inner.frame? = some f →
    (∀ w line, World.print w f.sink line = { w with captured := w.captured.push line }) ∧
      f.maxDepth = session.maxDepth ∧ w.depth = session.world.depth + n
  lines : ∀ {answer : Except Failure Value × Session}, session.Runs answer →
    answer.2.world.printed = session.world.printed ∧
      session.world.captured.toList <+: answer.2.world.captured.toList

/-- A session after any number of operations, in which the host hands over only definitions of
environments that have been in use. -/
inductive Reachable : Session → Prop where
  | new (toolkit : Toolkit) (sink : Sink) (maxDepth : Nat) : Reachable (.new toolkit sink maxDepth)
  | runs {session : Session} (h : Reachable session) {answer : Except Failure Value × Session}
    (hr : session.Runs answer) : Reachable answer.2
  | call {session : Session} (h : Reachable session) (fuel : Nat) (withFrame : Bool)
    (name : String) (callable : Callable) (values : List Value) :
    Reachable (session.call fuel withFrame name callable values).2
  | changes {session after : Session} (h : Reachable session)
    (hc : session.Changes (Value.All (Callable.OwnedBelow session.world.fresh)) after) :
    Reachable after
  | reset {session : Session} (h : Reachable session) : Reachable session.reset

/-- Running code leaves the calculator as it is and gives no number twice. -/
theorem Keeps.calculator {session : Session} {answer : Except Failure Value × Session}
    (h : session.Keeps (.growing session.engine) answer)
    (hall : session.calculator.All (Callable.OwnedBelow session.world.fresh)) :
    answer.2.calculator.All (Callable.OwnedBelow answer.2.world.fresh) := by
  obtain ⟨world, stage, hrest⟩ := h.rest
  have hcalculator : answer.2.calculator = session.calculator := by rw [hrest]
  rw [hcalculator]
  exact Calculator.ownedBelow_mono (h.after.fresh trivial) hall

theorem Reachable.calculator {session : Session} (h : session.Reachable) :
    session.calculator.All (Callable.OwnedBelow session.world.fresh) := by
  induction h with
  | new toolkit sink maxDepth =>
    exact ⟨by simp [Session.new, Calculator.empty, Bindings.Each],
      by simp [Session.new, Calculator.empty, Bindings.Each]⟩
  | @runs session _ answer hr ih =>
    exact (hr.keeps (.growing session.engine) trivial trivial trivial).calculator ih
  | @call session _ fuel withFrame name callable values ih =>
    exact (call_keeps (.growing session.engine) trivial trivial withFrame trivial
      (fun _ => trivial) (fun _ _ => trivial) fuel name).calculator ih
  | changes _ hc ih =>
    obtain ⟨-, -, hfresh, -⟩ := hc.same
    rw [hfresh]
    exact hc.calculator_each (fun _ hv => hv) ih
  | reset _ ih => exact Calculator.ownedBelow_mono (Nat.le_succ _) ih

/-- Where no variable is a definition that can run, all code shares. -/
theorem shares_of_detached {session : Session} (hsink : session.sink = .captured)
    (h : session.engine.Detached session.world) : session.Shares := by
  let D := Discipline.shared session.engine session.maxDepth
  have hframe : D.frame session.world session.frame := ⟨hsink, rfl⟩
  refine ⟨fun {job inner n f w} hjob hnested hf => ?_, fun hruns => ?_⟩
  · obtain ⟨hinner, -, hdepth⟩ := hnested.respects (hjob.respects D hframe trivial) h
    have hf : D.frame w f := by
      cases inner with
      | calls g calls =>
        cases hf
        exact hinner
      | expression s expr => exact hinner.1.frames f hf
    exact ⟨fun w line => by rw [hf.1]; rfl, hf.2, hdepth⟩
  · exact (hruns.keeps D hframe h trivial).after.leads.2

/-! ## A definition among the variables -/

/-- Binds `f` to a block that prints a line. -/
def defining : Block := ⟨[⟨"def", [.name "f", .block ⟨[⟨"out", [.string "x"]⟩]⟩]⟩]⟩

/-- A session in which the host has stored the definition `f` of a program as a variable. -/
def exported : Session :=
  let session := ((Session.new .stock .captured defaultMaxDepth).execute 2 defining).2
  { session with
    calculator := session.calculator.insert "f" ((session.environment.get? "f").getD .none) }

theorem exported_reachable : exported.Reachable := by
  refine .changes (.runs (.new .stock .captured defaultMaxDepth) (.execute 2 defining)) ?_
  refine .insertVar "f" (.function fun d hd => ?_)
  cases hd
  decide

/-- What the definition prints goes to standard output. -/
theorem exported_not_shares :
    exported.Reachable ∧ exported.sink = .captured ∧ ¬exported.Shares := by
  refine ⟨exported_reachable, rfl, fun hshares => ?_⟩
  have hprinted := (hshares.lines (.run 4 "\x7bclc(\"f()\")\x7d")).1
  have hx : (exported.run 4 "\x7bclc(\"f()\")\x7d").2.world.printed = #["x"] := by
    decide +kernel
  rw [hx] at hprinted
  cases hprinted

/-! ## Which sessions share -/

/-- A name that can be written can be called. -/
theorem exists_readExpression_call {name : String} (h : Expression.IsName name) :
    ∃ source, readExpression source = .ok (.call (.name name) []) := by
  refine ⟨callText name [], readExpression_callText h.1 h.2 fun tokens hscan => ?_⟩
  have hlength : (Expression.callTokens name []).length = 3 := rfl
  rw [Expression.length_of_scan_callText h.1 h.2 hscan, hlength]
  decide

/-- A session with captured lines shares them and its count with all its code exactly if no variable
that an expression can name is a definition that can still run. -/
theorem Reachable.shares_iff {session : Session} (h : session.Reachable)
    (hsink : session.sink = .captured) :
    session.Shares ↔
      ∀ d, session.engine.HasVariable d → session.world.isLive d.owner = false := by
  constructor
  · rintro hshares d ⟨name, own, v, hname, hv, hd⟩
    by_contra hlive
    rw [Bool.not_eq_false] at hlive
    have hstarts := session.engine.starts_standalone hv hd hlive
    obtain ⟨source, hread⟩ := exists_readExpression_call hname
    obtain ⟨hprint, -⟩ := hshares.frame (.calculate hread) (.step .refl hstarts) rfl
    have hprinted := congrArg World.printed (hprint .empty "")
    simp [Frame.standalone, World.print, World.empty] at hprinted
  · intro hdead
    refine shares_of_detached hsink fun d hd => ⟨?_, hdead d hd⟩
    obtain ⟨name, own, v, -, hv, hd⟩ := hd
    exact (h.calculator.vars.get? hv).of_function? hd d rfl

/-- Once the environment is replaced, the definition among the variables runs no more. -/
theorem shares_iff_exported_reset :
    exported.reset.Reachable ∧ exported.reset.sink = .captured ∧ exported.reset.Shares := by
  have hreachable := exported_reachable.reset
  refine ⟨hreachable, rfl, (hreachable.shares_iff rfl).2 ?_⟩
  rintro d ⟨name, own, v, -, hv, hd⟩
  have hvars : exported.reset.engine.vars =
      [("f", .function "f" (.definition ⟨1, 0, ⟨[⟨"out", [.string "x"]⟩]⟩⟩))] := by rfl
  rw [hvars] at hv
  cases List.mem_singleton.1 (Entries.mem_of_get? hv)
  cases hd
  rfl

end Session

end CallScript
