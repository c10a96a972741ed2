import CallScript.Proofs.Engine.Ownership
import CallScript.Proofs.Session.Operations

/-!
# Definitions and the reset of a session

Definitions travel: a program stores them under other names, and the host reads them, keeps them,
and stores them in the environment or among the calculator's variables, which a reset leaves alone.
Wherever a definition has been, a call of it runs in the environment of the session if it was made
there since that was last replaced (`Session.History.calls_of_definitions`).  A definition that a
function of the host has had made in a copy of the environment runs in the copy while that is in
use.  All other calls of definitions fail without any effect.
-/

namespace CallScript

open Engine

namespace Session

/-! ## Histories -/

/-- A definition that is within reach: it stands in a value of the session or in one that the host
remembers. -/
inductive AtHand (session : Session) (memory : List Value) (d : Definition) : Prop where
  | bound {entry : String × Value} (hentry : entry ∈ session.environment.bindings)
    (h : entry.2.Has (.definition d))
  | kept {entry : String × Value} (hentry : entry ∈ session.defaults)
    (h : entry.2.Has (.definition d))
  | var {entry : String × Value} (hentry : entry ∈ session.calculator.vars)
    (h : entry.2.Has (.definition d))
  | keptVar {entry : String × Value} (hentry : entry ∈ session.calculator.defaults)
    (h : entry.2.Has (.definition d))
  | remembered {v : Value} (hv : v ∈ memory) (h : v.Has (.definition d))

/-- The definitions in a value stand in values that the host remembers. -/
def Remembered (memory : List Value) (v : Value) : Prop :=
  ∀ d, v.Has (.definition d) → ∃ seen ∈ memory, seen.Has (.definition d)

/-- A session after any number of operations, the values that the host has come by, and the
definitions that were within reach when the environment was last replaced. -/
inductive History : Session → List Value → (Definition → Prop) → Prop where
  | new (toolkit : Toolkit) (sink : Sink) (maxDepth : Nat) :
    History (.new toolkit sink maxDepth) [] fun _ => False
  | runs {session : Session} {memory : List Value} {old : Definition → Prop}
    (h : History session memory old) {answer : Except Failure Value × Session}
    (hr : session.Runs answer) : History answer.2 (answer.1.toOption.toList ++ memory) old
  | call {session : Session} {memory : List Value} {old : Definition → Prop}
    (h : History session memory old) {callable : Callable} {values : List Value}
    (hc : Remembered memory (.callable callable)) (hvs : ∀ v ∈ values, Remembered memory v)
    (fuel : Nat) (withFrame : Bool) (name : String) :
    History (session.call fuel withFrame name callable values).2
      ((session.call fuel withFrame name callable values).1.toOption.toList ++ memory) old
  | changes {session after : Session} {memory : List Value} {old : Definition → Prop}
    (h : History session memory old) (hc : session.Changes (Remembered memory) after) :
    History after memory old
  /-- The host reads a value, or makes one of what it has read. -/
  | reads {session : Session} {memory : List Value} {old : Definition → Prop}
    (h : History session memory old) {v : Value}
    (hv : ∀ d, v.Has (.definition d) → session.AtHand memory d) :
    History session (v :: memory) old
  | reset {session : Session} {memory : List Value} {old : Definition → Prop}
    (h : History session memory old) : History session.reset memory (session.AtHand memory)

/-! ## What histories keep -/

/-- The callables that can be at hand in a session: all but definitions, and the known ones of
these. -/
def Knows (session : Session) (old : Definition → Prop) : Callable → Prop :=
  Callable.Known session.toolkit.RunsInPlace session.home old session.world.fresh

/-- Only the environment of the session is in use, and the definitions at hand are known. -/
structure Tracked (session : Session) (memory : List Value) (old : Definition → Prop) : Prop where
  only : session.world.Only session.home
  fresh : session.home < session.world.fresh
  owners : ∀ d, old d → d.owner < session.home
  all : session.All (session.Knows old)
  seen : ∀ v ∈ memory, v.All (session.Knows old)

namespace Tracked

variable {session : Session} {memory : List Value} {old : Definition → Prop}

theorem atHand (h : session.Tracked memory old) {d : Definition} (hd : session.AtHand memory d) :
    d.Known session.toolkit.RunsInPlace session.home old session.world.fresh := by
  cases hd with
  | bound hentry hd => exact (h.all.world.environment _ _ hentry).of_has hd d rfl
  | kept hentry hd => exact (h.all.defaults _ hentry).of_has hd d rfl
  | var hentry hd => exact (h.all.calculator.vars _ hentry).of_has hd d rfl
  | keptVar hentry hd => exact (h.all.calculator.defaults _ hentry).of_has hd d rfl
  | remembered hv hd => exact (h.seen _ hv).of_has hd d rfl

theorem remembered (h : session.Tracked memory old) {v : Value} (hv : Remembered memory v) :
    v.All (session.Knows old) := by
  refine .of_forall_has v fun c hc d hd => ?_
  obtain ⟨seen, hseen, hd⟩ := hv d (hd ▸ hc)
  exact h.atHand (.remembered hseen hd)

/-- The discipline that code of the session respects. -/
def discipline (h : session.Tracked memory old) (htoolkit : session.toolkit.KeepsNothing) :
    Discipline session.engine :=
  .current session.engine session.home session.world.fresh old htoolkit h.all.calculator.vars

theorem frame (h : session.Tracked memory old) (htoolkit : session.toolkit.KeepsNothing) :
    (h.discipline htoolkit).frame session.world session.frame :=
  (h.only _).2 rfl

theorem world (h : session.Tracked memory old) (htoolkit : session.toolkit.KeepsNothing) :
    (h.discipline htoolkit).world session.world :=
  ⟨.of_only h.only h.fresh, h.all.world⟩

theorem call_follows (h : session.Tracked memory old) (htoolkit : session.toolkit.KeepsNothing)
    {c : Callable} {values : List Value} (hc : Remembered memory (.callable c))
    (hvs : ∀ v ∈ values, Remembered memory v) (withFrame : Bool) (name : String) :
    (h.discipline htoolkit).Follows session.world (h.discipline htoolkit).value fun recur =>
      callValues session.engine recur (if withFrame then some session.frame else none) name c values
        session.world :=
  Session.call_follows (h.discipline htoolkit) (h.frame htoolkit) (h.world htoolkit)
    (h.remembered hc) (fun _ => trivial) (fun v hv => h.remembered (hvs v hv)) name

theorem call_keeps (h : session.Tracked memory old) (htoolkit : session.toolkit.KeepsNothing)
    {c : Callable} {values : List Value} (hc : Remembered memory (.callable c))
    (hvs : ∀ v ∈ values, Remembered memory v) (fuel : Nat) (withFrame : Bool) (name : String) :
    session.Keeps (h.discipline htoolkit) (session.call fuel withFrame name c values) :=
  Session.call_keeps (h.discipline htoolkit) (h.frame htoolkit) (h.world htoolkit) withFrame
    (h.remembered hc) (fun _ => trivial) (fun v hv => h.remembered (hvs v hv)) fuel name

/-- An operation leaves no copy in use behind it. -/
theorem answer (h : session.Tracked memory old) {htoolkit : session.toolkit.KeepsNothing}
    {answer : Except Failure Value × Session} (hk : session.Keeps (h.discipline htoolkit) answer) :
    answer.2.Tracked (answer.1.toOption.toList ++ memory) old := by
  obtain ⟨result, after⟩ := answer
  obtain ⟨⟨world, stage, hrest⟩, hafter, hvalue⟩ := hk
  cases hrest
  have hfresh : session.world.fresh ≤ world.fresh := hafter.fresh trivial
  have hknown (v : Value) (hv : v.All (session.Knows old)) :
      v.All (Callable.Known session.toolkit.RunsInPlace session.home old world.fresh) :=
    hv.known_mono hfresh
  refine ⟨fun n => ?_, Nat.lt_of_lt_of_le h.fresh hfresh, h.owners,
    { h.all.imp hknown with world := hafter.world.2 }, fun v hv => ?_⟩
  · have hlive : world.isLive n = session.world.isLive n := hafter.leads n
    rw [hlive]
    exact h.only n
  · rcases List.mem_append.1 hv with hv | hv
    · cases result with
      | error e => cases hv
      | ok x =>
        cases List.mem_singleton.1 hv
        exact hvalue v rfl
    · exact hknown v (h.seen v hv)

theorem changes (h : session.Tracked memory old) {after : Session}
    (hc : session.Changes (Remembered memory) after) : after.Tracked memory old := by
  have hall := hc.each (fun _ hv => h.remembered hv) h.all
  obtain ⟨htoolkit, hhome, hfresh, hlive⟩ := hc.same
  have hknows : after.Knows old = session.Knows old := by
    rw [Knows, htoolkit, hhome, hfresh, Knows]
  refine ⟨fun n => ?_, ?_, ?_, hknows ▸ hall, hknows ▸ h.seen⟩
  · rw [hlive, hhome]
    exact h.only n
  · rw [hhome, hfresh]
    exact h.fresh
  · rw [hhome]
    exact h.owners

theorem reset (h : session.Tracked memory old) :
    session.reset.Tracked memory (session.AtHand memory) := by
  have hnone (n : Nat) : ¬(session.world.release session.home).isLive n := by
    rw [World.isLive_release, h.only]
    exact fun hn => hn.1 hn.2
  -- Every definition that was at hand is old now.
  have hold {v : Value} (hv : ∀ d, v.Has (.definition d) → session.AtHand memory d) :
      v.All (session.reset.Knows (session.AtHand memory)) := by
    refine .of_forall_has v fun c hc d hd => ?_
    have hhand := hv d (hd ▸ hc)
    exact ⟨Nat.lt_succ_of_lt (h.atHand hhand).below, fun _ => .inr hhand⟩
  have hdefaults : Bindings.All (session.reset.Knows (session.AtHand memory)) session.defaults :=
    fun entry hentry => hold fun d hd => .kept hentry hd
  refine ⟨fun n => ?_, Nat.lt_succ_self _, fun d hd => (h.atHand hd).below,
    ⟨?_, hdefaults, ?_, ?_⟩, fun v hv => hold fun d hd => .remembered hv hd⟩
  · show (World.allocate _ _).isLive n ↔ n = session.world.fresh
    rw [World.isLive_allocate]
    exact or_iff_left (hnone n)
  · have hempty : World.All (session.reset.Knows (session.AtHand memory))
        (session.world.release session.home) := fun entry hentry =>
      absurd ((World.isLive_iff _).2 (List.mem_map_of_mem hentry)) (hnone entry.1)
    have hnew : Bindings.All _ (Environment.mk session.defaults).bindings := hdefaults
    exact hempty.allocate hnew
  · exact fun entry hentry => hold fun d hd => .var hentry hd
  · exact fun entry hentry => hold fun d hd => .keptVar hentry hd

end Tracked

theorem new_tracked (toolkit : Toolkit) (sink : Sink) (maxDepth : Nat) :
    (Session.new toolkit sink maxDepth).Tracked [] fun _ => False := by
  refine ⟨fun n => ?_, Nat.zero_lt_one, nofun, .new (fun _ => .callable nofun) _ _ _, nofun⟩
  show (World.empty.allocate ⟨registry⟩).isLive n ↔ n = 0
  rw [World.isLive_allocate]
  exact or_iff_left (by simp [World.isLive_iff, World.empty])

theorem History.tracked {session : Session} {memory : List Value} {old : Definition → Prop}
    (h : session.History memory old) (htoolkit : session.toolkit.KeepsNothing) :
    session.Tracked memory old := by
  induction h with
  | new toolkit sink maxDepth => exact new_tracked toolkit sink maxDepth
  | runs _ hr ih =>
    rw [hr.toolkit] at htoolkit
    have htracked := ih htoolkit
    exact htracked.answer (hr.keeps (htracked.discipline htoolkit) (htracked.frame htoolkit)
      (htracked.world htoolkit) trivial)
  | call _ hc hvs fuel withFrame name ih =>
    rw [call_toolkit] at htoolkit
    have htracked := ih htoolkit
    exact htracked.answer (htracked.call_keeps htoolkit hc hvs fuel withFrame name)
  | changes _ hc ih =>
    obtain ⟨hsame, -⟩ := hc.same
    exact (ih (hsame ▸ htoolkit)).changes hc
  | reads _ hv ih =>
    have htracked := ih htoolkit
    refine { htracked with seen := fun v' hv' => ?_ }
    rcases List.mem_cons.1 hv' with rfl | hv'
    · exact .of_forall_has _ fun c hc d hd => htracked.atHand (hv d (hd ▸ hc))
    · exact htracked.seen v' hv'
  | reset _ ih => exact (ih htoolkit).reset

/-! ## Calls of definitions -/

/-- The jobs that operations on a session start. -/
inductive Begins (session : Session) (memory : List Value) : Job × World → Prop where
  | runs {job : Job} (h : session.HasJob job) : Begins session memory (job, session.world)
  | call {c : Callable} {values : List Value} {withFrame : Bool} {name : String}
    {inner : Job × World} (hc : Remembered memory (.callable c))
    (hvs : ∀ v ∈ values, Remembered memory v)
    (hs : session.engine.StartedBy (fun recur => callValues session.engine recur
      (if withFrame then some session.frame else none) name c values session.world) inner) :
    Begins session memory inner

theorem Tracked.begins {session : Session} {memory : List Value} {old : Definition → Prop}
    (h : session.Tracked memory old) (htoolkit : session.toolkit.KeepsNothing)
    {start : Job × World} (hb : session.Begins memory start) :
    (h.discipline htoolkit).job start.1 start.2 ∧ (h.discipline htoolkit).world start.2 := by
  cases hb with
  | runs hjob =>
    exact ⟨hjob.respects (h.discipline htoolkit) (h.frame htoolkit) trivial, h.world htoolkit⟩
  | @call c values withFrame name _ hc hvs hs =>
    have hasks := hs.asks (h.call_follows htoolkit hc hvs withFrame name)
    exact ⟨hasks.1, hasks.2.1⟩

/-- The environment that an old definition belongs to is not in use. -/
theorem Tracked.isLive_old {session : Session} {memory : List Value} {old : Definition → Prop}
    (h : session.Tracked memory old) {inPlace : Prop} {w : World}
    (hw : w.Around inPlace session.home session.world.fresh) {d : Definition} (hd : old d) :
    w.isLive d.owner = false := by
  rw [← Bool.not_eq_true]
  intro hlive
  have howner := h.owners d hd
  have hfresh := h.fresh
  rcases hw.others _ hlive with heq | ⟨-, hle⟩ <;> omega

/-- Between operations only the environment of the session is in use, and operations run blocks in
that environment and in copies that they make.  A definition that is called without arguments runs
in the environment it belongs to if that is in use; otherwise the call fails and changes nothing.
No definition that was within reach when the environment was last replaced belongs to an environment
in use, and where nothing runs in a copy, all others belong to the environment of the session, and
all blocks run there. -/
theorem History.calls_of_definitions {session : Session} {memory : List Value}
    {old : Definition → Prop} (h : session.History memory old)
    (htoolkit : session.toolkit.KeepsNothing) :
    session.world.Only session.home ∧
    (∀ start, session.Begins memory start →
      (∀ f calls w, session.engine.Comes start (.calls f calls, w) →
        w.isLive session.home = true ∧ w.isLive f.home = true ∧
        (f.home = session.home ∨ session.world.fresh ≤ f.home) ∧
        (session.toolkit.RunsInPlace → f.home = session.home ∧ w.Only session.home)) ∧
      ∀ frame? name d w o, session.engine.CallsDefinition start frame? name d w o →
        (d.owner = session.home → o = runBody session.engine.result frame? session.home d w) ∧
        (w.isLive d.owner = true → o = runBody session.engine.result frame? d.owner d w) ∧
        (w.isLive d.owner = false → o = .error (.detachedDefinition name) w) ∧
        (old d → w.isLive d.owner = false) ∧
        (session.toolkit.RunsInPlace → ¬old d → d.owner = session.home)) ∧
    ∀ d, session.AtHand memory d →
      (old d → d.owner ≠ session.home) ∧
      (session.toolkit.RunsInPlace → ¬old d → d.owner = session.home) ∧
      ∀ fuel withFrame name,
        (d.owner = session.home → session.call fuel withFrame name (.definition d) [] =
          session.settle (runBody (session.engine.run fuel)
            (if withFrame then some session.frame else none) session.home d session.world)) ∧
        (d.owner ≠ session.home → session.call fuel withFrame name (.definition d) [] =
          (.error (.runtime (.detachedDefinition name)), session)) := by
  have htracked := h.tracked htoolkit
  refine ⟨htracked.only, fun start hbegins => ?_, fun d hd => ⟨fun hold => ?_, ?_, ?_⟩⟩
  · obtain ⟨hjob, hworld⟩ := htracked.begins htoolkit hbegins
    refine ⟨fun f calls w hcomes => ?_, fun frame? name d w o hcalls => ?_⟩
    · obtain ⟨hf, hw, -⟩ := hcomes.keeps hjob hworld
      refine ⟨hw.live, hf, (hw.others _ hf).imp_right And.right, fun hinPlace => ?_⟩
      exact ⟨(hw.only hinPlace _).1 hf, hw.only hinPlace⟩
    · obtain ⟨rfl, hd, hw, -⟩ := hcalls.respects hjob hworld
      obtain ⟨hruns, hfails⟩ := callDefinition_eq session.engine.result frame? name d w
      have hknown := Value.All.callable_iff.1 hd d rfl
      refine ⟨fun howner => ?_, hruns, hfails, htracked.isLive_old hw, fun hinPlace hnew => ?_⟩
      · rw [hruns (howner ▸ hw.live), howner]
      · exact (hknown.current hinPlace).resolve_right hnew
  · exact Nat.ne_of_lt (htracked.owners d hold)
  · exact fun hinPlace hnew => ((htracked.atHand hd).current hinPlace).resolve_right hnew
  · intro fuel withFrame name
    obtain ⟨hruns, hfails⟩ := callDefinition_eq (session.engine.run fuel)
      (if withFrame then some session.frame else none) name d session.world
    have hcall : session.call fuel withFrame name (.definition d) [] =
        session.settle (callDefinition (session.engine.run fuel)
          (if withFrame then some session.frame else none) name d session.world) := rfl
    refine ⟨fun howner => ?_, fun hother => ?_⟩
    · rw [hcall, hruns ((htracked.only _).2 howner), howner]
    · have hdead : session.world.isLive d.owner = false := by
        rw [← Bool.not_eq_true, htracked.only]
        exact hother
      rw [hcall, hfails hdead]
      rfl

/-! ## A definition that the host keeps -/

/-- The definition of a block that prints a line, the first one made in a session. -/
def printing : Definition := ⟨1, 0, ⟨[⟨"out", [.string "x"]⟩]⟩⟩

/-- A session in which a program has bound `f` to the definition. -/
def defined : Session :=
  ((Session.new .stock .captured defaultMaxDepth).execute 2
    ⟨[⟨"def", [.name "f", .block printing.body]⟩]⟩).2

/-- The session after the host has read `f` and stored it as the variable `g`. -/
def aliased : Session :=
  { defined with
    calculator := defined.calculator.insert "g" (.function "f" (.definition printing)) }

theorem aliased_history :
    aliased.History [.function "f" (.definition printing), .none] fun _ => False := by
  have hdefined : defined.History [.none] fun _ => False :=
    .runs (.new .stock .captured defaultMaxDepth) (.execute 2 _)
  have hf : ("f", .callable (.definition printing)) ∈ defined.environment.bindings :=
    Entries.mem_of_get? (by rfl)
  have hread : defined.History [.function "f" (.definition printing), .none] fun _ => False := by
    refine hdefined.reads fun d hd => ?_
    cases hd
    exact .bound hf .callable
  exact hread.changes (.insertVar "g" fun d hd => ⟨_, List.mem_cons_self, hd⟩)

/-- The definition runs until the environment is replaced, and then no more. -/
theorem calls_of_definitions_aliased :
    aliased.History [.function "f" (.definition printing), .none] (fun _ => False) ∧
    aliased.toolkit.KeepsNothing ∧ ∀ fuel withFrame name,
      aliased.call fuel withFrame name (.definition printing) [] =
        aliased.settle (runBody (aliased.engine.run fuel)
          (if withFrame then some aliased.frame else none) aliased.home printing aliased.world) ∧
      aliased.reset.call fuel withFrame name (.definition printing) [] =
        (.error (.runtime (.detachedDefinition name)), aliased.reset) := by
  have hkept (session : Session) :
      session.AtHand [.function "f" (.definition printing), .none] printing :=
    .remembered List.mem_cons_self (.function "f")
  obtain ⟨-, -, hbefore⟩ := aliased_history.calls_of_definitions Toolkit.stock_keepsNothing
  obtain ⟨-, -, hafter⟩ := aliased_history.reset.calls_of_definitions Toolkit.stock_keepsNothing
  refine ⟨aliased_history, Toolkit.stock_keepsNothing, fun fuel withFrame name => ⟨?_, ?_⟩⟩
  · exact ((hbefore printing (hkept aliased)).2.2 fuel withFrame name).1 rfl
  · obtain ⟨hold, -, hcalls⟩ := hafter printing (hkept aliased.reset)
    exact (hcalls fuel withFrame name).2 (hold (hkept aliased))

/-! ## A definition made in a copy of the environment -/

/-- A session in which `g` is bound to a definition that was made in a copy of the environment. -/
def sandboxed : Session :=
  (((Session.new .stock .captured defaultMaxDepth).install
    [("sandbox", .callable (.host .special 0 "sandbox"))]).execute 4
      ⟨[⟨"set", [.name "g", .call ⟨"sandbox",
        [.call ⟨"def", [.name "h", .block printing.body]⟩, .name "h"]⟩]⟩]⟩).2

theorem sandboxed_history : sandboxed.History [.none] fun _ => False := by
  refine .runs (.changes (.new .stock .captured defaultMaxDepth) (.install fun entry hentry => ?_))
    (.execute 4 _)
  cases List.mem_singleton.1 hentry
  intro d hd
  cases hd

/-- The environment was never replaced, and the functions of the host keep nothing, and yet a
definition at hand is detached. -/
theorem sandboxed_detached : sandboxed.History [.none] (fun _ => False) ∧
    sandboxed.toolkit.KeepsNothing ∧
    sandboxed.environment.get? "g" = some (.function "g" (.definition ⟨2, 1, printing.body⟩)) ∧
    (sandboxed.execute 3 ⟨[⟨"g", []⟩]⟩).1 = .error (.runtime (.detachedDefinition "g")) :=
  ⟨sandboxed_history, Toolkit.stock_keepsNothing, rfl, rfl⟩

end Session

end CallScript
