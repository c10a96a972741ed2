import CallScript.Engine.Stock
import CallScript.Proofs.Session.Definitions

/-!
# A call of a definition is its body in place

Calling a definition without arguments does what `ret` does with the body of the definition as a
block, in the environment that the definition was made in: the same value or error at the same
depth, with the same bindings and the same lines left behind (`Engine.invoke_definition_eq_ret`).
Where nothing runs in a copy of the environment, every definition that is not older than the
environment was made in it, so its body is in place wherever it is called
(`Session.History.definition_in_place`).  A definition made in a copy does not outlive the copy
(`Session.sandboxed_not_in_place`).
-/

namespace CallScript

open Engine

/-- Only an environment in use binds names. -/
theorem World.isLive_of_get? {w : World} {home : Nat} {name : String} {v : Value}
    (h : (w.environment home).get? name = some v) : w.isLive home = true := by
  unfold isLive
  unfold environment at h
  cases henv : w.environment? home with
  | some env => rfl
  | none =>
    rw [henv] at h
    cases h

namespace Engine

variable {engine : Engine} {recur : Job → World → Outcome Value} {f : Frame} {w : World}

/-! ## One call -/

theorem invoke_ret_block {own : String}
    (hret : (w.environment f.home).get? "ret" = some (.function own (.builtin .ret)))
    (body : Block) :
    invoke engine recur f ⟨"ret", [.block body]⟩ w = recur (.calls f body.calls) w := by
  simp only [invoke, Environment.find, hret, callWritten, Builtin.procedure, perform, load]
  cases recur (.calls f body.calls) w <;> rfl

/-- A call of a definition does what `ret` does with its body in the environment it was made in. -/
theorem invoke_definition_eq_ret {name own own' : String} {d : Definition}
    (hname : (w.environment f.home).get? name = some (.function own (.definition d)))
    (hret : (w.environment d.owner).get? "ret" = some (.function own' (.builtin .ret))) :
    invoke engine recur f ⟨name, []⟩ w =
      invoke engine recur { f with home := d.owner } ⟨"ret", [.block d.body]⟩ w := by
  have hlive : w.isLive d.owner = true := World.isLive_of_get? hret
  have hblock : invoke engine recur { f with home := d.owner } ⟨"ret", [.block d.body]⟩ w =
      recur (.calls { f with home := d.owner } d.body.calls) w := invoke_ret_block hret d.body
  rw [invoke_definition hname, hblock, callDefinition, if_pos hlive]

theorem invoke_definition_in_place {name own own' : String} {d : Definition}
    (hname : (w.environment f.home).get? name = some (.function own (.definition d)))
    (hret : (w.environment f.home).get? "ret" = some (.function own' (.builtin .ret)))
    (howner : d.owner = f.home) :
    invoke engine recur f ⟨name, []⟩ w = invoke engine recur f ⟨"ret", [.block d.body]⟩ w := by
  have hframe : { f with home := d.owner } = f := by rw [howner]
  rw [invoke_definition_eq_ret hname (howner ▸ hret), hframe]

theorem invoke_definition_detached {name own : String} {d : Definition}
    (hname : (w.environment f.home).get? name = some (.function own (.definition d)))
    (hdead : w.isLive d.owner = false) :
    invoke engine recur f ⟨name, []⟩ w = .error (.detachedDefinition own) w := by
  rw [invoke_definition hname, (callDefinition_eq recur (some f) own d w).2 hdead]

/-! ## Calls on the way -/

theorem invokeAll_append (before rest : List Call) (last : Value) (w : World) :
    invokeAll engine recur f last (before ++ rest) w =
      (invokeAll engine recur f last before w).andThen fun v w =>
        invokeAll engine recur f v rest w := by
  induction before generalizing last w with
  | nil => rfl
  | cons call before ih => simp only [List.cons_append, invokeAll, ih, Outcome.andThen_assoc]

/-- A job comes to a block that starts with the calls `before` in the world `start`, and these have
been run and have left the world `w` behind: the next call of the block is made there. -/
structure Arrives (engine : Engine) (origin : Job × World) (f : Frame) (before : List Call)
    (start w : World) : Prop where
  comes : ∃ rest, engine.Comes origin (.calls f (before ++ rest), start)
  depth : start.depth < f.maxDepth
  left : ∃ v, invokeAll engine engine.result f .none before (start.atDepth (start.depth + 1)) =
    .value v w

namespace Arrives

variable {origin : Job × World} {before : List Call} {start : World}

theorem respects {D : Discipline engine} (h : engine.Arrives origin f before start w)
    (hjob : D.job origin.1 origin.2) (hworld : D.world origin.2) : D.frame w f ∧ D.world w := by
  obtain ⟨rest, hcomes⟩ := h.comes
  obtain ⟨v, hleft⟩ := h.left
  obtain ⟨hf, hstart⟩ := hcomes.keeps hjob hworld
  have hafter := after_of_value (Discipline.invokeAll_entered hf hstart h.depth _) hleft
  exact ⟨hafter.frame (D.enter hf hstart h.depth).1, hafter.world⟩

/-- Of two calls that do the same in the world where they are made, each may stand for the other in
the block. -/
theorem run_congr (h : engine.Arrives origin f before start w) {call call' : Call}
    (hcall : ∀ fuel, invoke engine (engine.run fuel) f call w =
      invoke engine (engine.run fuel) f call' w) (fuel : Nat) (after : List Call) :
    engine.run fuel (.calls f (before ++ call :: after)) start =
      engine.run fuel (.calls f (before ++ call' :: after)) start := by
  cases fuel with
  | zero => rfl
  | succ fuel =>
    obtain ⟨v, hleft⟩ := h.left
    simp only [run_succ, step, runCalls, if_pos h.depth, invokeAll_append]
    -- With too little fuel for the calls before them, neither of the two is made.
    by_cases hend : invokeAll engine (engine.run fuel) f .none before
        (start.atDepth (start.depth + 1)) = .outOfFuel
    · rw [hend]
      rfl
    · have hfollows :=
        Discipline.invokeAll_entered (D := .free engine) trivial trivial h.depth before
      have hsame := hfollows.mono (Discipline.free_keeps _ _) (run_extends_result fuel) hend
      rw [← hsame, hleft, Outcome.andThen_value, Outcome.andThen_value, invokeAll, invokeAll,
        hcall fuel]

end Arrives

end Engine

namespace Session

variable {session : Session} {memory : List Value} {old : Definition → Prop}

/-! ## Sessions -/

/-- A call of a definition is its body in place wherever the definition was made in the environment
of the call.  A definition of another environment has its body in place there, or is detached if
that environment is given up.  Where the functions of the host keep no definition and run nothing in
a copy of the environment, every definition that was not within reach when the environment was last
replaced was made in the environment of the call. -/
theorem History.definition_in_place (h : session.History memory old) {origin : Job × World}
    (hbegins : session.Begins memory origin) {f : Frame} {before : List Call} {start w : World}
    (harrives : session.engine.Arrives origin f before start w) {name own own' : String}
    {d : Definition}
    (hname : (w.environment f.home).get? name = some (.function own (.definition d)))
    (hret : (w.environment f.home).get? "ret" = some (.function own' (.builtin .ret))) :
    (d.owner = f.home → ∀ fuel,
      invoke session.engine (session.engine.run fuel) f ⟨name, []⟩ w =
        invoke session.engine (session.engine.run fuel) f ⟨"ret", [.block d.body]⟩ w ∧
      ∀ after, session.engine.run fuel (.calls f (before ++ ⟨name, []⟩ :: after)) start =
        session.engine.run fuel (.calls f (before ++ ⟨"ret", [.block d.body]⟩ :: after)) start) ∧
    (∀ there, (w.environment d.owner).get? "ret" = some (.function there (.builtin .ret)) →
      ∀ fuel, invoke session.engine (session.engine.run fuel) f ⟨name, []⟩ w =
        invoke session.engine (session.engine.run fuel) { f with home := d.owner }
          ⟨"ret", [.block d.body]⟩ w) ∧
    (w.isLive d.owner = false → ∀ fuel,
      invoke session.engine (session.engine.run fuel) f ⟨name, []⟩ w =
        .error (.detachedDefinition own) w) ∧
    (session.toolkit.KeepsNothing → session.toolkit.RunsInPlace → ¬old d → d.owner = f.home) := by
  refine ⟨fun howner fuel => ⟨?_, ?_⟩, fun there hthere fuel => ?_, fun hdead fuel => ?_, ?_⟩
  · exact invoke_definition_in_place hname hret howner
  · exact harrives.run_congr (fun fuel => invoke_definition_in_place hname hret howner) fuel
  · exact invoke_definition_eq_ret hname hthere
  · exact invoke_definition_detached hname hdead
  · intro htoolkit hinPlace hnew
    have htracked := h.tracked htoolkit
    obtain ⟨hjob, hworld⟩ := htracked.begins htoolkit hbegins
    obtain ⟨hframe, haround, hall⟩ := harrives.respects hjob hworld
    have hknown := (Value.All.environment (hall.environment _) hname).of_has (.function own) d rfl
    have hhome : d.owner = session.home := (hknown.current hinPlace).resolve_right hnew
    rw [hhome]
    exact ((haround.only hinPlace _).1 hframe).symm

/-- A block that rebinds the name it was defined under, `ret`, and a name of its own. -/
def rebinding : Block :=
  ⟨[⟨"set", [.name "f", .number 1]⟩, ⟨"set", [.name "ret", .name "out"]⟩,
    ⟨"set", [.name "x", .string "y"]⟩, ⟨"ret", [.name "x"]⟩]⟩

/-- A session in which `g` is bound to the definition of that block. -/
def rebound : Session :=
  ((Session.new .stockInPlace .captured 3).execute 4
    ⟨[⟨"def", [.name "f", .block rebinding]⟩, ⟨"set", [.name "g", .name "f"]⟩]⟩).2

/-- The next call of a program of the session is made here. -/
theorem arrives_frame (hdepth : session.world.depth < session.maxDepth) (block : Block) :
    session.engine.Arrives (.calls session.frame block.calls, session.world) session.frame []
      session.world (session.world.atDepth (session.world.depth + 1)) where
  comes := ⟨block.calls, .refl⟩
  depth := hdepth
  left := ⟨.none, rfl⟩

theorem definition_in_place_rebound :
    (∀ fuel after,
      rebound.engine.run fuel (.calls rebound.frame (⟨"g", []⟩ :: after)) rebound.world =
        rebound.engine.run fuel (.calls rebound.frame (⟨"ret", [.block rebinding]⟩ :: after))
          rebound.world) ∧
    (rebound.execute 4 ⟨[⟨"g", []⟩]⟩).2.world.captured = #["y"] := by
  have hhistory : rebound.History [.none] fun _ => False :=
    .runs (.new .stockInPlace .captured 3) (.execute 4 _)
  have hg : ((rebound.world.atDepth 1).environment rebound.frame.home).get? "g" =
      some (.function "g" (.definition ⟨1, 0, rebinding⟩)) := rfl
  have hin := hhistory.definition_in_place (.runs (.block ⟨[]⟩)) (arrives_frame (by decide) ⟨[]⟩)
    hg rfl
  have howner := hin.2.2.2 Toolkit.stockInPlace_keepsNothing Toolkit.stockInPlace_runsInPlace nofun
  exact ⟨fun fuel after => (hin.1 howner fuel).2 after, rfl⟩

/-! ## A definition made in a copy of the environment -/

/-- The definition is not older than the environment, and yet a call of it is not its body in
place. -/
theorem sandboxed_not_in_place : sandboxed.History [.none] (fun _ => False) ∧
    sandboxed.environment.get? "g" = some (.function "g" (.definition ⟨2, 1, printing.body⟩)) ∧
    sandboxed.environment.get? "ret" = some (.function "ret" (.builtin .ret)) ∧
    (sandboxed.execute 3 ⟨[⟨"g", []⟩]⟩).1 = .error (.runtime (.detachedDefinition "g")) ∧
    (sandboxed.execute 3 ⟨[⟨"ret", [.block printing.body]⟩]⟩).1 = .ok .none :=
  ⟨sandboxed_history, rfl, rfl, rfl, rfl⟩

end Session

end CallScript
