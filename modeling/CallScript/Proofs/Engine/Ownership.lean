import CallScript.Proofs.Engine.Result
import CallScript.Proofs.Engine.Stock
import CallScript.Proofs.Engine.World
import CallScript.Proofs.Expression.Allowed

/-!
# The environments that definitions run in

A definition belongs to the environment it was made in and runs there while that is in use.  The
environments in use are that of a session and, while a function of the host has code run in copies
of it, those copies (`World.Around`).  A definition that is called runs in the environment it
belongs to if that is one of them, and is detached otherwise (`Engine.callDefinition_eq`).  Where
nothing runs in a copy, every definition that is not old belongs to the environment of the session
(`Definition.Known`).
-/

namespace CallScript

open Engine

/-! ## What functions of the host do -/

/-- The functions of the host keep no definition: they hand on only definitions that they are
given. -/
def Toolkit.KeepsNothing (toolkit : Toolkit) : Prop :=
  ∀ allowed, toolkit.HandsOn (Value.All.hereditary (Callable.Among allowed))

/-- Code runs nothing in a copy of its environment, and all else is allowed. -/
def Allowance.inPlace : Allowance :=
  { Allowance.free with copies := False }

/-- The functions of the host run nothing in a copy of the environment. -/
structure Toolkit.RunsInPlace (toolkit : Toolkit) : Prop where
  special : ∀ name arguments, (toolkit.special name arguments).Holds .inPlace
  contextual : ∀ name values, (toolkit.contextual name values).Holds .inPlace

/-- Copies may be forbidden to a procedure that runs nothing in a copy. -/
theorem Procedure.Holds.withCopies {a : Allowance} {copies : Prop} {procedure : Procedure}
    (h : procedure.Holds a) (hp : ¬copies → procedure.Holds .inPlace) :
    procedure.Holds { a with copies } := by
  induction h with
  | done hv => exact .done hv
  | fail he => exact .fail he
  | load _ ih =>
    refine .load fun v hv => ih v hv fun hn => ?_
    cases hp hn with
    | load hp => exact hp v trivial
  | print _ ih =>
    refine .print (ih fun hn => ?_)
    cases hp hn with
    | print hp => exact hp
  | inspect _ ih =>
    refine .inspect fun env depth he => ih env depth he fun hn => ?_
    cases hp hn with
    | inspect hp => exact hp env depth fun _ _ => trivial
  | define hv _ ih =>
    refine .define hv (ih fun hn => ?_)
    cases hp hn with
    | define _ hp => exact hp
  | defineBlock _ ih =>
    refine .defineBlock (ih fun hn => ?_)
    cases hp hn with
    | defineBlock hp => exact hp
  | remove _ ih =>
    refine .remove (ih fun hn => ?_)
    cases hp hn with
    | remove hp => exact hp
  | evaluate ht _ ih =>
    refine .evaluate ht fun v hv => ih v hv fun hn => ?_
    cases hp hn with
    | evaluate _ hp => exact hp v trivial
  | calculate ht _ ih =>
    refine .calculate ht fun v hv => ih v hv fun hn => ?_
    cases hp hn with
    | calculate _ hp => exact hp v trivial
  | inCopy _ _ _ ihbody ihnext =>
    have hcopies : copies := by
      by_contra hn
      cases hp hn with
      | inCopy hc => exact hc
    exact .inCopy hcopies (ihbody (absurd hcopies)) fun v hv => ihnext v hv (absurd hcopies)

theorem Toolkit.stock_keepsNothing : Toolkit.stock.KeepsNothing :=
  fun _ => stock_handsOn _

/-- The stock functions but the one that runs its arguments in a copy of the environment. -/
def Toolkit.stockInPlace : Toolkit :=
  { Toolkit.stock with
    special := fun name arguments =>
      if name = "sandbox" then .fail (missing name) else stockSpecial name arguments }

theorem Toolkit.stockInPlace_special (a : Allowance) (name : String) (arguments : List Argument) :
    (Toolkit.stockInPlace.special name arguments).Holds a := by
  by_cases hname : name = "sandbox"
  · simp only [stockInPlace, hname, if_true]
    exact .refuse nofun
  · simp only [stockInPlace, hname, if_false]
    exact stockSpecial_holds (fun h => absurd h hname) arguments

theorem Toolkit.stockInPlace_keepsNothing : Toolkit.stockInPlace.KeepsNothing :=
  fun _ => { stock_handsOn _ with special := stockInPlace_special _ }

theorem Toolkit.stockInPlace_runsInPlace : Toolkit.stockInPlace.RunsInPlace where
  special := stockInPlace_special _
  contextual name _ := stockContextual_holds name fun _ _ => trivial

/-! ## Environments in use -/

/-- The one environment in use has the number `home`. -/
def World.Only (home : Nat) (w : World) : Prop :=
  ∀ n, w.isLive n ↔ n = home

/-- The environment `home` is in use; the others in use, which there are only if not all code runs
in place, have got their numbers from `base` on. -/
structure World.Around (inPlace : Prop) (home base : Nat) (w : World) : Prop where
  live : w.isLive home
  below : ∀ n, w.isLive n → n < w.fresh
  others : ∀ n, w.isLive n → n = home ∨ ¬inPlace ∧ base ≤ n
  base_le : base ≤ w.fresh

namespace World.Around

variable {inPlace : Prop} {home base : Nat} {w w' : World}

theorem of_only (h : w.Only home) (hfresh : home < w.fresh) : w.Around inPlace home w.fresh where
  live := (h home).2 rfl
  below n hn := (h n).1 hn ▸ hfresh
  others n hn := .inl ((h n).1 hn)
  base_le := Nat.le_refl _

theorem only (h : w.Around inPlace home base) (hinPlace : inPlace) : w.Only home := by
  refine fun n => ⟨fun hn => ?_, fun hn => hn ▸ h.live⟩
  exact (h.others n hn).resolve_right fun hcopy => hcopy.1 hinPlace

theorem mono (h : w.Around inPlace home base) (hlive : ∀ n, w'.isLive n = w.isLive n)
    (hfresh : w.fresh ≤ w'.fresh) : w'.Around inPlace home base where
  live := (hlive home).trans h.live
  below n hn := Nat.lt_of_lt_of_le (h.below n ((hlive n).symm.trans hn)) hfresh
  others n hn := h.others n ((hlive n).symm.trans hn)
  base_le := h.base_le.trans hfresh

theorem allocate (h : w.Around inPlace home base) (hcopies : ¬inPlace) (env : Environment) :
    (w.allocate env).Around inPlace home base where
  live := (w.isLive_allocate env home).2 (.inr h.live)
  below n hn := by
    rcases (w.isLive_allocate env n).1 hn with rfl | hn
    · exact Nat.lt_succ_self _
    · exact Nat.lt_succ_of_lt (h.below n hn)
  others n hn := by
    rcases (w.isLive_allocate env n).1 hn with rfl | hn
    · exact .inr ⟨hcopies, h.base_le⟩
    · exact h.others n hn
  base_le := Nat.le_succ_of_le h.base_le

/-- When a copy is given up, the environments in use are those from before. -/
theorem isLive_release (h : w.Around inPlace home base) {env : Environment}
    (hlive : ∀ n, w'.isLive n = (w.allocate env).isLive n) (n : Nat) :
    (w'.release w.fresh).isLive n = w.isLive n := by
  rw [Bool.eq_iff_iff, World.isLive_release, hlive, World.isLive_allocate]
  constructor
  · rintro ⟨hne, heq | hn⟩
    · exact absurd heq hne
    · exact hn
  · exact fun hn => ⟨Nat.ne_of_lt (h.below n hn), .inr hn⟩

end World.Around

/-! ## Definitions at hand -/

/-- A definition that can be at hand when `n` is the next number: it belongs to an environment that
has been in use, and if all code runs in place, to the environment `home`, unless it is old. -/
structure Definition.Known (inPlace : Prop) (home : Nat) (old : Definition → Prop) (n : Nat)
    (d : Definition) : Prop where
  below : d.owner < n
  current : inPlace → d.owner = home ∨ old d

/-- A callable that is no definition but a known one. -/
def Callable.Known (inPlace : Prop) (home : Nat) (old : Definition → Prop) (n : Nat) :
    Callable → Prop :=
  Callable.Among (Definition.Known inPlace home old n)

theorem Value.All.known_mono {inPlace : Prop} {home n m : Nat} {old : Definition → Prop} (h : n ≤ m)
    {v : Value} (hv : v.All (Callable.Known inPlace home old n)) :
    v.All (Callable.Known inPlace home old m) :=
  hv.imp fun _ hc d hd => ⟨Nat.lt_of_lt_of_le (hc d hd).below h, (hc d hd).current⟩

theorem World.All.known_succ {inPlace : Prop} {home : Nat} {old : Definition → Prop} {w : World}
    (h : w.All (Callable.Known inPlace home old w.fresh)) :
    w.All (Callable.Known inPlace home old (w.fresh + 1)) :=
  h.imp fun _ => Value.All.known_mono (Nat.le_succ _)

/-- Code that starts where `base` is the next number runs in the environment `home` and in copies,
and gives up the copies that it makes. -/
def Discipline.current (engine : Engine) (home base : Nat) (old : Definition → Prop)
    (htoolkit : engine.toolkit.KeepsNothing)
    (hvars : Bindings.All (Callable.Known engine.toolkit.RunsInPlace home old base) engine.vars) :
    Discipline engine where
  value n := Value.All (Callable.Known engine.toolkit.RunsInPlace home old n)
  failure _ := True
  texts := True
  copies := ¬engine.toolkit.RunsInPlace
  hereditary _ := Value.All.hereditary _
  ordinary _ _ := trivial
  counted := True
  grows h := Value.All.known_mono (h trivial)
  named _ := True
  bare _ := True
  frame w f := w.isLive f.home
  world w := w.Around engine.toolkit.RunsInPlace home base ∧
    w.All (Callable.Known engine.toolkit.RunsInPlace home old w.fresh)
  leads w w' := ∀ n, w'.isLive n = w.isLive n
  near _ _ := True
  leads_refl _ _ := rfl
  leads_trans h h' n := (h' n).trans (h n)
  near_refl _ := trivial
  near_trans _ _ := trivial
  stays hf h := (h _).trans hf
  held hw home := hw.2.environment home
  vars _ hw := hvars.imp fun _ => Value.All.known_mono hw.1.base_le
  varCalls _ _ _ _ := trivial
  reads _ _ := Expr.looksUp_of_forall (fun _ => trivial) _
  print {f w} _ hw line := by
    refine ⟨⟨hw.1.mono (by simp) (by simp), ?_⟩, by simp⟩
    rw [World.fresh_print]
    exact hw.2.print _ line
  define _ hw hv name := ⟨⟨hw.1.mono (by simp) (Nat.le_refl _), hw.2.define hv _ name⟩, by simp⟩
  defineBlock {f w} hf hw name body := by
    refine ⟨⟨hw.1.mono (by simp) (Nat.le_succ _), ?_⟩, by simp⟩
    refine hw.2.known_succ.defineBlock (.callable fun d hd => ?_) name
    cases hd
    exact ⟨Nat.lt_succ_of_lt (hw.1.below _ hf), fun hinPlace => .inl ((hw.1.only hinPlace _).1 hf)⟩
  remove _ hw name := ⟨⟨hw.1.mono (by simp) (Nat.le_refl _), hw.2.remove _ name⟩, by simp⟩
  copy {f w} hcopies hf hw := by
    refine ⟨(w.isLive_allocate _ _).2 (.inl rfl), ⟨hw.1.allocate hcopies _, ?_⟩, fun _ _ => trivial⟩
    exact hw.2.known_succ.allocate (hw.2.known_succ.environment _)
  release {f w w'} _ _ hw hw' hleads := by
    have hlive := hw.1.isLive_release hleads
    refine ⟨⟨⟨?_, fun n hn => ?_, fun n hn => ?_, hw'.1.base_le⟩, hw'.2.release _⟩, hlive⟩
    · exact (hlive home).trans hw.1.live
    · exact hw'.1.below n ((w'.isLive_release _ n).1 hn).2
    · exact hw.1.others n ((hlive n).symm.trans hn)
  enter hf hw _ := ⟨hf, hw.1.mono (fun _ => rfl) (Nat.le_refl _), hw.2⟩
  exit _ _ _ hw' hleads := ⟨⟨hw'.1.mono (fun _ => rfl) (Nat.le_refl _), hw'.2⟩, hleads⟩
  overflow _ := trivial
  owner _ _ _ hlive := hlive
  alone _ hw hlive := ⟨hlive, ⟨hw.1.mono (fun _ => rfl) (Nat.le_refl _), hw.2⟩, fun _ _ => trivial⟩
  back _ _ _ hw' hleads := ⟨⟨hw'.1.mono (fun _ => rfl) (Nat.le_refl _), hw'.2⟩, hleads⟩
  builtin _ _ := trivial
  special _ arguments := ((htoolkit _).special _ arguments).withCopies fun hn =>
    (not_not.1 hn).special _ arguments
  contextual _ values hvs := ((htoolkit _).contextual _ values hvs).withCopies fun hn =>
    (not_not.1 hn).contextual _ values
  pure _ hvs hv := (htoolkit _).pure _ _ _ hvs hv
  pureFailure _ _ _ _ := trivial

namespace Engine

variable {engine : Engine}

/-! ## Worlds on the way -/

section Ways

variable {D : Discipline engine} {s : Scope}

theorem after_of_value {α : Type} {ok : Nat → α → Prop} {w w' : World} {a : α}
    {F : (Job → World → Outcome Value) → Outcome α} (hF : D.Follows w ok F)
    (h : F engine.result = .value a w') : D.After w w' := by
  have hends := hF.sound (fun job w ha hne => keeps_result D ha.1 ha.2.1 hne) (by simp [h])
  rw [h] at hends
  exact hends.2

mutual

/-- What an expression calls respects the disciplines that its scope does. -/
theorem Reaches.respects {expr : Expr} {w : World} {point : CallPoint}
    (hn : expr.LooksUp D.named) (hs : D.scope s w) (hw : D.world w) :
    Reaches engine engine.result s expr w point →
      D.value point.world.fresh (.callable point.callable) ∧ D.world point.world
  | .left h => h.respects hn.1 hs hw
  | .right hl h =>
    have hafter := after_of_value (Discipline.evaluate_follows _ _ hn.1 hs hw) hl
    h.respects hn.2 (hafter.scope hs) hafter.world
  | .operand h => h.respects (by exact hn) hs hw
  | .value h => h.respects hn.1 hs hw
  | .index hv h =>
    have hafter := after_of_value (Discipline.evaluate_follows _ _ hn.1 hs hw) hv
    h.respects hn.2 (hafter.scope hs) hafter.world
  | .argument _ _ h => h.respects hn.2 hs hw
  | .call hname hfunction hvalues =>
    have hafter := after_of_value (Discipline.evaluateAll_follows _ _ hn.2 hs hw) hvalues
    have hc := (D.hereditary _).callable_of_function? (hs.value hw hname) hfunction
    ⟨D.grows hafter.fresh hc, hafter.world⟩

theorem ReachesAny.respects {operands : List Operand} {w : World} {point : CallPoint}
    (hn : Operand.listLooksUp D.named operands) (hs : D.scope s w) (hw : D.world w) :
    ReachesAny engine engine.result s operands w point →
      D.value point.world.fresh (.callable point.callable) ∧ D.world point.world
  | .head h => h.respects hn.1 hs hw
  | .tail hv h =>
    have hafter := after_of_value (Discipline.evaluate_follows _ _ hn.1 hs hw) hv
    h.respects hn.2 (hafter.scope hs) hafter.world

end

end Ways

/-! ## Calls of definitions -/

/-- Runs the body of a definition in an environment: in the session of the running frame, or in a
session of its own if there is none. -/
def runBody (recur : Job → World → Outcome Value) (frame? : Option Frame) (home : Nat)
    (d : Definition) (w : World) : Outcome Value :=
  match frame? with
  | some f => recur (.calls { f with home } d.body.calls) w
  | none => (recur (.calls (.standalone home) d.body.calls) (w.atDepth 0)).afterwards
    (·.atDepth w.depth)

/-- A job comes to a call of a definition without arguments, in a frame or in none, and the call has
an outcome. -/
inductive CallsDefinition (engine : Engine) (start : Job × World) :
    Option Frame → String → Definition → World → Outcome Value → Prop where
  /-- A call in a block, when the calls before it have been run. -/
  | written {f : Frame} {before after : List Call} {name own : String} {d : Definition} {v : Value}
    {w w' : World} (hc : engine.Comes start (.calls f (before ++ ⟨name, []⟩ :: after), w))
    (hdepth : w.depth < f.maxDepth)
    (hbefore : invokeAll engine engine.result f .none before (w.atDepth (w.depth + 1)) =
      .value v w')
    (hname : (w'.environment f.home).get? name = some (.function own (.definition d))) :
    CallsDefinition engine start (some f) own d w'
      (invoke engine engine.result f ⟨name, []⟩ w')
  /-- A call in an expression. -/
  | applied {s : Scope} {expr : Expr} {own : String} {d : Definition} {w w' : World}
    (hc : engine.Comes start (.expression s expr, w))
    (hr : Reaches engine engine.result s expr w ⟨own, .definition d, [], w'⟩) :
    CallsDefinition engine start s.frame? own d w'
      (callValues engine engine.result s.frame? own (.definition d) [] w')

theorem invoke_definition {recur : Job → World → Outcome Value} {f : Frame} {name own : String}
    {d : Definition} {w : World}
    (hname : (w.environment f.home).get? name = some (.function own (.definition d))) :
    invoke engine recur f ⟨name, []⟩ w = callDefinition recur (some f) own d w := by
  simp [invoke, Environment.find, hname, callWritten]

/-- A definition of an environment in use runs there, and any other is detached. -/
theorem callDefinition_eq (recur : Job → World → Outcome Value) (frame? : Option Frame)
    (name : String) (d : Definition) (w : World) :
    (w.isLive d.owner = true →
      callDefinition recur frame? name d w = runBody recur frame? d.owner d w) ∧
    (w.isLive d.owner = false →
      callDefinition recur frame? name d w = .error (.detachedDefinition name) w) := by
  constructor
  · intro hlive
    cases frame? <;> simp only [callDefinition, hlive, if_true, runBody]
  · intro hdead
    simp only [callDefinition, hdead, if_false, Bool.false_eq_true]

/-- A definition that is called is one that the world may hold. -/
theorem CallsDefinition.respects {D : Discipline engine} {start : Job × World}
    (hjob : D.job start.1 start.2) (hworld : D.world start.2) {frame? : Option Frame}
    {name : String} {d : Definition} {w : World} {o : Outcome Value}
    (h : engine.CallsDefinition start frame? name d w o) :
    o = callDefinition engine.result frame? name d w ∧
      D.value w.fresh (.callable (.definition d)) ∧ D.world w := by
  cases h with
  | written hc hdepth hbefore hname =>
    obtain ⟨hf, hw⟩ := hc.keeps hjob hworld
    have hafter := after_of_value (Discipline.invokeAll_entered hf hw hdepth _) hbefore
    have hd := (D.hereditary _).environment (D.held hafter.world _) hname
    exact ⟨invoke_definition hname, (D.hereditary _).function.1 hd, hafter.world⟩
  | applied hc hr =>
    obtain ⟨⟨hs, hn⟩, hw⟩ := hc.keeps hjob hworld
    exact ⟨rfl, hr.respects hn hs hw⟩

end Engine

end CallScript
