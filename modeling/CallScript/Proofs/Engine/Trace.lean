import CallScript.Engine.Run
import CallScript.Proofs.Engine.Acts
import CallScript.Proofs.Engine.World

/-!
# What a run does with the environments

The trace of a run lists what its code does with each environment, in order: the names it writes
and removes, and the looks it takes at the bindings, with what it sees there (`Engine.trace`).  Where
the engine passes from one part to the next, the trace follows the outcome of the part before.
Nothing else happens to an environment: the acts of the trace in it lead from its bindings before
the run to those after it, however the run ends, and a look sees what the acts before it have led
to (`Engine.run_traced`).
-/

namespace CallScript

/-- What is done one after the other, each with the number of the environment it is done in. -/
abbrev Trace := List (Nat × Act)

/-- What a trace does in one environment. -/
def Trace.acts (home : Nat) (trace : Trace) : List Act :=
  trace.filterMap fun (number, act) => if number = home then some act else none

/-- A look at an environment. -/
def World.look (w : World) (home : Nat) : Trace :=
  [(home, .look (w.environment home))]

/-- A look at what a scope takes names from. -/
def Scope.look (s : Scope) (w : World) : Trace :=
  match s with
  | .home number => w.look number
  | .frame f => w.look f.home
  | .bindings _ | .environment _ | .host _ _ => []

/-- What is done after a computation if it comes to a value. -/
def Outcome.traceThen {α : Type} (outcome : Outcome α) (next : α → World → Trace) : Trace :=
  match outcome with
  | .value a w => next a w
  | .error _ _ | .outOfFuel => []

/-!
## Traces of the engine

Each function of the engine has a trace beside it, which takes the same way through the same parts:
`recur` runs the jobs that are not smaller, and `trace` gives their traces.
-/

namespace Engine

section Definitions

variable (engine : Engine) (recur : Job → World → Outcome Value) (trace : Job → World → Trace)

def loadTrace (f : Frame) (argument : Argument) (w : World) : Trace :=
  match argument with
  | .number _ | .string _ => []
  | .name _ => w.look f.home
  | .call c => trace (.calls f [c]) w
  | .block b => trace (.calls f b.calls) w

def loadAllTrace (f : Frame) : List Argument → World → Trace
  | [], _ => []
  | argument :: arguments, w =>
    loadTrace trace f argument w ++
      (load recur f argument w).traceThen fun _ w => loadAllTrace f arguments w

def evaluateTextTrace (s : Scope) (source : String) (w : World) : Trace :=
  match readExpression source with
  | .ok expr => trace (.expression s expr) w
  | .error _ => []

def performTrace (f : Frame) : Procedure → World → Trace
  | .done _, _ => []
  | .fail _, _ => []
  | .load argument next, w =>
    loadTrace trace f argument w ++
      (load recur f argument w).traceThen fun v w => performTrace f (next v) w
  | .print line next, w => performTrace f next (w.print f.sink line)
  | .inspect next, w =>
    w.look f.home ++ performTrace f (next (w.environment f.home) w.depth) w
  | .define name value next, w =>
    (f.home, .write name value) :: performTrace f next (w.define f.home name value)
  | .defineBlock name body next, w =>
    (f.home, .write name (.callable (.definition ⟨w.fresh, f.home, body⟩))) ::
      performTrace f next (w.defineBlock f.home name body)
  | .remove name next, w =>
    (f.home, .removal name) :: performTrace f next (w.remove f.home name)
  | .evaluate source next, w =>
    evaluateTextTrace trace (.frame f) source w ++
      (evaluateText recur (.frame f) source w).traceThen fun v w => performTrace f (next v) w
  | .calculate source next, w =>
    evaluateTextTrace trace (.bindings engine.vars) source w ++
      (evaluateText recur (.bindings engine.vars) source w).traceThen fun v w =>
        performTrace f (next v) w
  | .inCopy body next, w =>
    let copy := w.fresh
    let inner := w.allocate (w.environment f.home)
    w.look f.home ++ (performTrace { f with home := copy } body inner ++
      ((perform engine recur { f with home := copy } body inner).afterwards
        (·.release copy)).traceThen fun v w => performTrace f (next v) w)

def callDefinitionTrace (frame? : Option Frame) (d : Definition) (w : World) : Trace :=
  if w.isLive d.owner then
    match frame? with
    | some f => trace (.calls { f with home := d.owner } d.body.calls) w
    | none => trace (.calls (.standalone d.owner) d.body.calls) (w.atDepth 0)
  else []

def callWrittenTrace (f : Frame) (c : Callable) (arguments : List Argument) (w : World) : Trace :=
  match c with
  | .builtin b => performTrace engine recur trace f (b.procedure arguments) w
  | .host .special _ host =>
    performTrace engine recur trace f (engine.toolkit.special host arguments) w
  | .host .contextual _ host =>
    loadAllTrace recur trace f arguments w ++
      (loadAll recur f arguments w).traceThen fun values w =>
        performTrace engine recur trace f (engine.toolkit.contextual host values) w
  | .host .pure _ _ => loadAllTrace recur trace f arguments w
  | .definition d => if arguments.isEmpty then callDefinitionTrace trace (some f) d w else []

def performLiteralsTrace (frame? : Option Frame) (name : String) (values : List Value)
    (procedure : List Argument → Procedure) (w : World) : Trace :=
  match frame? with
  | none => []
  | some f =>
    match values.mapM (literalArgument name) with
    | .ok arguments => performTrace engine recur trace f (procedure arguments) w
    | .error _ => []

def callValuesTrace (frame? : Option Frame) (name : String) (c : Callable) (values : List Value)
    (w : World) : Trace :=
  match c with
  | .builtin b => performLiteralsTrace engine recur trace frame? name values b.procedure w
  | .host .special _ host =>
    performLiteralsTrace engine recur trace frame? name values (engine.toolkit.special host) w
  | .host .contextual _ host =>
    match frame? with
    | none => []
    | some f => performTrace engine recur trace f (engine.toolkit.contextual host values) w
  | .host .pure _ _ => []
  | .definition d => if values.isEmpty then callDefinitionTrace trace frame? d w else []

def invokeTrace (f : Frame) (call : Call) (w : World) : Trace :=
  w.look f.home ++
    match (w.environment f.home).find call.name with
    | .ok (.function _ c) => callWrittenTrace engine recur trace f c call.arguments w
    | _ => []

def invokeAllTrace (f : Frame) : List Call → World → Trace
  | [], _ => []
  | call :: calls, w =>
    invokeTrace engine recur trace f call w ++
      (invoke engine recur f call w).traceThen fun _ w => invokeAllTrace f calls w

def runCallsTrace (f : Frame) (calls : List Call) (w : World) : Trace :=
  if w.depth < f.maxDepth then
    invokeAllTrace engine recur trace f calls (w.atDepth (w.depth + 1))
  else []

mutual

def evaluateTrace (s : Scope) : Expr → World → Trace
  | .name _, w => s.look w
  | .binary _ left right, w =>
    evaluateTrace s left w ++
      (evaluate engine recur s left w).traceThen fun _ w => evaluateTrace s right w
  | .unary _ operand, w => evaluateTrace s operand w
  | .call (.name name) operands, w =>
    s.look w ++
      match s.lookup name w with
      | none => []
      | some callee =>
        match callee.function? name with
        | none => []
        | some (own, c) =>
          evaluateAllTrace s operands w ++
            (evaluateAll engine recur s operands w).traceThen fun values w =>
              callValuesTrace engine recur trace s.frame? own c values w
  | .subscript value index, w =>
    evaluateTrace s value w ++
      (evaluate engine recur s value w).traceThen fun _ w => evaluateTrace s index w
  | _, _ => []

def evaluateAllTrace (s : Scope) : List Operand → World → Trace
  | [], _ => []
  | .positional operand :: operands, w =>
    evaluateTrace s operand w ++
      (evaluate engine recur s operand w).traceThen fun _ w => evaluateAllTrace s operands w
  | _ :: _, _ => []

end

def stepTrace : Job → World → Trace
  | .calls f calls, w => runCallsTrace engine recur trace f calls w
  | .expression s expr, w => evaluateTrace engine recur trace s expr w

end Definitions

/-- What a run does with the environments. -/
def trace (engine : Engine) : Nat → Job → World → Trace
  | 0, _, _ => []
  | fuel + 1, job, w => stepTrace engine (engine.run fuel) (trace engine fuel) job w

end Engine

/-! ## What traces account for -/

namespace Trace

variable (home : Nat)

@[simp] theorem acts_nil : Trace.acts home [] = [] := rfl

@[simp] theorem acts_append (t t' : Trace) :
    Trace.acts home (t ++ t') = Trace.acts home t ++ Trace.acts home t' :=
  List.filterMap_append

theorem acts_self (act : Act) : Trace.acts home [(home, act)] = [act] := by
  simp [acts]

theorem acts_of_ne {home number : Nat} (h : number ≠ home) (act : Act) :
    Trace.acts home [(number, act)] = [] := by
  simp [acts, h]

end Trace

namespace World

variable {home : Nat} {w w' : World}

/-- An environment is in use, and its number is not given out again. -/
structure Houses (w : World) (home : Nat) : Prop where
  live : w.isLive home
  old : home < w.fresh

namespace Houses

theorem atDepth (hw : w.Houses home) (depth : Nat) : (w.atDepth depth).Houses home :=
  ⟨hw.live, hw.old⟩

theorem print (hw : w.Houses home) (sink : Sink) (line : String) :
    (w.print sink line).Houses home := by
  cases sink <;> exact ⟨hw.live, hw.old⟩

theorem allocate (hw : w.Houses home) (env : Environment) : (w.allocate env).Houses home :=
  ⟨(w.isLive_allocate env home).2 (.inr hw.live), Nat.lt_succ_of_lt hw.old⟩

theorem release (hw : w.Houses home) {number : Nat} (h : home ≠ number) :
    (w.release number).Houses home :=
  ⟨(w.isLive_release number home).2 ⟨h, hw.live⟩, hw.old⟩

end Houses

/-- A trace accounts for all that becomes of an environment from one world to another. -/
structure Leads (home : Nat) (w : World) (t : Trace) (w' : World) : Prop where
  houses : w'.Houses home
  leads : Environment.Leads (w.environment home) (t.acts home) (w'.environment home)

namespace Leads

theorem trans {w'' : World} {t t' : Trace} (h : w.Leads home t w') (h' : w'.Leads home t' w'') :
    w.Leads home (t ++ t') w'' :=
  ⟨h'.houses, by simpa using h.leads.trans h'.leads⟩

/-- What leaves an environment alone needs no account. -/
theorem of_eq (hw : w'.Houses home) (h : w'.environment home = w.environment home) :
    w.Leads home [] w' :=
  ⟨hw, by rw [h]; exact .done _⟩

theorem atDepth (hw : w.Houses home) (depth : Nat) : w.Leads home [] (w.atDepth depth) :=
  of_eq (hw.atDepth depth) rfl

theorem print (hw : w.Houses home) (sink : Sink) (line : String) :
    w.Leads home [] (w.print sink line) :=
  of_eq (hw.print sink line) (by cases sink <;> rfl)

theorem look (hw : w.Houses home) (number : Nat) : w.Leads home (w.look number) w := by
  refine ⟨hw, ?_⟩
  by_cases h : number = home
  · subst h
    rw [World.look, Trace.acts_self]
    exact .look (.done _)
  · rw [World.look, Trace.acts_of_ne h]
    exact .done _

theorem scopeLook (hw : w.Houses home) (s : Scope) : w.Leads home (s.look w) w := by
  cases s with
  | home number => exact .look hw number
  | frame f => exact .look hw f.home
  | bindings bs => exact .of_eq hw rfl
  | environment env => exact .of_eq hw rfl
  | host source given => exact .of_eq hw rfl

/-- A change of an environment is accounted for by the act that makes it. -/
theorem update (hw : w.Houses home) {number : Nat} {f : Environment → Environment} {act : Act}
    (hact : ∀ env, Environment.Leads env [act] (f env)) :
    w.Leads home [(number, act)] (w.update number f) := by
  refine ⟨⟨by simpa using hw.live, hw.old⟩, ?_⟩
  by_cases h : number = home
  · subst h
    rw [Trace.acts_self, w.environment_update hw.live]
    exact hact _
  · rw [Trace.acts_of_ne h, w.environment_update_of_ne (Ne.symm h)]
    exact .done _

theorem define (hw : w.Houses home) (number : Nat) (name : String) (value : Value) :
    w.Leads home [(number, .write name value)] (w.define number name value) :=
  update hw fun env => .write (.done (env.define name value))

theorem remove (hw : w.Houses home) (number : Nat) (name : String) :
    w.Leads home [(number, .removal name)] (w.remove number name) :=
  update hw fun env => .removal (.done (env.remove name))

theorem defineBlock (hw : w.Houses home) (number : Nat) (name : String) (body : Block) :
    w.Leads home [(number, .write name (.callable (.definition ⟨w.fresh, number, body⟩)))]
      (w.defineBlock number name body) := by
  have hfresh : World.Houses { w with fresh := w.fresh + 1 } home :=
    ⟨hw.live, Nat.lt_succ_of_lt hw.old⟩
  have hdefine := define hfresh number name (.callable (.definition ⟨w.fresh, number, body⟩))
  exact ⟨hdefine.houses, hdefine.leads⟩

end Leads

end World

namespace Outcome

variable {α β : Type} {home : Nat} {w w' : World} {t t' : Trace} {o : Outcome α}

/-- A trace accounts for what becomes of an environment until a computation ends, or until it runs
out of fuel. -/
def Traced (home : Nat) (w : World) (t : Trace) : Outcome α → Prop
  | .value _ w' => w.Leads home t w'
  | .error _ w' => w.Leads home t w'
  | .outOfFuel => ∃ env, Environment.Leads (w.environment home) (t.acts home) env

namespace Traced

theorem value (hw : w.Houses home) (a : α) : (Outcome.value a w).Traced home w [] :=
  World.Leads.of_eq hw rfl

theorem error (hw : w.Houses home) (e : RuntimeError) :
    (Outcome.error e w : Outcome α).Traced home w [] :=
  World.Leads.of_eq hw rfl

theorem ofExcept (hw : w.Houses home) (result : Except RuntimeError α) :
    (Outcome.ofExcept result w).Traced home w [] := by
  cases result with
  | ok a => exact value hw a
  | error e => exact error hw e

theorem leads (h : o.Traced home w t) :
    ∃ env, Environment.Leads (w.environment home) (t.acts home) env := by
  cases o with
  | value a w' => exact ⟨_, World.Leads.leads h⟩
  | error e w' => exact ⟨_, World.Leads.leads h⟩
  | outOfFuel => exact h

/-- What has led to the world that a computation starts from comes first. -/
theorem after (h : w.Leads home t w') (ho : o.Traced home w' t') : o.Traced home w (t ++ t') := by
  cases o with
  | value a w'' => exact h.trans ho
  | error e w'' => exact h.trans ho
  | outOfFuel =>
    obtain ⟨env, henv⟩ := ho
    exact ⟨env, by simpa using h.leads.trans henv⟩

theorem andThen (ho : o.Traced home w t) {next : α → World → Outcome β}
    {later : α → World → Trace}
    (hnext : ∀ a w', w'.Houses home → (next a w').Traced home w' (later a w')) :
    (o.andThen next).Traced home w (t ++ o.traceThen later) := by
  cases o with
  | value a w' => exact after ho (hnext a w' (World.Leads.houses ho))
  | error e w' => simpa [traceThen, Traced] using ho
  | outOfFuel => simpa [traceThen, Traced] using ho

/-- What comes after a computation and changes no environment needs no account. -/
theorem andThen_ofExcept (ho : o.Traced home w t) (f : α → Except RuntimeError β) :
    (o.andThen fun a w' => .ofExcept (f a) w').Traced home w t := by
  cases o with
  | value a w' => simpa using after ho (ofExcept (World.Leads.houses ho) (f a))
  | error e w' => exact ho
  | outOfFuel => exact ho

theorem afterwards (ho : o.Traced home w t) {f : World → World}
    (hf : ∀ w' : World, w'.Houses home →
      (f w').Houses home ∧ (f w').environment home = w'.environment home) :
    (o.afterwards f).Traced home w t := by
  have hstep (w' : World) (h : w.Leads home t w') : w.Leads home t (f w') := by
    obtain ⟨hhouses, henv⟩ := hf w' h.houses
    simpa using h.trans (.of_eq hhouses henv)
  cases o with
  | value a w' => exact hstep w' ho
  | error e w' => exact hstep w' ho
  | outOfFuel => exact ho

end Traced

end Outcome

/-! ## Steps -/

namespace Engine

/-- Traces account for what the jobs that a step asks for do with an environment in use. -/
def Accounts (home : Nat) (recur : Job → World → Outcome Value) (trace : Job → World → Trace) :
    Prop :=
  ∀ job w, w.Houses home → (recur job w).Traced home w (trace job w)

section Steps

variable {engine : Engine} {recur : Job → World → Outcome Value} {trace : Job → World → Trace}
  {home : Nat} {w : World} {f : Frame}

section Programs

variable (hrecur : Accounts home recur trace)

include hrecur

theorem load_traced (hw : w.Houses home) (argument : Argument) :
    (load recur f argument w).Traced home w (loadTrace trace f argument w) := by
  cases argument with
  | number x => exact .value hw _
  | string s => exact .value hw _
  | name name =>
    have hlook := World.Leads.look hw f.home
    simpa [loadTrace, load] using Outcome.Traced.after hlook (.ofExcept hw _)
  | call c => exact hrecur _ w hw
  | block b => exact hrecur _ w hw

theorem loadFrom_traced (arguments : List Argument) : ∀ (loaded : List Value) {w : World},
    w.Houses home → (loadFrom recur f loaded arguments w).Traced home w
      (loadAllTrace recur trace f arguments w) := by
  induction arguments with
  | nil => exact fun _ _ hw => .value hw _
  | cons argument arguments ih =>
    exact fun loaded _ hw =>
      (load_traced hrecur hw argument).andThen fun v _ hw => ih (v :: loaded) hw

theorem evaluateText_traced (hw : w.Houses home) (s : Scope) (source : String) :
    (evaluateText recur s source w).Traced home w (evaluateTextTrace trace s source w) := by
  unfold evaluateText evaluateTextTrace
  cases readExpression source with
  | ok expr => exact hrecur _ w hw
  | error e => exact .error hw _

theorem perform_traced (procedure : Procedure) : ∀ {f : Frame} {w : World}, w.Houses home →
    (perform engine recur f procedure w).Traced home w
      (performTrace engine recur trace f procedure w) := by
  induction procedure with
  | done value => exact fun hw => .value hw _
  | fail e => exact fun hw => .error hw _
  | load argument next ih =>
    exact fun hw => (load_traced hrecur hw argument).andThen fun v _ hw => ih v hw
  | print line next ih =>
    exact fun {f} _ hw => .after (.print hw f.sink line) (ih (hw.print f.sink line))
  | inspect next ih => exact fun {f} _ hw => .after (.look hw f.home) (ih _ _ hw)
  | define name value next ih =>
    intro f w hw
    have hdefine := World.Leads.define hw f.home name value
    exact .after hdefine (ih hdefine.houses)
  | defineBlock name body next ih =>
    intro f w hw
    have hdefine := World.Leads.defineBlock hw f.home name body
    exact .after hdefine (ih hdefine.houses)
  | remove name next ih =>
    intro f w hw
    have hremove := World.Leads.remove hw f.home name
    exact .after hremove (ih hremove.houses)
  | evaluate source next ih =>
    exact fun hw => (evaluateText_traced hrecur hw _ source).andThen fun v _ hw => ih v hw
  | calculate source next ih =>
    exact fun hw => (evaluateText_traced hrecur hw _ source).andThen fun v _ hw => ih v hw
  | inCopy body next ihbody ihnext =>
    intro f w hw
    -- The copy has a number of its own, so that nothing in it reaches the environment.
    have hne : home ≠ w.fresh := Nat.ne_of_lt hw.old
    have hcopy : w.Leads home [] (w.allocate (w.environment f.home)) :=
      .of_eq (hw.allocate _) (w.environment_allocate_of_ne hne _)
    have hback (w' : World) (hw' : w'.Houses home) : (w'.release w.fresh).Houses home ∧
        (w'.release w.fresh).environment home = w'.environment home :=
      ⟨hw'.release hne, w'.environment_release_of_ne hne⟩
    have hbody := Outcome.Traced.after hcopy
      (ihbody (f := { f with home := w.fresh }) hcopy.houses)
    exact .after (.look hw f.home)
      ((hbody.afterwards hback).andThen fun v _ hw => ihnext v hw)

theorem callDefinition_traced (hw : w.Houses home) (frame? : Option Frame) (name : String)
    (d : Definition) : (callDefinition recur frame? name d w).Traced home w
      (callDefinitionTrace trace frame? d w) := by
  unfold callDefinition callDefinitionTrace
  split
  · cases frame? with
    | some f => exact hrecur _ w hw
    | none =>
      have hbody := Outcome.Traced.after (.atDepth hw 0)
        (hrecur (.calls (.standalone d.owner) d.body.calls) _ (hw.atDepth 0))
      exact hbody.afterwards fun w' hw' => ⟨hw'.atDepth w.depth, rfl⟩
  · exact .error hw _

theorem callWritten_traced (hw : w.Houses home) (name : String) (c : Callable)
    (arguments : List Argument) : (callWritten engine recur f name c arguments w).Traced home w
      (callWrittenTrace engine recur trace f c arguments w) := by
  unfold callWritten callWrittenTrace
  cases c with
  | builtin b => exact perform_traced hrecur _ hw
  | host kind label host =>
    have hload := loadFrom_traced (f := f) hrecur arguments [] hw
    cases kind with
    | special => exact perform_traced hrecur _ hw
    | contextual => exact hload.andThen fun _ _ hw => perform_traced hrecur _ hw
    | pure => exact hload.andThen_ofExcept _
  | definition d =>
    by_cases hnone : arguments.isEmpty
    · simpa [hnone] using callDefinition_traced hrecur hw (some f) name d
    · simpa [hnone] using Outcome.Traced.error hw _

theorem performLiterals_traced (hw : w.Houses home) (frame? : Option Frame) (name : String)
    (values : List Value) (procedure : List Argument → Procedure) :
    (performLiterals engine recur frame? name values procedure w).Traced home w
      (performLiteralsTrace engine recur trace frame? name values procedure w) := by
  unfold performLiterals performLiteralsTrace
  cases frame? with
  | none => exact .error hw _
  | some f =>
    cases values.mapM (literalArgument name) with
    | ok arguments => exact perform_traced hrecur _ hw
    | error e => exact .error hw _

theorem callValues_traced (hw : w.Houses home) (frame? : Option Frame) (name : String)
    (c : Callable) (values : List Value) :
    (callValues engine recur frame? name c values w).Traced home w
      (callValuesTrace engine recur trace frame? name c values w) := by
  unfold callValues callValuesTrace
  cases c with
  | builtin b => exact performLiterals_traced hrecur hw frame? name values _
  | host kind label host =>
    cases kind with
    | special => exact performLiterals_traced hrecur hw frame? name values _
    | contextual =>
      cases frame? with
      | none => exact .error hw _
      | some f => exact perform_traced hrecur _ hw
    | pure => exact .ofExcept hw _
  | definition d =>
    by_cases hnone : values.isEmpty
    · simpa [hnone] using callDefinition_traced hrecur hw frame? name d
    · simpa [hnone] using Outcome.Traced.error hw _

theorem invoke_traced (hw : w.Houses home) (call : Call) :
    (invoke engine recur f call w).Traced home w (invokeTrace engine recur trace f call w) := by
  refine .after (.look hw f.home) ?_
  unfold invoke
  cases (w.environment f.home).find call.name with
  | error e => exact .error hw _
  | ok value =>
    cases value with
    | function name c => exact callWritten_traced hrecur hw name c call.arguments
    | _ => exact .error hw _

theorem invokeAll_traced (calls : List Call) : ∀ (last : Value) {w : World}, w.Houses home →
    (invokeAll engine recur f last calls w).Traced home w
      (invokeAllTrace engine recur trace f calls w) := by
  induction calls with
  | nil => exact fun _ _ hw => .value hw _
  | cons call calls ih =>
    exact fun _ _ hw => (invoke_traced hrecur hw call).andThen fun v _ hw => ih v hw

theorem runCalls_traced (hw : w.Houses home) (calls : List Call) :
    (runCalls engine recur f calls w).Traced home w
      (runCallsTrace engine recur trace f calls w) := by
  unfold runCalls runCallsTrace
  split
  · have hcalls : (invokeAll engine recur f .none calls (w.atDepth (w.depth + 1))).Traced home w
        (invokeAllTrace engine recur trace f calls (w.atDepth (w.depth + 1))) :=
      .after (.atDepth hw _) (invokeAll_traced hrecur calls .none (hw.atDepth _))
    exact hcalls.afterwards fun w' hw' => ⟨hw'.atDepth (w'.depth - 1), rfl⟩
  · exact .error hw _

end Programs

mutual

theorem evaluate_traced {s : Scope} (hrecur : Accounts home recur trace) :
    ∀ (expr : Expr) {w : World}, w.Houses home →
      (evaluate engine recur s expr w).Traced home w (evaluateTrace engine recur trace s expr w)
  | .number x, w, hw => by
    simp only [evaluate, evaluateTrace]
    exact .value hw _
  | .name name, w, hw => by
    have hlook := World.Leads.scopeLook hw s
    simp only [evaluate, evaluateTrace]
    cases s.lookup name w with
    | some value => simpa using Outcome.Traced.after hlook (.value hw value)
    | none => simpa using Outcome.Traced.after hlook (.error hw _)
  | .binary op left right, w, hw => by
    simp only [evaluate, evaluateTrace]
    refine (evaluate_traced hrecur left hw).andThen fun l _ hw => ?_
    exact (evaluate_traced hrecur right hw).andThen_ofExcept fun r => Value.binary op l r
  | .unary op operand, w, hw => by
    simp only [evaluate, evaluateTrace]
    exact (evaluate_traced hrecur operand hw).andThen_ofExcept fun x => Value.unary op x
  | .call callee operands, w, hw => by
    cases callee with
    | name name =>
      simp only [evaluate, evaluateTrace]
      refine .after (.scopeLook hw s) ?_
      cases s.lookup name w with
      | none => exact .error hw _
      | some callee =>
        cases hfunction : callee.function? name with
        | none => simpa only [hfunction] using Outcome.Traced.error hw _
        | some function =>
          simp only [hfunction]
          exact (evaluateAll_traced hrecur operands hw).andThen fun values _ hw =>
            callValues_traced hrecur hw _ _ _ values
    | _ =>
      simp only [evaluate, evaluateTrace]
      exact .error hw _
  | .subscript value index, w, hw => by
    simp only [evaluate, evaluateTrace]
    refine (evaluate_traced hrecur value hw).andThen fun x _ hw => ?_
    exact (evaluate_traced hrecur index hw).andThen_ofExcept fun i => Value.subscript x i
  | .string .., w, hw | .bool .., w, hw | .none, w, hw | .boolean .., w, hw | .compare .., w, hw
  | .conditional .., w, hw | .lambda .., w, hw | .member .., w, hw | .slice .., w, hw
  | .list .., w, hw | .tuple .., w, hw | .dict .., w, hw | .set .., w, hw
  | .comprehension .., w, hw | .assign .., w, hw => by
    simp only [evaluate, evaluateTrace]
    exact .error hw _

theorem evaluateAll_traced {s : Scope} (hrecur : Accounts home recur trace) :
    ∀ (operands : List Operand) {w : World}, w.Houses home →
      (evaluateAll engine recur s operands w).Traced home w
        (evaluateAllTrace engine recur trace s operands w)
  | [], w, hw => by
    simp only [evaluateAll, evaluateAllTrace]
    exact .value hw _
  | .positional operand :: operands, w, hw => by
    simp only [evaluateAll, evaluateAllTrace]
    refine (evaluate_traced hrecur operand hw).andThen fun v _ hw => ?_
    exact (evaluateAll_traced hrecur operands hw).andThen_ofExcept fun vs => .ok (v :: vs)
  | .keyword .. :: _, w, hw | .starred .. :: _, w, hw | .doubleStarred .. :: _, w, hw => by
    simp only [evaluateAll, evaluateAllTrace]
    exact .error hw _

end

theorem step_traced (hrecur : Accounts home recur trace) (job : Job) (hw : w.Houses home) :
    (engine.step recur job w).Traced home w (stepTrace engine recur trace job w) := by
  cases job with
  | calls f calls => exact runCalls_traced hrecur hw calls
  | expression s expr => exact evaluate_traced hrecur expr hw

end Steps

/-! ## Runs -/

variable {engine : Engine} {home : Nat}

/-- What assignments of a program do: `set` writes the value that its argument comes to, if it comes
to one, and `def` writes a new definition of its body. -/
structure Assigns (engine : Engine) (recur : Job → World → Outcome Value)
    (trace : Job → World → Trace) : Prop where
  set : ∀ f w name own target argument,
    (w.environment f.home).get? name = some (.function own (.builtin .set)) →
    invokeTrace engine recur trace f ⟨name, [.name target, argument]⟩ w =
      w.look f.home ++ (loadTrace trace f argument w ++
        (load recur f argument w).traceThen fun v _ => [(f.home, .write target v)])
  define : ∀ f w name own target body,
    (w.environment f.home).get? name = some (.function own (.builtin .define)) →
    invokeTrace engine recur trace f ⟨name, [.name target, .block body]⟩ w =
      w.look f.home ++ [(f.home, .write target (.callable (.definition ⟨w.fresh, f.home, body⟩)))]

theorem assigns (engine : Engine) (recur : Job → World → Outcome Value)
    (trace : Job → World → Trace) : engine.Assigns recur trace where
  set f w name own target argument hset := by
    rw [invokeTrace, Environment.find, hset]
    rfl
  define f w name own target body hdef := by
    rw [invokeTrace, Environment.find, hdef]
    rfl

/-- The trace of a run accounts for all that becomes of an environment in use. -/
theorem run_traced (fuel : Nat) (job : Job) {w : World} (hw : w.Houses home) :
    (engine.run fuel job w).Traced home w (engine.trace fuel job w) := by
  induction fuel generalizing job w with
  | zero => exact ⟨_, .done _⟩
  | succ fuel ih =>
    rw [run_succ, trace]
    exact step_traced (fun job w hw => ih job hw) job hw

end Engine

end CallScript
