import CallScript.Proofs.Engine.Levels
import CallScript.Proofs.Engine.Ownership
import CallScript.Proofs.Session.Counting
import CallScript.Proofs.Session.Limit

/-!
# Nesting that a program shows

As long as no definition is called, blocks are run inside one another only as deep as a program
shows (`Job.levels`).  The parser bounds that, so in a session whose limit is not below the
parser's, a program that fails for its nesting has called a definition
(`Session.Modest.definition_called_of_overflow`).

The proof follows the failure.  A step that does not stand at the limit fails for nesting only if a
job that it starts does (`Engine.Tracks.exists_startedBy`), and that one shows fewer levels by as
much as it is deeper (`Engine.step_tracks`).
-/

namespace CallScript

open Engine

/-! ## Modest worlds -/

/-- Code in a modest world calls no other functions of the host. -/
def Discipline.modest (engine : Engine) {builtins : Builtin → Prop} {pures : String → Prop}
    (htoolkit : engine.toolkit.StaysPure builtins pures)
    (hvars : Bindings.All (Callable.OfPureHost builtins pures) engine.vars) :
    Discipline engine where
  toAllowances := .steady
    { Allowance.holding (Callable.OfPureHost builtins pures) with copies := False }
  named _ := True
  bare _ := True
  frame _ _ := True
  world w := w.All (Callable.OfPureHost builtins pures)
  leads _ _ := True
  near _ _ := True
  leads_refl _ := trivial
  leads_trans _ _ := trivial
  near_refl _ := trivial
  near_trans _ _ := trivial
  stays _ _ := trivial
  held hw home := hw.environment home
  vars _ _ := hvars
  varCalls _ _ _ _ := trivial
  reads _ _ := Expr.looksUp_of_forall (fun _ => trivial) _
  print _ hw line := ⟨hw.print _ line, trivial⟩
  define _ hw hv name := ⟨hw.define hv _ name, trivial⟩
  defineBlock _ hw name _ := ⟨hw.defineBlock (.callable trivial) name, trivial⟩
  remove _ hw name := ⟨hw.remove _ name, trivial⟩
  copy h := h.elim
  release h := h.elim
  enter _ hw _ := ⟨trivial, hw⟩
  exit _ _ _ hw' _ := ⟨hw', trivial⟩
  overflow _ := trivial
  owner _ _ _ _ := trivial
  alone _ hw _ := ⟨trivial, hw, fun _ _ => trivial⟩
  back _ _ _ hw' _ := ⟨hw', trivial⟩
  builtin _ _ := trivial
  special h := (Value.All.callable_iff.1 h).elim
  contextual h := (Value.All.callable_iff.1 h).elim
  pure h hvs hv := htoolkit.value _ (Value.All.callable_iff.1 h) _ hvs _ hv
  pureFailure _ _ _ _ := trivial

theorem Job.blocks_le_levels (job : Job) : job.blocks ≤ job.levels := by
  cases job with
  | calls f inner => exact Nat.le_add_left 1 _
  | expression s expr => exact le_rfl

namespace Engine

variable {engine : Engine} {n : Nat}

/-! ## Where failures for nesting come from -/

/-- A computation asks only for jobs that show at most `n` levels, and has an ordinary outcome, the
one that results lead to, if those jobs have. -/
def Tracks (engine : Engine) {α : Type} (n : Nat)
    (F : (Job → World → Outcome Value) → Outcome α) : Prop :=
  Requests (fun job _ => job.levels ≤ n) (fun job w o => o = engine.result job w ∧ o.IsOrdinary)
    (fun o => o = F engine.result ∧ o.IsOrdinary) F

namespace Tracks

variable {α β : Type} {w : World} {F : (Job → World → Outcome Value) → Outcome α}

theorem value (a : α) : engine.Tracks n fun _ => .value a w :=
  Requests.value a w ⟨rfl, trivial⟩

theorem error {e : RuntimeError} (he : e.IsOrdinary) :
    engine.Tracks n fun _ => (.error e w : Outcome α) :=
  Requests.error e w ⟨rfl, he⟩

theorem ofExcept {result : Except RuntimeError α} (h : FailsOnly RuntimeError.IsOrdinary result) :
    engine.Tracks n fun _ => .ofExcept result w := by
  cases result with
  | ok a => exact value a
  | error e => exact error (h e rfl)

theorem recur {job : Job} (h : job.levels ≤ n) : engine.Tracks n fun recur => recur job w :=
  Requests.recur h (fun _ _ h => h) fun _ _ h => h

theorem andThen {G : (Job → World → Outcome Value) → Outcome β}
    {next : β → World → (Job → World → Outcome Value) → Outcome α} (hG : engine.Tracks n G)
    (hnext : ∀ b w, G engine.result = .value b w → engine.Tracks n (next b w)) :
    engine.Tracks n fun recur => (G recur).andThen fun b w => next b w recur := by
  refine Requests.andThen hG (fun b w h => ?_)
    fun e w h => ⟨congrArg (·.andThen fun b w => next b w engine.result) h.1, h.2⟩
  simp only [← h.1, Outcome.andThen_value]
  exact hnext b w h.1.symm

theorem afterwards (hF : engine.Tracks n F) (f : World → World) :
    engine.Tracks n fun recur => (F recur).afterwards f := by
  refine Requests.afterwards hF fun o ho => ⟨congrArg (·.afterwards f) ho.1, ?_⟩
  cases o with
  | value a w => trivial
  | error e w => exact ho.2
  | outOfFuel => exact ho.2

end Tracks

open Classical in
/-- Runs jobs to their results, as far as those are ordinary. -/
noncomputable def ordinaryResult (engine : Engine) (job : Job) (w : World) : Outcome Value :=
  if (engine.result job w).IsOrdinary then engine.result job w else .outOfFuel

theorem ordinaryResult_ne_iff {job : Job} {w : World} :
    engine.ordinaryResult job w ≠ .outOfFuel ↔ (engine.result job w).IsOrdinary := by
  unfold ordinaryResult
  split
  · next h =>
    refine ⟨fun _ => h, fun _ hend => ?_⟩
    rw [hend] at h
    exact h
  · next h => simp [h]

theorem ordinaryResult_extends : Requests.Extends engine.ordinaryResult engine.result :=
  fun _ _ h => (if_pos (ordinaryResult_ne_iff.1 h)).symm

/-- A computation that fails for nesting, or has no end, has started a job that does so. -/
theorem Tracks.exists_startedBy {F : (Job → World → Outcome Value) → Outcome Value}
    (hF : engine.Tracks n F) (h : ¬(F engine.result).IsOrdinary) :
    ∃ inner : Job × World, engine.StartedBy F inner ∧
      ¬(engine.result inner.1 inner.2).IsOrdinary ∧ inner.1.levels ≤ n := by
  have hkeeps : Requests.Keeps (fun job _ => job.levels ≤ n)
      (fun job w o => o = engine.result job w ∧ o.IsOrdinary) engine.ordinaryResult := by
    intro job w _ hne
    rw [← ordinaryResult_extends job w hne]
    exact ⟨rfl, ordinaryResult_ne_iff.1 hne⟩
  have hstuck : F engine.ordinaryResult = .outOfFuel := by
    by_contra hne
    obtain ⟨heq, hordinary⟩ := hF.sound hkeeps hne
    exact h (heq ▸ hordinary)
  obtain ⟨job, w, hlevels, hend, hfail⟩ := hF.stuck hkeeps hstuck
  refine ⟨(job, w), fun e w' => ?_, fun hordinary => ordinaryResult_ne_iff.2 hordinary hend,
    hlevels⟩
  exact hfail _ (extends_failing ordinaryResult_extends hend e w') e w' (if_pos rfl)

/-- All definitions that a job calls are detached, so none of them is run. -/
def RunsNoDefinition (engine : Engine) (start : Job × World) : Prop :=
  ∀ frame? name d w o, engine.CallsDefinition start frame? name d w o → ¬w.isLive d.owner

theorem RunsNoDefinition.of_comes {start middle : Job × World}
    (h : engine.RunsNoDefinition start) (hc : engine.Comes start middle) :
    engine.RunsNoDefinition middle := by
  intro frame? name d w o hcalls
  refine h frame? name d w o ?_
  cases hcalls with
  | written hc' hdepth hbefore hname => exact .written (hc.trans hc') hdepth hbefore hname
  | applied hc' hr => exact .applied (hc.trans hc') hr

theorem load_tracks {f : Frame} {w : World} {argument : Argument} (h : argument.levels ≤ n) :
    engine.Tracks n fun recur => load recur f argument w := by
  cases argument with
  | number x => exact .value _
  | string s => exact .value _
  | name name => exact .ofExcept (Environment.find_failsOnly _ name)
  | call c => exact .recur (by simpa [Job.levels, Call.listLevels, Argument.levels] using h)
  | block b =>
    rw [Argument.levels, Block.levels_eq] at h
    exact .recur h

theorem loadFrom_tracks {f : Frame} {arguments : List Argument}
    (h : ∀ argument ∈ arguments, argument.levels ≤ n) (loaded : List Value) (w : World) :
    engine.Tracks n fun recur => loadFrom recur f loaded arguments w := by
  induction arguments generalizing loaded w with
  | nil => exact .value _
  | cons argument arguments ih =>
    rw [List.forall_mem_cons] at h
    exact (load_tracks h.1).andThen fun v w' _ => ih h.2 (v :: loaded) w'

theorem evaluateText_tracks (s : Scope) (source : String) (w : World) :
    engine.Tracks n fun recur => evaluateText recur s source w := by
  unfold evaluateText
  split
  · exact .recur (Nat.zero_le n)
  · next e he => exact .error (readExpression_failsOnly source e he)

theorem perform_tracks {f : Frame} {procedure : Procedure} (hp : procedure.Within n) (w : World) :
    engine.Tracks n fun recur => perform engine recur f procedure w := by
  induction hp generalizing w with
  | done => exact .value _
  | fail he => exact .error he
  | load ha _ ih => exact (load_tracks ha).andThen fun v w' _ => ih v w'
  | print _ ih => exact ih _
  | inspect _ ih => exact ih _ _ w
  | define _ ih => exact ih _
  | defineBlock _ ih => exact ih _
  | evaluate _ ih => exact (evaluateText_tracks _ _ w).andThen fun v w' _ => ih v w'
  | calculate _ ih => exact (evaluateText_tracks _ _ w).andThen fun v w' _ => ih v w'

/-! ## Calls -/

/-- A definition whose environment is given up is not run. -/
theorem callDefinition_tracks {d : Definition} {w : World} (hdead : ¬w.isLive d.owner)
    (frame? : Option Frame) (name : String) :
    engine.Tracks n fun recur => callDefinition recur frame? name d w := by
  simp only [callDefinition, if_neg hdead]
  exact .error (by rintro limit ⟨⟩)

theorem levels_le_of_literalArgument {name : String} {value : Value} {argument : Argument}
    (h : literalArgument name value = .ok argument) : argument.levels ≤ n := by
  unfold literalArgument at h
  split at h <;> cases h <;> exact n.zero_le

theorem levels_le_of_literalArguments {name : String} {values : List Value}
    {arguments : List Argument} (h : values.mapM (literalArgument name) = .ok arguments) :
    ∀ argument ∈ arguments, argument.levels ≤ n := by
  induction values generalizing arguments with
  | nil =>
    cases h
    simp
  | cons value values ih =>
    rw [List.mapM_cons] at h
    cases hvalue : literalArgument name value with
    | error e => simp [hvalue, bind, Except.bind] at h
    | ok argument =>
      cases hvalues : values.mapM (literalArgument name) with
      | error e => simp [hvalue, hvalues, bind, Except.bind] at h
      | ok rest =>
        obtain rfl : argument :: rest = arguments := by
          simpa [hvalue, hvalues, bind, Except.bind, pure, Except.pure] using h
        exact List.forall_mem_cons.2 ⟨levels_le_of_literalArgument hvalue, ih hvalues⟩

theorem performLiterals_tracks (b : Builtin) (frame? : Option Frame) (name : String)
    (values : List Value) (w : World) : engine.Tracks n fun recur =>
      performLiterals engine recur frame? name values b.procedure w := by
  unfold performLiterals
  split
  · exact .error (by rintro limit ⟨⟩)
  · split
    · next arguments hliteral =>
      exact perform_tracks (.builtin b (levels_le_of_literalArguments hliteral)) w
    · next e he => exact .error (literalArguments_failsOnly name values e he)

section Modest

variable {builtins : Builtin → Prop} {pures : String → Prop}
  (htoolkit : engine.toolkit.StaysPure builtins pures)
  (hvars : Bindings.All (Callable.OfPureHost builtins pures) engine.vars) {c : Callable}

include htoolkit

theorem callWritten_tracks {f : Frame} {name : String} {arguments : List Argument} {w : World}
    (hc : c.OfPureHost builtins pures) (h : ∀ argument ∈ arguments, argument.levels ≤ n)
    (hdead : ∀ d, c = .definition d → arguments = [] → ¬w.isLive d.owner) :
    engine.Tracks n fun recur => callWritten engine recur f name c arguments w := by
  cases c with
  | builtin b => exact perform_tracks (.builtin b h) w
  | host kind stamp host =>
    cases kind with
    | special => exact hc.elim
    | contextual => exact hc.elim
    | pure =>
      exact (loadFrom_tracks h [] w).andThen fun values w' _ =>
        .ofExcept (htoolkit.error host hc values)
  | definition d =>
    simp only [callWritten]
    split
    · next hempty => exact callDefinition_tracks (hdead d rfl (List.isEmpty_iff.1 hempty)) _ _
    · exact .error (by rintro limit ⟨⟩)

theorem callValues_tracks {frame? : Option Frame} {name : String} {values : List Value} {w : World}
    (hc : c.OfPureHost builtins pures)
    (hdead : ∀ d, c = .definition d → values = [] → ¬w.isLive d.owner) :
    engine.Tracks n fun recur => callValues engine recur frame? name c values w := by
  cases c with
  | builtin b => exact performLiterals_tracks b frame? name values w
  | host kind stamp host =>
    cases kind with
    | special => exact hc.elim
    | contextual => exact hc.elim
    | pure => exact .ofExcept (htoolkit.error host hc values)
  | definition d =>
    simp only [callValues]
    split
    · next hempty => exact callDefinition_tracks (hdead d rfl (List.isEmpty_iff.1 hempty)) _ _
    · exact .error (by rintro limit ⟨⟩)

/-! ## Blocks -/

theorem invoke_tracks {f : Frame} {call : Call} {w : World}
    (hw : w.All (Callable.OfPureHost builtins pures)) (h : call.levels ≤ n)
    (hdead : ∀ own d, (w.environment f.home).get? call.name = some (.function own (.definition d)) →
      call.arguments = [] → ¬w.isLive d.owner) :
    engine.Tracks n fun recur => invoke engine recur f call w := by
  unfold invoke
  split
  · next e he => exact .error (Environment.find_failsOnly _ _ e he)
  · next own c hfound =>
    have hget := Environment.get?_of_find_eq_ok hfound
    refine callWritten_tracks htoolkit ?_ (fun argument ha => ?_) ?_
    · cases Value.All.environment (hw.environment f.home) hget with
      | function hc => exact hc
    · exact (Argument.levels_le_of_mem ha).trans (call.levels_eq ▸ h)
    · rintro d rfl hempty
      exact hdead own d hget hempty
  · exact .error (by rintro limit ⟨⟩)

include hvars

theorem invokeAll_tracks {f : Frame} {calls : List Call} {w : World} (last : Value)
    (hw : w.All (Callable.OfPureHost builtins pures)) (h : Call.listLevels calls ≤ n)
    (hdead : ∀ before name after v w' own d, calls = before ++ ⟨name, []⟩ :: after →
      invokeAll engine engine.result f last before w = .value v w' →
      (w'.environment f.home).get? name = some (.function own (.definition d)) →
      ¬w'.isLive d.owner) :
    engine.Tracks n fun recur => invokeAll engine recur f last calls w := by
  induction calls generalizing last w with
  | nil => exact .value last
  | cons call calls ih =>
    obtain ⟨hcall, hcalls⟩ := Nat.max_le.1 h
    have hfirst : engine.Tracks n fun recur => invoke engine recur f call w := by
      refine invoke_tracks htoolkit hw hcall fun own d hget hempty => ?_
      obtain ⟨name, arguments⟩ := call
      obtain rfl : arguments = [] := hempty
      exact hdead [] name calls last w own d rfl rfl hget
    refine hfirst.andThen fun v w' hinvoke => ih v ?_ hcalls ?_
    · exact (after_of_value (D := .modest engine htoolkit hvars)
        (Discipline.invoke_follows trivial hw call) hinvoke).world
    · intro before name after v' w'' own d hsplit hbefore hget
      refine hdead (call :: before) name after v' w'' own d (by rw [hsplit]; rfl) ?_ hget
      rw [invokeAll, hinvoke]
      exact hbefore

/-! ## Expressions -/

omit htoolkit hvars in
theorem evaluate_modest {htoolkit : engine.toolkit.StaysPure builtins pures}
    {hvars : Bindings.All (Callable.OfPureHost builtins pures) engine.vars} {s : Scope} {w : World}
    (expr : Expr) (hs : (Discipline.modest engine htoolkit hvars).scope s w)
    (hw : w.All (Callable.OfPureHost builtins pures)) :
    (Discipline.modest engine htoolkit hvars).Follows w
      (Discipline.modest engine htoolkit hvars).value
      fun recur => evaluate engine recur s expr w :=
  Discipline.evaluate_follows expr w (expr.looksUp_of_forall fun _ => trivial) hs hw

mutual

theorem evaluate_tracks {s : Scope} :
    ∀ (expr : Expr) (w : World), (Discipline.modest engine htoolkit hvars).scope s w →
      w.All (Callable.OfPureHost builtins pures) →
      (∀ own d w', Reaches engine engine.result s expr w ⟨own, .definition d, [], w'⟩ →
        ¬w'.isLive d.owner) →
      engine.Tracks n fun recur => evaluate engine recur s expr w
  | .number x, w, _, _, _ => by
    simp only [evaluate]
    exact .value _
  | .name name, w, _, _, _ => by
    simp only [evaluate]
    split
    · exact .value _
    · exact .error (by rintro limit ⟨⟩)
  | .binary op left right, w, hs, hw, hdead => by
    simp only [evaluate]
    have hleft := evaluate_tracks left w hs hw fun own d w' hr => hdead own d w' (.left hr)
    refine hleft.andThen fun l w₁ hl => ?_
    have hafter := after_of_value (evaluate_modest left hs hw) hl
    have hright := evaluate_tracks right w₁ (hafter.scope hs) hafter.world
      fun own d w' hr => hdead own d w' (.right hl hr)
    exact hright.andThen fun r w₂ _ =>
      .ofExcept ((Value.binary_failsOnly op l r).imp Discipline.ordinary_of_refused)
  | .unary op operand, w, hs, hw, hdead => by
    simp only [evaluate]
    have hoperand := evaluate_tracks operand w hs hw
      fun own d w' hr => hdead own d w' (.operand hr)
    exact hoperand.andThen fun x w₁ _ =>
      .ofExcept ((Value.unary_failsOnly op x).imp Discipline.ordinary_of_refused)
  | .call callee operands, w, hs, hw, hdead => by
    cases callee with
    | name name =>
      simp only [evaluate]
      split
      · exact .error (by rintro limit ⟨⟩)
      · next callee hcallee =>
        split
        · exact .error (by rintro limit ⟨⟩)
        · next own c hfunction =>
          have hoperands := evaluateAll_tracks operands w hs hw
            fun own' d w' hr => hdead own' d w' (.argument hcallee hfunction hr)
          refine hoperands.andThen fun values w₁ hvalues => ?_
          have hc := Value.All.of_function? (hs.value hw hcallee) hfunction
          refine callValues_tracks htoolkit hc ?_
          rintro d rfl rfl
          exact hdead own d w₁ (.call hcallee hfunction hvalues)
    | _ =>
      simp only [evaluate]
      exact .error (by rintro limit ⟨⟩)
  | .subscript value index, w, hs, hw, hdead => by
    simp only [evaluate]
    have hvalue := evaluate_tracks value w hs hw fun own d w' hr => hdead own d w' (.value hr)
    refine hvalue.andThen fun x w₁ hx => ?_
    have hafter := after_of_value (evaluate_modest value hs hw) hx
    have hindex := evaluate_tracks index w₁ (hafter.scope hs) hafter.world
      fun own d w' hr => hdead own d w' (.index hx hr)
    exact hindex.andThen fun i w₂ _ =>
      .ofExcept ((Value.subscript_failsOnly x i).imp fun _ he => he.isOrdinary)
  | .string .., w, _, _, _ | .bool .., w, _, _, _ | .none, w, _, _, _ | .boolean .., w, _, _, _
  | .compare .., w, _, _, _ | .conditional .., w, _, _, _ | .lambda .., w, _, _, _
  | .member .., w, _, _, _ | .slice .., w, _, _, _ | .list .., w, _, _, _ | .tuple .., w, _, _, _
  | .dict .., w, _, _, _ | .set .., w, _, _, _ | .comprehension .., w, _, _, _
  | .assign .., w, _, _, _ => by
    simp only [evaluate]
    exact .error (by rintro limit ⟨⟩)

theorem evaluateAll_tracks {s : Scope} :
    ∀ (operands : List Operand) (w : World), (Discipline.modest engine htoolkit hvars).scope s w →
      w.All (Callable.OfPureHost builtins pures) →
      (∀ own d w', ReachesAny engine engine.result s operands w ⟨own, .definition d, [], w'⟩ →
        ¬w'.isLive d.owner) →
      engine.Tracks n fun recur => evaluateAll engine recur s operands w
  | [], w, _, _, _ => by
    simp only [evaluateAll]
    exact .value _
  | .positional operand :: operands, w, hs, hw, hdead => by
    simp only [evaluateAll]
    have hoperand := evaluate_tracks operand w hs hw fun own d w' hr => hdead own d w' (.head hr)
    refine hoperand.andThen fun v w₁ hv => ?_
    have hafter := after_of_value (evaluate_modest operand hs hw) hv
    have hoperands := evaluateAll_tracks operands w₁ (hafter.scope hs) hafter.world
      fun own d w' hr => hdead own d w' (.tail hv hr)
    exact hoperands.andThen fun vs w₂ _ => .value _
  | .keyword .. :: _, w, _, _, _ | .starred .. :: _, w, _, _, _
  | .doubleStarred .. :: _, w, _, _, _ => by
    simp only [evaluateAll]
    exact .error (by rintro limit ⟨⟩)

end

/-! ## Runs -/

/-- The jobs that a step asks for show fewer levels than its own job, unless it calls a
definition. -/
theorem step_tracks {job : Job} {w : World}
    (hjob : (Discipline.modest engine htoolkit hvars).job job w)
    (hw : w.All (Callable.OfPureHost builtins pures))
    (hdepth : ∀ f, job.frame? = some f → w.depth + job.levels ≤ f.maxDepth)
    (hnone : engine.RunsNoDefinition (job, w)) :
    engine.Tracks (job.levels - job.blocks) fun recur => engine.step recur job w := by
  cases job with
  | calls f calls =>
    have hroom : w.depth < f.maxDepth :=
      Nat.lt_of_lt_of_le (Nat.lt_add_of_pos_right (Nat.succ_pos _)) (hdepth f rfl)
    have henter : (w.atDepth (w.depth + 1)).All (Callable.OfPureHost builtins pures) := hw
    have hcalls : engine.Tracks (Call.listLevels calls) fun recur =>
        invokeAll engine recur f .none calls (w.atDepth (w.depth + 1)) := by
      refine invokeAll_tracks htoolkit hvars .none henter le_rfl ?_
      intro before name after v w' own d hsplit hbefore hget
      subst hsplit
      exact hnone (some f) own d w' _ (.written .refl hroom hbefore hget)
    simp only [step, runCalls, if_pos hroom]
    exact hcalls.afterwards _
  | expression s expr =>
    exact evaluate_tracks htoolkit hvars expr w hjob.1 hw fun own d w' hr =>
      hnone s.frame? own d w' _ (.applied .refl hr)

/-- A run that ends and calls no definition does not fail for nesting, if its limit leaves room for
the levels that it shows. -/
theorem isOrdinary_of_run_ne {start : Job × World}
    (hjob : (Discipline.modest engine htoolkit hvars).job start.1 start.2)
    (hworld : start.2.All (Callable.OfPureHost builtins pures))
    (hnone : engine.RunsNoDefinition start) (fuel : Nat) {job : Job} {w : World} (hc : engine.Comes start (job, w))
    (hdepth : ∀ f, job.frame? = some f → w.depth + job.levels ≤ f.maxDepth)
    (hend : engine.run fuel job w ≠ .outOfFuel) : (engine.result job w).IsOrdinary := by
  induction fuel generalizing job w with
  | zero => exact absurd rfl hend
  | succ fuel ih =>
    by_contra hnot
    obtain ⟨hjob', hw⟩ := hc.keeps hjob hworld
    have htracks := step_tracks htoolkit hvars hjob' hw hdepth (hnone.of_comes hc)
    rw [← step_result] at hnot
    obtain ⟨⟨job', w'⟩, hs, hnot', hlevels⟩ := htracks.exists_startedBy hnot
    have hstarts : engine.Starts (job, w) (job', w') := hs
    have hin := hstarts.inSession
    dsimp only at hin hlevels
    refine hnot' (ih (hc.tail hstarts) (fun g hg => ?_) (hstarts.run_ne hend))
    dsimp only at hg ⊢
    cases hframe : job.frame? with
    | some f =>
      simp only [hframe, InSession] at hin
      have hroom := hdepth f hframe
      have hblocks := job.blocks_le_levels
      have hlimit := (hin.2 g hg).2
      omega
    | none =>
      -- Where no frame is running only definitions are run, and those show a level.
      simp only [hframe, InSession] at hin
      obtain ⟨-, owner, calls, rfl⟩ := hin
      cases job with
      | calls f inner => cases hframe
      | expression s expr => exact absurd hlevels (Nat.not_succ_le_zero _)

end Modest

end Engine

namespace Session

/-- A session that holds built-in functions, definitions, data and the functions `pures` of the
host. -/
structure Modest (session : Session) (pures : String → Prop) : Prop where
  toolkit : session.toolkit.StaysPure (fun _ => True) pures
  world : session.world.All (Callable.OfPureHost (fun _ => True) pures)
  vars : Bindings.All (Callable.OfPureHost (fun _ => True) pures) session.calculator.vars

/-- A program that the parser accepts and that fails for its nesting has called a definition, if the
session allows as much nesting as the parser does. -/
theorem Modest.definition_called_of_overflow {session : Session} {pures : String → Prop}
    (h : session.Modest pures) (hidle : session.world.depth = 0) (hlimit : 1000 ≤ session.maxDepth)
    {source : String} {tree : Program.Tree.Block} (hparse : Program.parse source = .ok tree)
    {fuel limit : Nat}
    (hrun : (session.run fuel source).1 = .error (.runtime (.stackOverflow limit))) :
    ∃ frame? name d w o, session.engine.CallsDefinition
      (.calls session.frame (Block.ofTree tree).calls, session.world) frame? name d w o ∧
        w.isLive d.owner := by
  by_contra hcalled
  have hnone : session.engine.RunsNoDefinition
      (.calls session.frame (Block.ofTree tree).calls, session.world) :=
    fun frame? name d w o hcalls hlive => hcalled ⟨frame?, name, d, w, o, hcalls, hlive⟩
  have hroom (f : Frame) (hf : some session.frame = some f) : session.world.depth +
      (Job.calls session.frame (Block.ofTree tree).calls).levels ≤ f.maxDepth := by
    obtain rfl := Option.some.inj hf
    have hlevels : (Block.ofTree tree).levels ≤ 1000 := Block.levels_le_of_parse hparse
    rw [hidle, Nat.zero_add, Job.levels, ← Block.levels_eq]
    exact hlevels.trans hlimit
  rw [run_of_parse _ hparse] at hrun
  cases ho : session.engine.run fuel (.calls session.frame (Block.ofTree tree).calls)
      session.world with
  | value v w => simp [ho, settle, conclude] at hrun
  | outOfFuel => simp [ho, settle, conclude] at hrun
  | error e w =>
    obtain rfl : e = .stackOverflow limit := by simpa [ho, settle, conclude] using hrun
    have hend := ho.trans_ne (show Outcome.error (.stackOverflow limit) w ≠ .outOfFuel by simp)
    have hjob : (Discipline.modest session.engine h.toolkit h.vars).job
        (.calls session.frame (Block.ofTree tree).calls) session.world := trivial
    have hordinary := isOrdinary_of_run_ne _ _ hjob h.world hnone fuel .refl hroom hend
    rw [run_extends_result fuel _ _ hend, ho] at hordinary
    exact hordinary limit rfl

/-! ## A definition that calls itself -/

theorem modest_new (sink : Sink) (maxDepth : Nat) :
    (Session.new .stock sink maxDepth).Modest fun _ => True where
  toolkit := Toolkit.stock_staysPure _
  world := by
    have hempty : World.All (Callable.OfPureHost (fun _ => True) fun _ => True) .empty := nofun
    refine hempty.allocate fun entry hentry => ?_
    obtain ⟨b, -, rfl⟩ := List.mem_map.1 hentry
    exact .callable trivial
  vars := by simp [Session.new, Calculator.empty, Bindings.Each]

/-- The block that calls `f`. -/
def callOfF : Block := ⟨[⟨"f", []⟩]⟩

/-- A program that binds `f` to the block that calls `f`, and calls `f`. -/
def selfCalling : String := "\x7bdef(f, \x7bf()\x7d); f()\x7d"

theorem parse_selfCalling : ∃ tree, Program.parse selfCalling = .ok tree ∧
    (Block.ofTree tree).calls = [⟨"def", [.name "f", .block callOfF]⟩, ⟨"f", []⟩] := by
  refine ⟨?tree, ?parse, ?calls⟩
  case parse =>
    cbv
    rfl
  case calls => rfl

section SelfCalling

variable (engine : Engine) {f : Frame} {w : World} (hlive : w.isLive f.home)

include hlive

theorem invoke_callOfF (recur : Job → World → Outcome Value) {stamp : Nat}
    (hf : (w.environment f.home).get? "f" =
      some (.function "f" (.definition ⟨stamp, f.home, callOfF⟩))) :
    invoke engine recur f ⟨"f", []⟩ w = recur (.calls f callOfF.calls) w := by
  rw [invoke_definition hf, callDefinition]
  exact if_pos hlive

/-- Where `f` is bound to the block that calls `f`, the block runs until the limit of nesting. -/
theorem run_callOfF {stamp : Nat}
    (hf : (w.environment f.home).get? "f" =
      some (.function "f" (.definition ⟨stamp, f.home, callOfF⟩)))
    (room : Nat) (hroom : f.maxDepth = w.depth + room) :
    ∃ w', engine.run (room + 1) (.calls f callOfF.calls) w =
      .error (.stackOverflow f.maxDepth) w' := by
  induction room generalizing w with
  | zero =>
    have hfull : ¬w.depth < f.maxDepth := by omega
    exact ⟨w, by rw [run_succ, step, runCalls, if_neg hfull]⟩
  | succ room ih =>
    have hdepth : w.depth < f.maxDepth := by omega
    have hdeeper : f.maxDepth = (w.atDepth (w.depth + 1)).depth + room := by
      show f.maxDepth = w.depth + 1 + room
      omega
    obtain ⟨w', hw'⟩ := ih (w := w.atDepth (w.depth + 1)) hlive hf hdeeper
    have hcall := invoke_callOfF engine (w := w.atDepth (w.depth + 1)) hlive
      (engine.run (room + 1)) hf
    refine ⟨w'.atDepth (w'.depth - 1), ?_⟩
    rw [run_succ, step, runCalls, if_pos hdepth, callOfF, invokeAll, hcall, hw']
    rfl

/-- The calls of `selfCalling` fail for nesting where the names in them mean what they mean in a new
session. -/
theorem invokeAll_selfCalling
    (hdef : (w.environment f.home).get? "def" = some (.function "def" (.builtin .define)))
    (hf : ((w.defineBlock f.home "f" callOfF).environment f.home).get? "f" =
      some (.function "f" (.definition ⟨w.fresh, f.home, callOfF⟩)))
    (room : Nat) (hroom : f.maxDepth = w.depth + room) :
    ∃ w', invokeAll engine (engine.run (room + 1)) f .none
      [⟨"def", [.name "f", .block callOfF]⟩, ⟨"f", []⟩] w =
        .error (.stackOverflow f.maxDepth) w' := by
  have hlive' : (w.defineBlock f.home "f" callOfF).isLive f.home := by simpa using hlive
  have hdefine (recur : Job → World → Outcome Value) :
      invoke engine recur f ⟨"def", [.name "f", .block callOfF]⟩ w =
        .value .none (w.defineBlock f.home "f" callOfF) := by
    simp only [invoke, Environment.find, hdef, callWritten, Builtin.procedure, perform,
      Procedure.nothing]
  obtain ⟨w', hw'⟩ := run_callOfF engine hlive' hf room hroom
  refine ⟨w', ?_⟩
  rw [invokeAll, hdefine, Outcome.andThen_value, invokeAll, invoke_callOfF engine hlive' _ hf, hw',
    Outcome.andThen_error]

end SelfCalling

/-- Whatever its limit of nesting, a session fails for it on a definition that calls itself. -/
theorem run_selfCalling (toolkit : Toolkit) (sink : Sink) (n : Nat) :
    ((Session.new toolkit sink (n + 1)).run (n + 2) selfCalling).1 =
      .error (.runtime (.stackOverflow (n + 1))) := by
  obtain ⟨tree, hparse, hcalls⟩ := parse_selfCalling
  have hdepth : (Session.new toolkit sink (n + 1)).world.depth <
      (Session.new toolkit sink (n + 1)).frame.maxDepth := Nat.succ_pos n
  obtain ⟨w, hw⟩ := invokeAll_selfCalling (Session.new toolkit sink (n + 1)).engine
    (f := (Session.new toolkit sink (n + 1)).frame)
    (w := (Session.new toolkit sink (n + 1)).world.atDepth 1) rfl rfl rfl n (Nat.add_comm n 1)
  rw [run_of_parse _ hparse, hcalls, run_succ, step, runCalls, if_pos hdepth]
  exact congrArg (fun o => (conclude (settle _ (Outcome.afterwards o _))).1) hw

/-- At the limit of the parser, too, a program that fails for nesting has called a definition. -/
theorem definition_called_of_overflow_selfCalling : ∃ tree,
    Program.parse selfCalling = .ok tree ∧
    ((Session.new .stock .captured 1000).run 1001 selfCalling).1 =
      .error (.runtime (.stackOverflow 1000)) ∧
    ∃ frame? name d w o, (Session.new .stock .captured 1000).engine.CallsDefinition
      (.calls (Session.new .stock .captured 1000).frame (Block.ofTree tree).calls,
        (Session.new .stock .captured 1000).world) frame? name d w o ∧ w.isLive d.owner := by
  obtain ⟨tree, hparse, -⟩ := parse_selfCalling
  have hrun := run_selfCalling .stock .captured 999
  exact ⟨tree, hparse, hrun,
    (modest_new .captured 1000).definition_called_of_overflow rfl le_rfl hparse hrun⟩

end Session

end CallScript
