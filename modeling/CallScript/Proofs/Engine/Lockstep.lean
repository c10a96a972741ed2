import CallScript.Proofs.Engine.Result

/-!
# Runs at two limits of nesting

Two runs of one job that differ in their limit of nesting alone go step by step through the same
worlds, until the one with the lower limit comes to it.  So a higher limit changes nothing, or the
run with the lower one fails for being nested too deep (`Engine.result_agrees`).
-/

namespace CallScript

/-- The second outcome is the first, or the first is the failure for a limit of nesting. -/
def Outcome.Agrees {α : Type} (limit : Nat) (o o' : Outcome α) : Prop :=
  o' = o ∨ ∃ w, o = .error (.stackOverflow limit) w

namespace Outcome.Agrees

variable {α β : Type} {limit : Nat} {o o' : Outcome α}

theorem refl (o : Outcome α) : Agrees limit o o := .inl rfl

theorem andThen (h : Agrees limit o o') {f f' : α → World → Outcome β}
    (hf : ∀ a w, Agrees limit (f a w) (f' a w)) :
    Agrees limit (o.andThen f) (o'.andThen f') := by
  rcases h with rfl | ⟨w, rfl⟩
  · cases o' with
    | value a w => exact hf a w
    | error e w => exact refl _
    | outOfFuel => exact refl _
  · exact .inr ⟨w, rfl⟩

theorem afterwards (h : Agrees limit o o') (f : World → World) :
    Agrees limit (o.afterwards f) (o'.afterwards f) := by
  rcases h with rfl | ⟨w, rfl⟩
  · exact refl _
  · exact .inr ⟨f w, rfl⟩

end Outcome.Agrees

open Outcome (Agrees)

/-! ## Raised limits -/

/-- The same frame, or one that has the limit `limit` and the same frame with a higher one. -/
def Frame.Raised (limit : Nat) (f f' : Frame) : Prop :=
  f' = f ∨ f.maxDepth = limit ∧ ∃ higher, limit ≤ higher ∧ f' = { f with maxDepth := higher }

namespace Frame.Raised

variable {limit : Nat} {f f' : Frame}

theorem home (h : f.Raised limit f') : f'.home = f.home := by
  rcases h with rfl | ⟨-, higher, -, rfl⟩ <;> rfl

theorem sink (h : f.Raised limit f') : f'.sink = f.sink := by
  rcases h with rfl | ⟨-, higher, -, rfl⟩ <;> rfl

theorem moved (h : f.Raised limit f') (home : Nat) :
    Frame.Raised limit { f with home } { f' with home } := by
  rcases h with rfl | ⟨hlimit, higher, hle, rfl⟩
  · exact .inl rfl
  · exact .inr ⟨hlimit, higher, hle, rfl⟩

end Frame.Raised

/-- The same scope, but for the limit of its frame. -/
inductive Scope.Raised (limit : Nat) : Scope → Scope → Prop where
  | refl (s : Scope) : Raised limit s s
  | frame {f f' : Frame} (h : f.Raised limit f') : Raised limit (.frame f) (.frame f')

namespace Scope.Raised

variable {limit : Nat} {s s' : Scope}

theorem lookup (h : s.Raised limit s') (name : String) (w : World) :
    s'.lookup name w = s.lookup name w := by
  cases h with
  | refl => rfl
  | frame h => simp only [Scope.lookup, h.home]

theorem frame? (h : s.Raised limit s') : Option.Rel (Frame.Raised limit) s.frame? s'.frame? := by
  cases h with
  | refl =>
    cases s.frame? with
    | none => exact .none
    | some f => exact .some (.inl rfl)
  | frame h => exact .some h

end Scope.Raised

/-- The same job, but for the limit of its frame. -/
inductive Job.Raised (limit : Nat) : Job → Job → Prop where
  | calls {f f' : Frame} (h : f.Raised limit f') (calls : List Call) :
    Raised limit (.calls f calls) (.calls f' calls)
  | expression {s s' : Scope} (h : s.Raised limit s') (expr : Expr) :
    Raised limit (.expression s expr) (.expression s' expr)

namespace Engine

variable {engine : Engine} {limit : Nat} {recur recur' : Job → World → Outcome Value}

/-! ## Steps -/

/-- What runs the jobs of the run with the lower limit agrees with what runs those of the other. -/
def InStep (limit : Nat) (recur recur' : Job → World → Outcome Value) : Prop :=
  ∀ {job job'}, Job.Raised limit job job' → ∀ w, Agrees limit (recur job w) (recur' job' w)

section Steps

variable (hr : InStep limit recur recur') {f f' : Frame}
include hr

theorem load_agrees (hf : f.Raised limit f') (argument : Argument) (w : World) :
    Agrees limit (load recur f argument w) (load recur' f' argument w) := by
  cases argument with
  | number x => exact .refl _
  | string s => exact .refl _
  | name name =>
    simp only [load, hf.home]
    exact .refl _
  | call c => exact hr (.calls hf [c]) w
  | block b => exact hr (.calls hf b.calls) w

theorem loadFrom_agrees (hf : f.Raised limit f') (arguments : List Argument) :
    ∀ (loaded : List Value) (w : World), Agrees limit (loadFrom recur f loaded arguments w)
      (loadFrom recur' f' loaded arguments w) := by
  induction arguments with
  | nil => exact fun _ _ => .refl _
  | cons argument arguments ih =>
    exact fun loaded w => (load_agrees hr hf argument w).andThen fun v w => ih (v :: loaded) w

theorem evaluateText_agrees {s s' : Scope} (hs : s.Raised limit s') (source : String) (w : World) :
    Agrees limit (evaluateText recur s source w) (evaluateText recur' s' source w) := by
  unfold evaluateText
  split
  · exact hr (.expression hs _) w
  · exact .refl _

theorem perform_agrees (procedure : Procedure) : ∀ {f f' : Frame}, f.Raised limit f' →
    ∀ w, Agrees limit (perform engine recur f procedure w)
      (perform engine recur' f' procedure w) := by
  induction procedure with
  | done value => exact fun _ _ => .refl _
  | fail e => exact fun _ _ => .refl _
  | load argument next ih =>
    exact fun hf w => (load_agrees hr hf argument w).andThen fun v w => ih v hf w
  | print line next ih =>
    intro f f' hf w
    simp only [perform, hf.sink]
    exact ih hf _
  | inspect next ih =>
    intro f f' hf w
    simp only [perform, hf.home]
    exact ih _ _ hf w
  | define name value next ih =>
    intro f f' hf w
    simp only [perform, hf.home]
    exact ih hf _
  | defineBlock name body next ih =>
    intro f f' hf w
    simp only [perform, hf.home]
    exact ih hf _
  | remove name next ih =>
    intro f f' hf w
    simp only [perform, hf.home]
    exact ih hf _
  | evaluate source next ih =>
    exact fun hf w => (evaluateText_agrees hr (.frame hf) source w).andThen fun v w => ih v hf w
  | calculate source next ih =>
    exact fun hf w => (evaluateText_agrees hr (.refl _) source w).andThen fun v w => ih v hf w
  | inCopy body next ihbody ihnext =>
    intro f f' hf w
    simp only [perform, hf.home]
    exact ((ihbody (hf.moved w.fresh) _).afterwards _).andThen fun v w => ihnext v hf w

theorem callDefinition_agrees {frame? frame?' : Option Frame}
    (hf : Option.Rel (Frame.Raised limit) frame? frame?') (name : String) (d : Definition)
    (w : World) : Agrees limit (callDefinition recur frame? name d w)
      (callDefinition recur' frame?' name d w) := by
  unfold callDefinition
  split
  · cases hf with
    | none => exact (hr (.calls (.inl rfl) _) _).afterwards _
    | some hf => exact hr (.calls (hf.moved _) _) w
  · exact .refl _

theorem callWritten_agrees (hf : f.Raised limit f') (name : String) (c : Callable)
    (arguments : List Argument) (w : World) : Agrees limit
      (callWritten engine recur f name c arguments w)
      (callWritten engine recur' f' name c arguments w) := by
  unfold callWritten
  split
  · exact perform_agrees hr _ hf w
  · exact perform_agrees hr _ hf w
  · exact (loadFrom_agrees hr hf arguments [] w).andThen fun _ w => perform_agrees hr _ hf w
  · exact (loadFrom_agrees hr hf arguments [] w).andThen fun _ w => .refl _
  · split
    · exact callDefinition_agrees hr (.some hf) name _ w
    · exact .refl _

theorem performLiterals_agrees {frame? frame?' : Option Frame}
    (hf : Option.Rel (Frame.Raised limit) frame? frame?') (name : String) (values : List Value)
    (procedure : List Argument → Procedure) (w : World) : Agrees limit
      (performLiterals engine recur frame? name values procedure w)
      (performLiterals engine recur' frame?' name values procedure w) := by
  cases hf with
  | none => exact .refl _
  | some hf =>
    unfold performLiterals
    dsimp only
    split
    · exact perform_agrees hr _ hf w
    · exact .refl _

theorem callValues_agrees {frame? frame?' : Option Frame}
    (hf : Option.Rel (Frame.Raised limit) frame? frame?') (name : String) (c : Callable)
    (values : List Value) (w : World) : Agrees limit
      (callValues engine recur frame? name c values w)
      (callValues engine recur' frame?' name c values w) := by
  unfold callValues
  split
  · exact performLiterals_agrees hr hf name values _ w
  · exact performLiterals_agrees hr hf name values _ w
  · cases hf with
    | none => exact .refl _
    | some hf => exact perform_agrees hr _ hf w
  · exact .refl _
  · split
    · exact callDefinition_agrees hr hf name _ w
    · exact .refl _

theorem invoke_agrees (hf : f.Raised limit f') (call : Call) (w : World) :
    Agrees limit (invoke engine recur f call w) (invoke engine recur' f' call w) := by
  unfold invoke
  rw [hf.home]
  split
  · exact .refl _
  · exact callWritten_agrees hr hf _ _ _ w
  · exact .refl _

theorem invokeAll_agrees (hf : f.Raised limit f') (calls : List Call) :
    ∀ (last : Value) (w : World), Agrees limit (invokeAll engine recur f last calls w)
      (invokeAll engine recur' f' last calls w) := by
  induction calls with
  | nil => exact fun _ _ => .refl _
  | cons call calls ih => exact fun last w => (invoke_agrees hr hf call w).andThen fun v w => ih v w

/-- Where the lower limit allows a block, so does the higher one; where it does not, the run with
the lower one fails. -/
theorem runCalls_agrees (hf : f.Raised limit f') (calls : List Call) (w : World) :
    Agrees limit (runCalls engine recur f calls w) (runCalls engine recur' f' calls w) := by
  have hinner (inner : World) : Agrees limit (invokeAll engine recur f .none calls inner)
      (invokeAll engine recur' f' .none calls inner) :=
    invokeAll_agrees hr hf calls .none inner
  by_cases hdepth : w.depth < f.maxDepth
  · have hdepth' : w.depth < f'.maxDepth := by
      rcases hf with rfl | ⟨hlimit, higher, hle, rfl⟩
      · exact hdepth
      · show w.depth < higher
        omega
    rw [runCalls, runCalls, if_pos hdepth, if_pos hdepth']
    exact (hinner _).afterwards _
  · rcases hf with rfl | ⟨rfl, -⟩
    · rw [runCalls, runCalls, if_neg hdepth, if_neg hdepth]
      exact .refl _
    · rw [runCalls, if_neg hdepth]
      exact .inr ⟨w, rfl⟩

end Steps

mutual

theorem evaluate_agrees (hr : InStep limit recur recur') {s s' : Scope}
    (hs : s.Raised limit s') :
    ∀ (expr : Expr) (w : World),
      Agrees limit (evaluate engine recur s expr w) (evaluate engine recur' s' expr w)
  | .number x, w => by
    simp only [evaluate]
    exact .refl _
  | .name name, w => by
    simp only [evaluate, hs.lookup]
    exact .refl _
  | .binary op left right, w => by
    simp only [evaluate]
    refine (evaluate_agrees hr hs left w).andThen fun l w => ?_
    exact (evaluate_agrees hr hs right w).andThen fun r w => .refl _
  | .unary op operand, w => by
    simp only [evaluate]
    exact (evaluate_agrees hr hs operand w).andThen fun x w => .refl _
  | .call callee operands, w => by
    cases callee with
    | name name =>
      simp only [evaluate, hs.lookup]
      split
      · exact .refl _
      · split
        · exact .refl _
        · exact (evaluateAll_agrees hr hs operands w).andThen fun values w =>
            callValues_agrees hr hs.frame? _ _ values w
    | _ =>
      simp only [evaluate]
      exact .refl _
  | .subscript value index, w => by
    simp only [evaluate]
    refine (evaluate_agrees hr hs value w).andThen fun x w => ?_
    exact (evaluate_agrees hr hs index w).andThen fun i w => .refl _
  | .string .., w | .bool .., w | .none, w | .boolean .., w | .compare .., w
  | .conditional .., w | .lambda .., w | .member .., w | .slice .., w
  | .list .., w | .tuple .., w | .dict .., w | .set .., w
  | .comprehension .., w | .assign .., w => by
    simp only [evaluate]
    exact .refl _

theorem evaluateAll_agrees (hr : InStep limit recur recur') {s s' : Scope}
    (hs : s.Raised limit s') :
    ∀ (operands : List Operand) (w : World), Agrees limit (evaluateAll engine recur s operands w)
      (evaluateAll engine recur' s' operands w)
  | [], w => by
    simp only [evaluateAll]
    exact .refl _
  | .positional operand :: operands, w => by
    simp only [evaluateAll]
    refine (evaluate_agrees hr hs operand w).andThen fun v w => ?_
    exact (evaluateAll_agrees hr hs operands w).andThen fun vs w => .refl _
  | .keyword .. :: _, w | .starred .. :: _, w | .doubleStarred .. :: _, w => by
    simp only [evaluateAll]
    exact .refl _

end

theorem step_agrees (hr : InStep limit recur recur') {job job' : Job}
    (hj : job.Raised limit job') (w : World) :
    Agrees limit (engine.step recur job w) (engine.step recur' job' w) := by
  cases hj with
  | calls hf calls => exact runCalls_agrees hr hf calls w
  | expression hs expr => exact evaluate_agrees hr hs expr w

/-! ## Runs -/

theorem run_agrees (fuel : Nat) {job job' : Job} (hj : job.Raised limit job') (w : World) :
    Agrees limit (engine.run fuel job w) (engine.run fuel job' w) := by
  induction fuel generalizing job job' w with
  | zero => exact .refl _
  | succ fuel ih =>
    rw [run_succ, run_succ]
    exact step_agrees (fun hj w => ih hj w) hj w

/-- A higher limit changes nothing, unless the run with the lower one fails for it. -/
theorem result_agrees {job job' : Job} (hj : job.Raised limit job') (w : World) :
    Agrees limit (engine.result job w) (engine.result job' w) := by
  have hrun (fuel : Nat) : Agrees limit (engine.run fuel job w) (engine.run fuel job' w) :=
    run_agrees fuel hj w
  by_cases hend : engine.result job w = .outOfFuel
  · left
    rw [hend, result_eq_outOfFuel_iff]
    intro fuel
    have hout := result_eq_outOfFuel_iff.1 hend fuel
    rcases hrun fuel with h | ⟨w', h⟩
    · rw [h, hout]
    · rw [hout] at h
      cases h
  · obtain ⟨fuel, hf⟩ := exists_run_eq_result hend
    rw [← hf] at hend ⊢
    rcases hrun fuel with h | h
    · left
      rw [← h] at hend ⊢
      exact run_extends_result fuel job' w hend
    · exact .inr h

end Engine

end CallScript
