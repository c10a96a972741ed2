import CallScript.Proofs.Session.Sharing

/-!
# How the depth of nesting is counted

Code counts one more while it runs a block, and counts back whichever way the block ends
(`Engine.run_atDepth`).  Code that runs in a frame hands on what its session prints to and its
limit, at the depth it has come to; code without a frame starts sessions of its own, at depth zero
(`Engine.Starts.inSession`).  So the count of a session never passes its limit
(`Engine.Descends.depth_le`).
-/

namespace CallScript

/-- An outcome that leaves a world at a depth of nesting behind. -/
def Outcome.AtDepth {α : Type} (depth : Nat) : Outcome α → Prop
  | .value _ w => w.depth = depth
  | .error _ w => w.depth = depth
  | .outOfFuel => True

namespace Engine

/-- The jobs that code asks for at a depth of nesting: those in the session of its frame, at that
depth, or definitions in sessions of their own if it has none. -/
def InSession (frame? : Option Frame) (depth : Nat) (job : Job) (w : World) : Prop :=
  match frame? with
  | some f => w.depth = depth ∧
      ∀ g, job.frame? = some g → g.sink = f.sink ∧ g.maxDepth = f.maxDepth
  | none => w.depth = 0 ∧ ∃ owner calls, job = .calls (.standalone owner) calls

/-- Jobs count back whichever way they end. -/
def CountsBack (_ : Job) (w : World) : Outcome Value → Prop :=
  Outcome.AtDepth w.depth

/-- A computation that starts at a depth of nesting asks for jobs in its session and counts back. -/
def Counts {α : Type} (frame? : Option Frame) (depth : Nat)
    (F : (Job → World → Outcome Value) → Outcome α) : Prop :=
  Requests (InSession frame? depth) CountsBack (Outcome.AtDepth depth) F

namespace Counts

variable {α β : Type} {frame? : Option Frame} {depth : Nat} {w : World}
  {F : (Job → World → Outcome Value) → Outcome α}

theorem value (a : α) (hw : w.depth = depth) : Counts frame? depth fun _ => .value a w :=
  Requests.value a w hw

theorem error (e : RuntimeError) (hw : w.depth = depth) :
    Counts (α := α) frame? depth fun _ => .error e w :=
  Requests.error e w hw

theorem ofExcept (result : Except RuntimeError α) (hw : w.depth = depth) :
    Counts frame? depth fun _ => .ofExcept result w :=
  Requests.ofExcept result w (fun _ _ => hw) fun _ _ => hw

theorem recur {job : Job} (hjob : InSession frame? depth job w) (hw : w.depth = depth) :
    Counts frame? depth fun recur => recur job w := by
  subst hw
  exact Requests.recur hjob (fun _ _ h => h) fun _ _ h => h

theorem andThen {G : (Job → World → Outcome Value) → Outcome β}
    {next : β → World → (Job → World → Outcome Value) → Outcome α} (hG : Counts frame? depth G)
    (hnext : ∀ b w, w.depth = depth → Counts frame? depth (next b w)) :
    Counts frame? depth fun recur => (G recur).andThen fun b w => next b w recur :=
  Requests.andThen hG (fun b w h => hnext b w h) fun _ _ h => h

theorem afterwards (hF : Counts frame? depth F) {f : World → World}
    (hf : ∀ w, (f w).depth = w.depth) :
    Counts frame? depth fun recur => (F recur).afterwards f := by
  refine Requests.afterwards hF fun o ho => ?_
  cases o with
  | value a w => exact (hf w).trans ho
  | error e w => exact (hf w).trans ho
  | outOfFuel => trivial

end Counts

/-! ## Steps -/

variable {engine : Engine} {f : Frame} {depth : Nat} {w : World}

theorem load_counts (hw : w.depth = depth) (argument : Argument) :
    Counts (some f) depth fun recur => load recur f argument w := by
  have hcalls (calls : List Call) : InSession (some f) depth (.calls f calls) w := by
    refine ⟨hw, fun g hg => ?_⟩
    cases hg
    exact ⟨rfl, rfl⟩
  cases argument with
  | number x => exact .value _ hw
  | string s => exact .value _ hw
  | name name => exact .ofExcept _ hw
  | call c => exact .recur (hcalls [c]) hw
  | block b => exact .recur (hcalls b.calls) hw

theorem loadFrom_counts (arguments : List Argument) : ∀ (loaded : List Value) {w : World},
    w.depth = depth → Counts (some f) depth fun recur => loadFrom recur f loaded arguments w := by
  induction arguments with
  | nil => exact fun _ _ hw => .value _ hw
  | cons argument arguments ih =>
    exact fun loaded _ hw => (load_counts hw argument).andThen fun v _ hw => ih (v :: loaded) hw

theorem evaluateText_counts {s : Scope} (hw : w.depth = depth)
    (hs : s.frame? = some f ∨ s.frame? = none) (source : String) :
    Counts (some f) depth fun recur => evaluateText recur s source w := by
  unfold evaluateText
  split
  · refine .recur ⟨hw, fun g hg => ?_⟩ hw
    simp only [Job.frame?] at hg
    rcases hs with hs | hs
    · rw [hs] at hg
      cases hg
      exact ⟨rfl, rfl⟩
    · rw [hs] at hg
      cases hg
  · exact .error _ hw

theorem perform_counts (procedure : Procedure) : ∀ {f : Frame} {w : World}, w.depth = depth →
    Counts (some f) depth fun recur => perform engine recur f procedure w := by
  induction procedure with
  | done value => exact fun hw => .value _ hw
  | fail e => exact fun hw => .error _ hw
  | load argument next ih =>
    exact fun hw => (load_counts hw argument).andThen fun v _ hw => ih v hw
  | print line next ih => exact fun hw => ih (by simpa using hw)
  | inspect next ih => exact fun hw => ih _ _ hw
  | define name value next ih => exact fun hw => ih hw
  | defineBlock name body next ih => exact fun hw => ih hw
  | remove name next ih => exact fun hw => ih hw
  | evaluate source next ih =>
    exact fun hw => (evaluateText_counts hw (.inl rfl) source).andThen fun v _ hw => ih v hw
  | calculate source next ih =>
    exact fun hw => (evaluateText_counts hw (.inr rfl) source).andThen fun v _ hw => ih v hw
  | inCopy body next ihbody ihnext =>
    intro f w hw
    have hbody : Counts (some f) depth fun recur =>
        perform engine recur { f with home := w.fresh } body (w.allocate (w.environment f.home)) :=
      ihbody (f := { f with home := w.fresh }) hw
    have hback (w' : World) : (w'.release w.fresh).depth = w'.depth := rfl
    exact (hbody.afterwards hback).andThen fun v _ hw => ihnext v hw

theorem callDefinition_counts {frame? : Option Frame} (hw : w.depth = depth) (name : String)
    (d : Definition) : Counts frame? depth fun recur => callDefinition recur frame? name d w := by
  unfold callDefinition
  split
  · cases frame? with
    | some f =>
      refine .recur ⟨hw, fun g hg => ?_⟩ hw
      cases hg
      exact ⟨rfl, rfl⟩
    | none =>
      -- The definition runs from depth zero on; the depth before it is put back.
      have hbody : Requests (InSession none depth) CountsBack (Outcome.AtDepth 0) fun recur =>
          recur (.calls (.standalone d.owner) d.body.calls) (w.atDepth 0) :=
        Requests.recur ⟨rfl, d.owner, d.body.calls, rfl⟩ (fun _ _ h => h) fun _ _ h => h
      refine Requests.afterwards hbody fun o _ => ?_
      cases o with
      | value v w' => exact hw
      | error e w' => exact hw
      | outOfFuel => trivial
  · exact .error _ hw

theorem callWritten_counts (hw : w.depth = depth) (name : String) (c : Callable)
    (arguments : List Argument) :
    Counts (some f) depth fun recur => callWritten engine recur f name c arguments w := by
  unfold callWritten
  split
  · exact perform_counts _ hw
  · exact perform_counts _ hw
  · exact (loadFrom_counts arguments [] hw).andThen fun _ _ hw => perform_counts _ hw
  · exact (loadFrom_counts arguments [] hw).andThen fun _ _ hw => .ofExcept _ hw
  · split
    · exact callDefinition_counts hw name _
    · exact .error _ hw

theorem performLiterals_counts {frame? : Option Frame} (hw : w.depth = depth) (name : String)
    (values : List Value) (procedure : List Argument → Procedure) : Counts frame? depth
      fun recur => performLiterals engine recur frame? name values procedure w := by
  unfold performLiterals
  split
  · exact .error _ hw
  · split
    · exact perform_counts _ hw
    · exact .error _ hw

theorem callValues_counts {frame? : Option Frame} (hw : w.depth = depth) (name : String)
    (c : Callable) (values : List Value) :
    Counts frame? depth fun recur => callValues engine recur frame? name c values w := by
  unfold callValues
  split
  · exact performLiterals_counts hw name values _
  · exact performLiterals_counts hw name values _
  · split
    · exact .error _ hw
    · exact perform_counts _ hw
  · exact .ofExcept _ hw
  · split
    · exact callDefinition_counts hw name _
    · exact .error _ hw

theorem invoke_counts (hw : w.depth = depth) (call : Call) :
    Counts (some f) depth fun recur => invoke engine recur f call w := by
  unfold invoke
  split
  · exact .error _ hw
  · exact callWritten_counts hw _ _ _
  · exact .error _ hw

theorem invokeAll_counts (calls : List Call) : ∀ (last : Value) {w : World}, w.depth = depth →
    Counts (some f) depth fun recur => invokeAll engine recur f last calls w := by
  induction calls with
  | nil => exact fun _ _ hw => .value _ hw
  | cons call calls ih =>
    exact fun _ _ hw => (invoke_counts hw call).andThen fun v _ hw => ih v hw

/-- A block counts one more for what it runs, and counts back. -/
theorem runCalls_requests (calls : List Call) :
    Requests (InSession (some f) (w.depth + 1)) CountsBack (Outcome.AtDepth w.depth)
      fun recur => runCalls engine recur f calls w := by
  unfold runCalls
  split
  · have hcalls : Counts (some f) (w.depth + 1) fun recur =>
        invokeAll engine recur f .none calls (w.atDepth (w.depth + 1)) :=
      invokeAll_counts calls .none rfl
    refine Requests.afterwards hcalls fun o ho => ?_
    cases o with
    | value v w' => exact World.depth_leave ho
    | error e w' => exact World.depth_leave ho
    | outOfFuel => trivial
  · exact .error _ w rfl

mutual

theorem evaluate_counts {s : Scope} : ∀ (expr : Expr) {w : World}, w.depth = depth →
    Counts s.frame? depth fun recur => evaluate engine recur s expr w
  | .number x, w, hw => by
    simp only [evaluate]
    exact .value _ hw
  | .name name, w, hw => by
    simp only [evaluate]
    split
    · exact .value _ hw
    · exact .error _ hw
  | .binary op left right, w, hw => by
    simp only [evaluate]
    refine (evaluate_counts left hw).andThen fun l _ hw => ?_
    exact (evaluate_counts right hw).andThen fun r _ hw => .ofExcept _ hw
  | .unary op operand, w, hw => by
    simp only [evaluate]
    exact (evaluate_counts operand hw).andThen fun x _ hw => .ofExcept _ hw
  | .call callee operands, w, hw => by
    cases callee with
    | name name =>
      simp only [evaluate]
      split
      · exact .error _ hw
      · split
        · exact .error _ hw
        · exact (evaluateAll_counts operands hw).andThen fun values _ hw =>
            callValues_counts hw _ _ values
    | _ =>
      simp only [evaluate]
      exact .error _ hw
  | .subscript value index, w, hw => by
    simp only [evaluate]
    refine (evaluate_counts value hw).andThen fun x _ hw => ?_
    exact (evaluate_counts index hw).andThen fun i _ hw => .ofExcept _ hw
  | .string .., w, hw | .bool .., w, hw | .none, w, hw | .boolean .., w, hw | .compare .., w, hw
  | .conditional .., w, hw | .lambda .., w, hw | .member .., w, hw | .slice .., w, hw
  | .list .., w, hw | .tuple .., w, hw | .dict .., w, hw | .set .., w, hw
  | .comprehension .., w, hw | .assign .., w, hw => by
    simp only [evaluate]
    exact .error _ hw

theorem evaluateAll_counts {s : Scope} : ∀ (operands : List Operand) {w : World},
    w.depth = depth → Counts s.frame? depth fun recur => evaluateAll engine recur s operands w
  | [], w, hw => by
    simp only [evaluateAll]
    exact .value _ hw
  | .positional operand :: operands, w, hw => by
    simp only [evaluateAll]
    refine (evaluate_counts operand hw).andThen fun v _ hw => ?_
    exact (evaluateAll_counts operands hw).andThen fun vs _ hw => .value _ hw
  | .keyword .. :: _, w, hw | .starred .. :: _, w, hw | .doubleStarred .. :: _, w, hw => by
    simp only [evaluateAll]
    exact .error _ hw

end

/-- A step asks for jobs in its session, one level deeper if it runs a block, and counts back. -/
theorem step_counts (job : Job) (w : World) :
    Requests (InSession job.frame? (w.depth + job.blocks)) CountsBack (Outcome.AtDepth w.depth)
      fun recur => engine.step recur job w := by
  cases job with
  | calls f calls => exact runCalls_requests calls
  | expression s expr => exact evaluate_counts expr rfl

/-! ## Runs -/

/-- A run counts back to the depth it started at. -/
theorem run_atDepth (fuel : Nat) (job : Job) (w : World) :
    (engine.run fuel job w).AtDepth w.depth := by
  induction fuel generalizing job w with
  | zero => trivial
  | succ fuel ih =>
    rw [run_succ]
    by_cases hend : engine.step (engine.run fuel) job w = .outOfFuel
    · rw [hend]
      trivial
    · exact (step_counts job w).sound (fun job w _ _ => ih job w) hend

theorem result_atDepth (job : Job) (w : World) : (engine.result job w).AtDepth w.depth := by
  by_cases hend : engine.result job w = .outOfFuel
  · rw [hend]
    trivial
  · obtain ⟨fuel, hfuel⟩ := exists_run_eq_result hend
    rw [← hfuel]
    exact run_atDepth fuel job w

/-- What a job starts is in its session, or in a session of its own if the job has no frame. -/
theorem Starts.inSession {outer inner : Job × World} (h : engine.Starts outer inner) :
    InSession outer.1.frame? (outer.2.depth + outer.1.blocks) inner.1 inner.2 :=
  h.startedBy.asked (step_counts outer.1 outer.2) fun job w _ _ => result_atDepth job w

/-- A block that starts a job is not nested too deep. -/
theorem Starts.depth_lt {f : Frame} {calls : List Call} {w : World} {inner : Job × World}
    (h : engine.Starts (.calls f calls, w) inner) : w.depth < f.maxDepth := by
  by_contra hdepth
  have hrefused (recur : Job → World → Outcome Value) :
      engine.step recur (.calls f calls) w = .error (.stackOverflow f.maxDepth) w := by
    rw [step, runCalls, if_neg hdepth]
  exact not_startedBy_of_forall_eq (fun e w' => hrefused _) h.startedBy

/-- A job comes to another job of its session: every job on the way runs in a frame, which it hands
on. -/
inductive Descends (engine : Engine) (outer : Job × World) : Job × World → Prop where
  | refl : Descends engine outer outer
  | step {middle inner : Job × World} (h : Descends engine outer middle)
    (hframe : middle.1.frame?.isSome) (hs : engine.Starts middle inner) :
    Descends engine outer inner

/-- The count of a session never passes the limit of the frame it started with. -/
theorem Descends.depth_le {limit : Nat} {outer inner : Job × World}
    (h : engine.Descends outer inner) (hdepth : outer.2.depth ≤ limit)
    (hlimit : ∀ f, outer.1.frame? = some f → f.maxDepth = limit) :
    inner.2.depth ≤ limit ∧ ∀ f, inner.1.frame? = some f → f.maxDepth = limit := by
  induction h with
  | refl => exact ⟨hdepth, hlimit⟩
  | @step middle inner _ hframe hs ih =>
    obtain ⟨job, w⟩ := middle
    obtain ⟨hle, hsame⟩ := ih
    obtain ⟨f, hf⟩ := Option.isSome_iff_exists.1 hframe
    have hin := hs.inSession
    simp only [hf, InSession] at hin
    refine ⟨?_, fun g hg => (hin.2 g hg).2.trans (hsame f hf)⟩
    rw [hin.1]
    cases job with
    | calls g calls =>
      cases hf
      have hlt := hs.depth_lt
      rw [hsame f rfl] at hlt
      exact hlt
    | expression s expr => exact hle

end Engine

end CallScript
