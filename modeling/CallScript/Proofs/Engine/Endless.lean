import CallScript.Proofs.Engine.Result
import CallScript.Proofs.Engine.World
import CallScript.Session

/-!
# Runs without an end

Blocks and definitions count their nesting, and a session bounds it.  Expressions do not: a text
that `ecl` evaluates may call `ecl` again, and no counter is between the two.  For sessions that
hold only the built-in functions, definitions and data, this is the one way in which a run fails to
end (`Session.GivenData.ends_iff`): it comes to a text whose evaluation starts the evaluation of a
text, which starts the evaluation of a text, and so on at one depth of nesting.  Everything else
that nests past the limit ends in the error that says so.
-/

namespace CallScript

open Engine

/-! ## Scripted worlds -/

/-- A callable that the host did not bring. -/
def Callable.Scripted : Callable → Prop
  | .host .. => False
  | _ => True

/-- No callable at all. -/
def Callable.None : Callable → Prop := fun _ => False

/-- Without functions of the host, and with data for variables, every frame has the limit of the
first one, and code leaves the depth of nesting as it was. -/
def Discipline.scripted (engine : Engine) (limit : Nat)
    (hvars : Bindings.All Callable.None engine.vars) : Discipline engine where
  toAllowances := .steady (.holding Callable.Scripted)
  named _ := True
  bare := Callable.None
  frame _ f := f.maxDepth = limit
  world w := w.All Callable.Scripted
  leads w w' := w'.depth = w.depth
  near w w' := w'.depth = w.depth
  leads_refl := World.depth_rfl
  leads_trans := World.depth_trans
  near_refl := World.depth_rfl
  near_trans := World.depth_trans
  stays hf _ := hf
  held hw home := hw.environment home
  vars _ _ entry hentry := (hvars entry hentry).imp fun _ h => False.elim h
  varCalls _ _ hv hc := (hvars.get? hv).of_function? hc
  reads _ _ := Expr.looksUp_of_forall (fun _ => trivial) _
  print _ hw line := ⟨hw.print _ line, by simp⟩
  define _ hw hv name := ⟨hw.define hv _ name, rfl⟩
  defineBlock _ hw name _ := ⟨hw.defineBlock (.callable trivial) name, rfl⟩
  remove _ hw name := ⟨hw.remove _ name, rfl⟩
  copy _ hf hw := ⟨hf, hw.allocate (hw.environment _), fun _ h => h⟩
  release _ _ _ hw' hl := ⟨hw'.release _, hl⟩
  enter hf hw _ := ⟨hf, hw⟩
  exit _ _ _ hw' hl := ⟨hw', World.depth_leave hl⟩
  overflow _ := trivial
  owner hf _ _ _ := hf
  alone h := False.elim h
  back h := False.elim h
  builtin _ _ := trivial
  special h _ := (Value.All.callable_iff.1 h).elim
  contextual h _ _ := (Value.All.callable_iff.1 h).elim
  pure h _ _ := (Value.All.callable_iff.1 h).elim
  pureFailure h _ := (Value.All.callable_iff.1 h).elim

/-! ## Expressions over data -/

namespace Engine

variable {engine : Engine}

/-- Where no name stands for a function, an expression runs nothing and changes nothing. -/
theorem evaluate_data {s : Scope}
    (hs : ∀ name w v, s.lookup name w = some v → v.function? name = none)
    (recur : Job → World → Outcome Value) (w : World) :
    ∀ expr : Expr, ∃ result, evaluate engine recur s expr w = .ofExcept result w
  | .name name => by
    cases h : s.lookup name w with
    | none => exact ⟨.error (.unknownVariable name), by simp [evaluate, h, Outcome.ofExcept]⟩
    | some v => exact ⟨.ok v, by simp [evaluate, h, Outcome.ofExcept]⟩
  | .number x => ⟨.ok (.number x), by simp [evaluate, Outcome.ofExcept]⟩
  | .binary op left right => by
    obtain ⟨l, hl⟩ := evaluate_data hs recur w left
    obtain ⟨r, hr⟩ := evaluate_data hs recur w right
    cases l with
    | error e => exact ⟨.error e, by simp [evaluate, hl, Outcome.ofExcept]⟩
    | ok l =>
      cases r with
      | error e => exact ⟨.error e, by simp [evaluate, hl, hr, Outcome.ofExcept]⟩
      | ok r => exact ⟨Value.binary op l r, by simp [evaluate, hl, hr, Outcome.ofExcept]⟩
  | .unary op operand => by
    obtain ⟨x, hx⟩ := evaluate_data hs recur w operand
    cases x with
    | error e => exact ⟨.error e, by simp [evaluate, hx, Outcome.ofExcept]⟩
    | ok x => exact ⟨Value.unary op x, by simp [evaluate, hx, Outcome.ofExcept]⟩
  | .call callee operands => by
    cases callee with
    | name name =>
      cases h : s.lookup name w with
      | none => exact ⟨.error (.unknownVariable name), by simp [evaluate, h, Outcome.ofExcept]⟩
      | some v =>
        exact ⟨.error (.notCallable name v.kind),
          by simp [evaluate, h, hs name w v h, Outcome.ofExcept]⟩
    | _ => exact ⟨.error (.unsafeExpression .computedCallee), by simp [evaluate, Outcome.ofExcept]⟩
  | .subscript value index => by
    obtain ⟨x, hx⟩ := evaluate_data hs recur w value
    obtain ⟨i, hi⟩ := evaluate_data hs recur w index
    cases x with
    | error e => exact ⟨.error e, by simp [evaluate, hx, Outcome.ofExcept]⟩
    | ok x =>
      cases i with
      | error e => exact ⟨.error e, by simp [evaluate, hx, hi, Outcome.ofExcept]⟩
      | ok i => exact ⟨Value.subscript x i, by simp [evaluate, hx, hi, Outcome.ofExcept]⟩
  | .string .. | .bool .. | .none | .boolean .. | .compare .. | .conditional .. | .lambda ..
  | .member .. | .slice .. | .list .. | .tuple .. | .dict .. | .set .. | .comprehension ..
  | .assign .. => ⟨.error (.unsafeExpression (.node (Expr.kind _))), by simp only [evaluate]; rfl⟩

/-- An expression over data has an end. -/
theorem result_data_ne (hvars : Bindings.All Callable.None engine.vars) (expr : Expr) (w : World) :
    engine.result (.expression (.bindings engine.vars) expr) w ≠ .outOfFuel := by
  have hs (name : String) (w : World) (v : Value)
      (hv : (Scope.bindings engine.vars).lookup name w = some v) : v.function? name = none := by
    cases hf : v.function? name with
    | none => rfl
    | some found => exact ((hvars.get? hv).of_function? hf).elim
  obtain ⟨r, hr⟩ := evaluate_data hs engine.result w expr
  rw [← step_result, step, hr]
  cases r <;> simp [Outcome.ofExcept]

end Engine

/-! ## Texts inside texts -/

/-- A job that runs calls. -/
def Job.IsCalls (job : Job) : Prop :=
  ∃ frame calls, job = .calls frame calls

/-- A job that evaluates a text over a running frame. -/
def Job.IsText (job : Job) : Prop :=
  ∃ frame expr text, readExpression text = .ok expr ∧ job = .expression (.frame frame) expr

/-- A text starts jobs at its own depth. -/
theorem Job.IsText.base {job : Job} (h : job.IsText) (w : World) : Discipline.base job w = w := by
  obtain ⟨frame, expr, text, -, rfl⟩ := h
  rfl

/-- Where every member has a related member after it, relations go on without end. -/
theorem exists_chain {α : Type} {p : α → Prop} {r : α → α → Prop}
    (next : ∀ a, p a → ∃ b, p b ∧ r a b) {a : α} (ha : p a) :
    ∃ chain : Nat → α, chain 0 = a ∧ ∀ i, r (chain i) (chain (i + 1)) := by
  let after (m : { a // p a }) : { a // p a } :=
    ⟨(next m.1 m.2).choose, (next m.1 m.2).choose_spec.1⟩
  let chain (i : Nat) : { a // p a } := i.rec ⟨a, ha⟩ fun _ m => after m
  exact ⟨fun i => (chain i).1, rfl, fun i => (next (chain i).1 (chain i).2).choose_spec.2⟩

namespace Engine

variable {engine : Engine}

/-- A text starts the evaluation of another text, at the same depth of nesting. -/
def NestsText (engine : Engine) (outer inner : Job × World) : Prop :=
  engine.Starts outer inner ∧ outer.1.IsText ∧ inner.1.IsText ∧ inner.2.depth = outer.2.depth

/-- A job comes to a text that starts a text, which starts a text, and so on without end. -/
def Endless (engine : Engine) (point : Job × World) : Prop :=
  ∃ texts : Nat → Job × World,
    engine.Comes point (texts 0) ∧ ∀ i, engine.NestsText (texts i) (texts (i + 1))

theorem Endless.of_comes {outer inner : Job × World} (hc : engine.Comes outer inner)
    (h : engine.Endless inner) : engine.Endless outer := by
  obtain ⟨texts, hstart, hnest⟩ := h
  exact ⟨texts, hc.trans hstart, hnest⟩

theorem Endless.result {point : Job × World} (h : engine.Endless point) :
    engine.result point.1 point.2 = .outOfFuel := by
  obtain ⟨texts, hstart, hnest⟩ := h
  exact hstart.endless (result_eq_outOfFuel_of_chain fun i => (hnest i).1)

/-- A job that keeps a discipline and has no end. -/
structure Stalled (D : Discipline engine) (point : Job × World) : Prop where
  job : D.job point.1 point.2
  world : D.world point.2
  result : engine.result point.1 point.2 = .outOfFuel

section Scripted

variable {limit : Nat} {hvars : Bindings.All Callable.None engine.vars} {point : Job × World}

/-- A job without an end starts one: calls, or a text. -/
theorem Stalled.next (h : Stalled (.scripted engine limit hvars) point) :
    ∃ inner : Job × World, engine.Starts point inner ∧
      Stalled (.scripted engine limit hvars) inner ∧
      inner.2.depth = (Discipline.base point.1 point.2).depth ∧
      (inner.1.IsCalls ∨ inner.1.IsText) := by
  obtain ⟨inner, hstarts, hresult⟩ := exists_starts h.job h.world h.result
  obtain ⟨hjob, hworld, hnear, hform⟩ := hstarts.asks _ h.job h.world
  refine ⟨inner, hstarts, ⟨hjob, hworld, hresult⟩, hnear, ?_⟩
  obtain ⟨job, world⟩ := inner
  cases job with
  | calls f calls => exact .inl ⟨f, calls, rfl⟩
  | expression s expr =>
    obtain ⟨-, ⟨f, rfl⟩ | rfl, text, htext⟩ := hform s expr rfl
    · exact .inr ⟨f, expr, text, htext, rfl⟩
    · exact absurd hresult (result_data_ne hvars expr world)

/-- Calls without an end are above the limit of nesting. -/
theorem Stalled.depth_lt {f : Frame} {calls : List Call} {w : World}
    (h : Stalled (.scripted engine limit hvars) (.calls f calls, w)) : w.depth < limit := by
  have hf : f.maxDepth = limit := h.job
  by_contra hdepth
  have hresult := h.result
  rw [← step_result] at hresult
  simp [step, runCalls, hf, hdepth] at hresult

/-- Calls without an end start calls or a text one level deeper; where there are no more calls,
texts start texts without end. -/
theorem Stalled.endless (hs : Stalled (.scripted engine limit hvars) point)
    (hform : point.1.IsCalls ∨ point.1.IsText) : engine.Endless point := by
  -- The depth of calls without an end stays below the limit and grows from calls to calls, so the
  -- induction is on the distance between the two.
  induction hn : limit - point.2.depth using Nat.strongRecOn generalizing point with
  | ind n ih =>
    by_cases hcalls : ∃ inner, engine.Comes point inner ∧
        Stalled (.scripted engine limit hvars) inner ∧ inner.2.depth = point.2.depth ∧
        inner.1.IsCalls
    · obtain ⟨⟨job, w⟩, hcomes, hinner, hdepth, f, calls, rfl⟩ := hcalls
      obtain ⟨deeper, hstarts, hdeeper, hdeep, hform'⟩ := hinner.next
      have hlt : w.depth < limit := hinner.depth_lt
      have hdeep' : deeper.2.depth = w.depth + 1 := hdeep
      refine .of_comes (hcomes.tail hstarts) (ih _ ?_ hdeeper hform' rfl)
      simp only at hdepth
      omega
    · let Here (inner : Job × World) : Prop := engine.Comes point inner ∧
        Stalled (.scripted engine limit hvars) inner ∧ inner.2.depth = point.2.depth
      have text {inner : Job × World} (hi : Here inner)
          (hf : inner.1.IsCalls ∨ inner.1.IsText) : inner.1.IsText :=
        hf.resolve_left fun hc => hcalls ⟨inner, hi.1, hi.2.1, hi.2.2, hc⟩
      have next (outer : Job × World) (ho : Here outer ∧ outer.1.IsText) :
          ∃ inner, (Here inner ∧ inner.1.IsText) ∧ engine.NestsText outer inner := by
        obtain ⟨⟨hcomes, hstalled, hdepth⟩, htext⟩ := ho
        obtain ⟨inner, hstarts, hinner, hd, hf⟩ := hstalled.next
        rw [htext.base] at hd
        have here : Here inner := ⟨hcomes.tail hstarts, hinner, hd.trans hdepth⟩
        exact ⟨inner, ⟨here, text here hf⟩, hstarts, htext, text here hf, hd⟩
      have here : Here point := ⟨.refl, hs, rfl⟩
      obtain ⟨texts, hzero, hnest⟩ := exists_chain next ⟨here, text here hform⟩
      exact ⟨texts, hzero ▸ .refl, hnest⟩

variable {job : Job} {world : World}

/-- In a scripted session, a job has no end exactly if it comes to texts inside texts without
end. -/
theorem result_eq_outOfFuel_iff_endless
    (hjob : (Discipline.scripted engine limit hvars).job job world)
    (hworld : world.All Callable.Scripted) (hform : job.IsCalls ∨ job.IsText) :
    engine.result job world = .outOfFuel ↔ engine.Endless (job, world) :=
  ⟨fun h => Stalled.endless ⟨hjob, hworld, h⟩ hform, Endless.result⟩

/-- In a scripted session, a job that comes to calls at the limit of nesting fails for that. -/
theorem result_of_comes_overflow (hjob : (Discipline.scripted engine limit hvars).job job world)
    (hworld : world.All Callable.Scripted) {f : Frame} {calls : List Call} {w : World}
    (hcomes : engine.Comes (job, world) (.calls f calls, w)) (hdepth : limit ≤ w.depth) :
    ∃ w', engine.result job world = .error (.stackOverflow limit) w' := by
  have hinner : f.maxDepth = limit := (hcomes.keeps hjob hworld).1
  refine hcomes.error (w := w) ?_
  rw [← step_result]
  simp [step, runCalls, hinner, Nat.not_lt.2 hdepth]

end Scripted

end Engine

end CallScript
