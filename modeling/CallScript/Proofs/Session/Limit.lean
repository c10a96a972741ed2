import CallScript.Proofs.Engine.Lockstep
import CallScript.Proofs.Engine.Stock
import CallScript.Proofs.Session.Termination

/-!
# The limit of nesting decides where a program is cut off

A plain session holds the built-in functions that work on the environment, definitions, data, and
functions of the host that have no effects.  Its programs evaluate no texts, so all that nests in
them is blocks, and every run ends.  A higher limit changes nothing but the failure for a lower one,
so there is one limit from which on a block has one outcome, and below which it fails for the limit
(`Session.Plain.exists_threshold`).
-/

namespace CallScript

open Engine

/-! ## Plain worlds -/

theorem Builtin.not_mem_bridge {b : Builtin} (h : b ∈ basic) : b ∉ bridge := by
  cases b <;> revert h <;> decide

/-- In a plain world code evaluates no texts, every frame has the limit of the first one, and a
failure for nesting is one for that limit. -/
def Discipline.plain (engine : Engine) (limit : Nat) {pures : String → Prop}
    (htoolkit : engine.toolkit.StaysPure (· ∈ Builtin.basic) pures) : Discipline engine where
  toAllowances := .steady {
    Allowance.holding (Callable.OfPureHost (· ∈ Builtin.basic) pures) with
    failure := fun e => ∀ other, e = .stackOverflow other → other = limit
    texts := False
    copies := False
    ordinary := fun e he other hother => absurd hother (he other) }
  named _ := True
  bare _ := False
  frame _ f := f.maxDepth = limit
  world w := w.All (Callable.OfPureHost (· ∈ Builtin.basic) pures)
  leads w w' := w'.depth = w.depth
  near w w' := w'.depth = w.depth
  leads_refl := World.depth_rfl
  leads_trans := World.depth_trans
  near_refl := World.depth_rfl
  near_trans := World.depth_trans
  stays hf _ := hf
  held hw home := hw.environment home
  vars h := h.elim
  varCalls h := h.elim
  reads h := h.elim
  print _ hw line := ⟨hw.print _ line, by simp⟩
  define _ hw hv name := ⟨hw.define hv _ name, rfl⟩
  defineBlock _ hw name _ := ⟨hw.defineBlock (.callable trivial) name, rfl⟩
  remove _ hw name := ⟨hw.remove _ name, rfl⟩
  copy h := h.elim
  release h := h.elim
  enter hf hw _ := ⟨hf, hw⟩
  exit _ _ _ hw' hl := ⟨hw', World.depth_leave hl⟩
  overflow hf other hother := by
    cases hother
    exact hf
  owner hf _ _ _ := hf
  alone h := h.elim
  back h := h.elim
  builtin hb hbridge := Builtin.not_mem_bridge (Value.All.callable_iff.1 hb) hbridge
  special h := (Value.All.callable_iff.1 h).elim
  contextual h := (Value.All.callable_iff.1 h).elim
  pure h hvs hv := htoolkit.value _ (Value.All.callable_iff.1 h) _ hvs _ hv
  pureFailure h _ e he other hother :=
    absurd hother (htoolkit.error _ (Value.All.callable_iff.1 h) _ e he other)

namespace Engine

variable {engine : Engine} {pures : String → Prop} {f : Frame} {w : World}
  (htoolkit : engine.toolkit.StaysPure (· ∈ Builtin.basic) pures)
  (hw : w.All (Callable.OfPureHost (· ∈ Builtin.basic) pures))

include htoolkit hw

/-- In a plain world every block has an outcome. -/
theorem result_plain_ne (calls : List Call) : engine.result (.calls f calls) w ≠ .outOfFuel := by
  -- A block without an outcome starts one that is nested deeper, so the induction is on how much
  -- deeper blocks may be nested.
  induction hn : f.maxDepth - w.depth using Nat.strongRecOn generalizing f w calls with
  | ind n ih =>
    intro hend
    let D := Discipline.plain engine f.maxDepth htoolkit
    have hjob : D.job (.calls f calls) w := rfl
    have hdepth : w.depth < f.maxDepth := by
      by_contra hdepth
      rw [← step_result] at hend
      simp [step, runCalls, hdepth] at hend
    obtain ⟨⟨job, w'⟩, hstarts, hend'⟩ : ∃ inner, engine.Starts (.calls f calls, w) inner ∧
        engine.result inner.1 inner.2 = .outOfFuel := exists_starts hjob hw hend
    obtain ⟨hjob', hw', hnear, hform⟩ := hstarts.asks D hjob hw
    have hdeeper : w'.depth = w.depth + 1 := hnear
    cases job with
    | calls f' calls' =>
      have hlimit : f'.maxDepth = f.maxDepth := hjob'
      exact ih (f'.maxDepth - w'.depth) (by omega) hw' calls' rfl hend'
    | expression s expr => exact (hform s expr rfl).1

/-- A plain block that fails for nesting fails for its own limit. -/
theorem eq_limit_of_result_plain {calls : List Call} {other : Nat} {w' : World}
    (h : engine.result (.calls f calls) w = .error (.stackOverflow other) w') :
    other = f.maxDepth := by
  let D := Discipline.plain engine f.maxDepth htoolkit
  have hjob : D.job (.calls f calls) w := rfl
  have hkeeps := keeps_result D hjob hw (by rw [h]; simp)
  rw [h] at hkeeps
  exact hkeeps.1 other rfl

end Engine

/-! ## Plain sessions -/

/-- An outcome that is a value or an error that is not about nesting. -/
def Outcome.IsOrdinary {α : Type} : Outcome α → Prop
  | .value _ _ => True
  | .error e _ => e.IsOrdinary
  | .outOfFuel => False

namespace Session

/-- A session that holds the built-in functions that work on the environment, definitions, data and
the functions `pures` of the host. -/
structure Plain (session : Session) (pures : String → Prop) : Prop where
  toolkit : session.toolkit.StaysPure (· ∈ Builtin.basic) pures
  world : session.world.All (Callable.OfPureHost (· ∈ Builtin.basic) pures)

/-- The session with another limit of nesting. -/
def withLimit (session : Session) (limit : Nat) : Session :=
  { session with maxDepth := limit }

/-- What a block of a session comes to under a limit of nesting. -/
noncomputable def resultAt (session : Session) (block : Block) (limit : Nat) : Outcome Value :=
  session.engine.result (.calls (session.withLimit limit).frame block.calls) session.world

theorem resultAt_agrees (session : Session) (block : Block) {limit higher : Nat}
    (h : limit ≤ higher) : Outcome.Agrees limit (session.resultAt block limit)
      (session.resultAt block higher) := by
  refine result_agrees (.calls ?_ _) _
  exact .inr ⟨rfl, higher, h, rfl⟩

/-- With enough fuel a block does what its result says. -/
theorem exists_execute_eq (session : Session) (block : Block) (limit : Nat) {o : Outcome Value}
    (h : session.resultAt block limit = o) (hne : o ≠ .outOfFuel) :
    ∃ fuel, ∀ more, fuel ≤ more → (session.withLimit limit).execute more block =
      conclude ((session.withLimit limit).settle o) := by
  obtain ⟨fuel, hf⟩ := exists_run_eq_result (h.trans_ne hne)
  refine ⟨fuel, fun more hm => ?_⟩
  have hrun : session.engine.run fuel
      (.calls (session.withLimit limit).frame block.calls) session.world = o := hf.trans h
  show conclude (Session.settle _ (session.engine.run more _ session.world)) = _
  rw [run_mono hm _ _ (hrun.trans_ne hne), hrun]

/-- An operation gives one answer with enough fuel. -/
theorem answer_unique {α : Type} {operation : Nat → α} {a b : α}
    (ha : ∃ fuel, ∀ more, fuel ≤ more → operation more = a)
    (hb : ∃ fuel, ∀ more, fuel ≤ more → operation more = b) : a = b := by
  obtain ⟨n, ha⟩ := ha
  obtain ⟨m, hb⟩ := hb
  rw [← ha _ (le_max_left n m), hb _ (le_max_right n m)]

namespace Plain

variable {session : Session} {pures : String → Prop}

theorem resultAt_ne (h : session.Plain pures) (block : Block) (limit : Nat) :
    session.resultAt block limit ≠ .outOfFuel :=
  result_plain_ne h.toolkit h.world block.calls

/-- A block that does not fail for its limit has an ordinary outcome. -/
theorem isOrdinary_resultAt (h : session.Plain pures) {block : Block} {limit : Nat}
    (hlimit : ¬∃ w, session.resultAt block limit = .error (.stackOverflow limit) w) :
    (session.resultAt block limit).IsOrdinary := by
  cases ho : session.resultAt block limit with
  | value v w => trivial
  | error e w =>
    rintro other rfl
    obtain rfl : other = limit := eq_limit_of_result_plain h.toolkit h.world ho
    exact hlimit ⟨w, ho⟩
  | outOfFuel => exact h.resultAt_ne block limit ho

/-- Every block ends under every limit, and there is one limit from which on it has one outcome and
below which it fails for the limit. -/
theorem exists_threshold (h : session.Plain pures) (block : Block) :
    (∀ limit, Ends fun fuel => (session.withLimit limit).execute fuel block) ∧
    ∃ (threshold : ℕ∞) (o : Outcome Value), o.IsOrdinary ∧
      (∀ limit : Nat, limit < threshold → FailsWith (.stackOverflow limit)
        fun fuel => (session.withLimit limit).execute fuel block) ∧
      ∀ limit : Nat, threshold ≤ limit → ∃ fuel, ∀ more, fuel ≤ more →
        (session.withLimit limit).execute more block =
          conclude ((session.withLimit limit).settle o) := by
  classical
  have hends (limit : Nat) : Ends fun fuel => (session.withLimit limit).execute fuel block :=
    (reports_conclude (session.withLimit limit)).ends_iff_result.2 (h.resultAt_ne block limit)
  have hfails (limit : Nat) (w : World)
      (hw : session.resultAt block limit = .error (.stackOverflow limit) w) :
      FailsWith (.stackOverflow limit) fun fuel => (session.withLimit limit).execute fuel block :=
    (reports_conclude (session.withLimit limit)).failsWith hw
  refine ⟨hends, ?_⟩
  by_cases hall : ∀ limit, ∃ w, session.resultAt block limit = .error (.stackOverflow limit) w
  · refine ⟨⊤, .value .none session.world, trivial, fun limit _ => ?_, fun limit hlimit => ?_⟩
    · obtain ⟨w, hw⟩ := hall limit
      exact hfails limit w hw
    · exact absurd (top_le_iff.1 hlimit) (ENat.natCast_ne_top limit)
  · have hsome := not_forall.1 hall
    refine ⟨Nat.find hsome, session.resultAt block (Nat.find hsome),
      h.isOrdinary_resultAt (Nat.find_spec hsome), fun limit hlimit => ?_, fun limit hlimit => ?_⟩
    · obtain ⟨w, hw⟩ := not_not.1 (Nat.find_min hsome (Nat.cast_lt.1 hlimit))
      exact hfails limit w hw
    · have hagrees := session.resultAt_agrees block (Nat.cast_le.1 hlimit)
      have hsame := hagrees.resolve_right (Nat.find_spec hsome)
      exact session.exists_execute_eq block limit hsame (hsame ▸ h.resultAt_ne block limit)

/-! ## A definition that redefines itself -/

/-- A session with the built-in functions that work on the environment, and `first` of the host. -/
def withFirst : Session :=
  { Session.new .stock .captured 0 with
    world := World.empty.allocate
      ⟨Builtin.bindings Builtin.basic ++ [("first", .callable (.host .pure 0 "first"))]⟩ }

theorem withFirst_plain : withFirst.Plain fun _ => True where
  toolkit := Toolkit.stock_staysPure _
  world := by
    have hempty : World.All (Callable.OfPureHost (· ∈ Builtin.basic) fun _ => True) .empty := nofun
    refine hempty.allocate fun entry hentry => ?_
    rcases List.mem_append.1 hentry with hentry | hentry
    · obtain ⟨b, hb, rfl⟩ := List.mem_map.1 hentry
      exact .callable hb
    · cases List.mem_singleton.1 hentry
      exact .callable trivial

/-- Binds `f` to a block that binds `f` to another block and calls it, and calls `f`. -/
def redefining : Block :=
  ⟨[⟨"def", [.name "f", .block ⟨[
      ⟨"def", [.name "f", .block ⟨[⟨"first", [.string "done"]⟩]⟩]⟩, ⟨"f", []⟩]⟩]⟩,
    ⟨"f", []⟩]⟩

theorem resultAt_redefining_two :
    ∃ w, withFirst.resultAt redefining 2 = .error (.stackOverflow 2) w := by
  refine ⟨?w, ?result⟩
  case result =>
    have hrun : withFirst.engine.run 4 (.calls (withFirst.withLimit 2).frame redefining.calls)
        withFirst.world = .error (.stackOverflow 2) ?w := by rfl
    exact (run_extends_result 4 _ _ (by rw [hrun]; simp)).trans hrun

theorem resultAt_redefining_three :
    ∃ w, withFirst.resultAt redefining 3 = .value (.string "done") w := by
  refine ⟨?w, ?result⟩
  case result =>
    have hrun : withFirst.engine.run 4 (.calls (withFirst.withLimit 3).frame redefining.calls)
        withFirst.world = .value (.string "done") ?w := by rfl
    exact (run_extends_result 4 _ _ (by rw [hrun]; simp)).trans hrun

/-- The definition that redefines itself needs three blocks inside one another. -/
theorem exists_threshold_redefining : withFirst.Plain (fun _ => True) ∧ ∀ limit,
    (limit < 3 → FailsWith (.stackOverflow limit)
      fun fuel => (withFirst.withLimit limit).execute fuel redefining) ∧
    (3 ≤ limit → ∃ fuel, ∀ more, fuel ≤ more →
      ((withFirst.withLimit limit).execute more redefining).1 = .ok (.string "done")) := by
  refine ⟨withFirst_plain, fun limit => ?_⟩
  obtain ⟨-, threshold, o, ho, hbelow, hfrom⟩ := withFirst_plain.exists_threshold redefining
  -- What the block does at the limits two and three settles the threshold and the outcome.
  have htwo : (2 : ℕ) < threshold := by
    by_contra hle
    obtain ⟨w, hw⟩ := resultAt_redefining_two
    have heq := answer_unique (hfrom 2 (not_lt.1 hle))
      (withFirst.exists_execute_eq redefining 2 hw (by simp))
    cases o with
    | value v w => simp [settle, conclude] at heq
    | error e w =>
      simp only [settle, conclude, Prod.mk.injEq, Except.error.injEq, Failure.runtime.injEq] at heq
      exact ho 2 heq.1
    | outOfFuel => exact ho
  obtain ⟨w, hw⟩ := resultAt_redefining_three
  have hdone := withFirst.exists_execute_eq redefining 3 hw (by simp)
  have hle : threshold ≤ (3 : ℕ) := by
    by_contra hlt
    have heq := answer_unique (hbelow 3 (not_le.1 hlt))
      (hdone.imp fun _ h more hm => congrArg Prod.fst (h more hm))
    simp [settle, conclude] at heq
  have heq := answer_unique (hfrom 3 hle) hdone
  refine ⟨fun hlimit => hbelow limit ?_, fun hlimit => ?_⟩
  · exact lt_of_le_of_lt (Nat.cast_le.2 (by omega)) htwo
  · obtain ⟨fuel, hsame⟩ := hfrom limit (hle.trans (Nat.cast_le.2 hlimit))
    refine ⟨fuel, fun more hm => ?_⟩
    rw [hsame more hm]
    cases o with
    | value v w => exact congrArg Prod.fst heq
    | error e w => simp [settle, conclude] at heq
    | outOfFuel => exact ho.elim

end Plain

end Session

end CallScript
