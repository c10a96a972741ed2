import CallScript.Proofs.Engine.Discipline
import Mathlib.Logic.Relation
import Mathlib.Tactic.ByContra

/-!
# What runs come to

`Engine.result` is what a job comes to when fuel is no matter: its outcome with enough fuel, or
`Outcome.outOfFuel` if no fuel is enough.  It answers its own requests (`Engine.step_result`).

`Engine.Starts` relates a job to the jobs it starts, each in the world it is started in: those whose
failure would be its own.  A job without an end starts one without an end (`Engine.exists_starts`),
and jobs that start one another without end have none (`Engine.result_eq_outOfFuel_of_chain`).
-/

namespace CallScript

open Engine

theorem Value.hereditary_true : Value.Hereditary fun _ => True := by
  constructor <;> simp

/-- The allowance that forbids nothing. -/
def Allowance.free : Allowance :=
  .keeping Value.hereditary_true

theorem Procedure.holds_free (procedure : Procedure) : procedure.Holds .free := by
  induction procedure with
  | done value => exact .done trivial
  | fail e => exact .fail trivial
  | load _ _ ih => exact .load fun v _ => ih v
  | print _ _ ih => exact .print ih
  | inspect _ ih => exact .inspect fun env depth _ => ih env depth
  | define _ value _ ih => exact .define trivial ih
  | defineBlock _ _ _ ih => exact .defineBlock ih
  | remove _ _ ih => exact .remove ih
  | evaluate _ _ ih => exact .evaluate trivial fun v _ => ih v
  | calculate _ _ ih => exact .calculate trivial fun v _ => ih v
  | inCopy _ _ ihbody ihnext => exact .inCopy trivial ihbody fun v _ => ihnext v

/-- The discipline that forbids nothing. -/
def Discipline.free (engine : Engine) : Discipline engine where
  toAllowances := .steady .free
  named _ := True
  bare _ := True
  frame _ _ := True
  world _ := True
  leads _ _ := True
  near _ _ := True
  leads_refl _ := trivial
  leads_trans _ _ := trivial
  near_refl _ := trivial
  near_trans _ _ := trivial
  stays _ _ := trivial
  held _ _ _ _ := trivial
  vars _ _ _ _ := trivial
  varCalls _ _ _ _ := trivial
  reads _ _ := Expr.looksUp_of_forall (fun _ => trivial) _
  print _ _ _ := ⟨trivial, trivial⟩
  define _ _ _ _ := ⟨trivial, trivial⟩
  defineBlock _ _ _ _ := ⟨trivial, trivial⟩
  remove _ _ _ := ⟨trivial, trivial⟩
  copy _ _ _ := ⟨trivial, trivial, fun _ _ => trivial⟩
  release _ _ _ _ _ := ⟨trivial, trivial⟩
  enter _ _ _ := ⟨trivial, trivial⟩
  exit _ _ _ _ _ := ⟨trivial, trivial⟩
  overflow _ := trivial
  owner _ _ _ _ := trivial
  alone _ _ _ := ⟨trivial, trivial, fun _ _ => trivial⟩
  back _ _ _ _ _ := ⟨trivial, trivial⟩
  builtin _ _ := trivial
  special _ _ := Procedure.holds_free _
  contextual _ _ _ := Procedure.holds_free _
  pure _ _ _ := trivial
  pureFailure _ _ _ _ := trivial

namespace Discipline

variable {engine : Engine}

theorem free_job (job : Job) (w : World) : (free engine).job job w := by
  cases job with
  | calls f calls => trivial
  | expression s expr =>
    exact ⟨⟨fun _ _ => trivial, fun _ _ _ _ => trivial, fun _ _ _ _ _ _ _ _ _ => trivial⟩,
      expr.looksUp_of_forall fun _ => trivial⟩

theorem free_after (w w' : World) : (free engine).After w w' :=
  ⟨trivial, trivial, False.elim⟩

/-- Whatever runs the jobs a step starts keeps the discipline that forbids nothing. -/
theorem free_keeps (asks : Job → World → Prop) (recur : Job → World → Outcome Value) :
    Requests.Keeps asks (free engine).answers recur := by
  intro job world _ _
  cases h : recur job world with
  | value v w => exact ⟨trivial, free_after world w⟩
  | error e w => exact ⟨trivial, free_after world w⟩
  | outOfFuel => trivial

end Discipline

namespace Engine

variable {engine : Engine}

/-! ## Fuel -/

theorem step_mono {recur recur' : Job → World → Outcome Value} (hx : Requests.Extends recur recur')
    {job : Job} {world : World} (h : engine.step recur job world ≠ .outOfFuel) :
    engine.step recur' job world = engine.step recur job world :=
  (Discipline.step_requests (Discipline.free_job job _) trivial).mono
    (Discipline.free_keeps _ _) hx h

/-- More fuel keeps a finished outcome. -/
theorem run_mono {n m : Nat} (hnm : n ≤ m) : Requests.Extends (engine.run n) (engine.run m) := by
  induction n generalizing m with
  | zero =>
    intro job world h
    simp at h
  | succ n ih =>
    intro job world h
    obtain ⟨k, rfl⟩ : ∃ k, m = k + 1 := ⟨m - 1, by omega⟩
    rw [run_succ] at h
    rw [run_succ, run_succ, step_mono (ih (by omega)) h]

open Classical in
/-- What a job comes to with enough fuel, if any fuel is enough. -/
noncomputable def result (engine : Engine) (job : Job) (world : World) : Outcome Value :=
  if h : ∃ fuel, engine.run fuel job world ≠ .outOfFuel then engine.run h.choose job world
  else .outOfFuel

theorem result_eq_outOfFuel_iff {job : Job} {world : World} :
    engine.result job world = .outOfFuel ↔ ∀ fuel, engine.run fuel job world = .outOfFuel := by
  unfold result
  split
  · next h => exact ⟨fun he => absurd he h.choose_spec, fun hall => hall _⟩
  · next h => exact ⟨fun _ fuel => Classical.byContradiction fun hne => h ⟨fuel, hne⟩, fun _ => rfl⟩

theorem exists_run_eq_result {job : Job} {world : World}
    (h : engine.result job world ≠ .outOfFuel) :
    ∃ fuel, engine.run fuel job world = engine.result job world := by
  unfold result at h ⊢
  split
  · next hex => exact ⟨hex.choose, rfl⟩
  · next hex => exact absurd (dif_neg hex) h

/-- A finished outcome is the result. -/
theorem run_extends_result (fuel : Nat) : Requests.Extends (engine.run fuel) engine.result := by
  intro job world h
  have hne : engine.result job world ≠ .outOfFuel := fun he =>
    h (result_eq_outOfFuel_iff.1 he fuel)
  obtain ⟨fuel', hf⟩ := exists_run_eq_result hne
  rw [← hf] at hne ⊢
  rcases Nat.le_total fuel fuel' with hle | hle
  · exact run_mono hle job world h
  · exact (run_mono hle job world hne).symm

/-- Results answer the requests of the steps they are results of. -/
theorem step_result (job : Job) (world : World) :
    engine.step engine.result job world = engine.result job world := by
  by_cases h : engine.step engine.result job world = .outOfFuel
  · rw [h, eq_comm, result_eq_outOfFuel_iff]
    intro fuel
    cases fuel with
    | zero => rfl
    | succ fuel =>
      rw [run_succ]
      by_contra hne
      exact hne (step_mono (run_extends_result fuel) hne ▸ h)
  · obtain ⟨n, hn⟩ := (Discipline.step_requests (Discipline.free_job job _) trivial).compact
      (Discipline.free_keeps _ _) (fun n m hnm => run_mono hnm)
      (fun job world hne => exists_run_eq_result hne) h
    have hrun : engine.run (n + 1) job world = engine.step engine.result job world := by
      rw [run_succ]
      exact hn n (Nat.le_refl n)
    rw [← hrun]
    exact (run_extends_result (n + 1) job world (hrun ▸ h)).symm

/-- Runs keep every discipline. -/
theorem keeps_run (D : Discipline engine) {job : Job} {world : World} (hjob : D.job job world)
    (hworld : D.world world) (fuel : Nat) : D.answers job world (engine.run fuel job world) := by
  induction fuel generalizing job world with
  | zero => trivial
  | succ fuel ih =>
    rw [run_succ]
    by_cases h : engine.step (engine.run fuel) job world = .outOfFuel
    · rw [h]
      trivial
    · exact (D.step_requests hjob hworld).sound
        (fun job world hasks _ => ih hasks.1 hasks.2.1) h

/-- Results keep every discipline. -/
theorem keeps_result (D : Discipline engine) {job : Job} {world : World} (hjob : D.job job world)
    (hworld : D.world world) (h : engine.result job world ≠ .outOfFuel) :
    D.answers job world (engine.result job world) := by
  obtain ⟨fuel, hf⟩ := exists_run_eq_result h
  rw [← hf]
  exact keeps_run D hjob hworld fuel

/-! ## Jobs that start jobs -/

open Classical in
/-- Runs jobs to their results, only that `point` fails with `e`. -/
noncomputable def failing (engine : Engine) (point : Job × World) (e : RuntimeError) (w : World) :
    Job → World → Outcome Value :=
  fun job world => if (job, world) = point then .error e w else engine.result job world

/-- A job in a world starts another job in another world: if that one failed, it would fail with the
same error. -/
def Starts (engine : Engine) (outer inner : Job × World) : Prop :=
  ∀ e w, ∃ w', engine.step (engine.failing inner e w) outer.1 outer.2 = .error e w'

/-- A computation starts a job in a world: if that one failed, it would fail with the same error. -/
def StartedBy (engine : Engine) (F : (Job → World → Outcome Value) → Outcome Value)
    (inner : Job × World) : Prop :=
  ∀ e w, ∃ w', F (engine.failing inner e w) = .error e w'

theorem Starts.startedBy {outer inner : Job × World} (hs : engine.Starts outer inner) :
    engine.StartedBy (fun recur => engine.step recur outer.1 outer.2) inner := hs

/-- A computation that gives the same outcome whatever `inner` fails with has not started it. -/
theorem not_startedBy_of_forall_eq {F : (Job → World → Outcome Value) → Outcome Value}
    {inner : Job × World} {o : Outcome Value} (h : ∀ e w, F (engine.failing inner e w) = o) :
    ¬ engine.StartedBy F inner := by
  intro hs
  obtain ⟨w₁, h₁⟩ := hs .divisionByZero .empty
  obtain ⟨w₂, h₂⟩ := hs (.stackOverflow 0) .empty
  rw [h] at h₁ h₂
  simp [h₁] at h₂

theorem extends_failing {recur : Job → World → Outcome Value} {point : Job × World}
    (hx : Requests.Extends recur engine.result) (h : recur point.1 point.2 = .outOfFuel)
    (e : RuntimeError) (w : World) : Requests.Extends recur (engine.failing point e w) := by
  intro job world hne
  have hp : (job, world) ≠ point := by
    rintro rfl
    exact hne h
  simp only [failing, if_neg hp]
  exact hx job world hne

/-- A job that has no end starts one that has no end. -/
theorem exists_starts {D : Discipline engine} {outer : Job × World} (hjob : D.job outer.1 outer.2)
    (hworld : D.world outer.2) (h : engine.result outer.1 outer.2 = .outOfFuel) :
    ∃ inner : Job × World, engine.Starts outer inner ∧
      engine.result inner.1 inner.2 = .outOfFuel := by
  rw [← step_result] at h
  obtain ⟨job, world, -, hend, hfail⟩ := (D.step_requests hjob hworld).stuck
    (fun job world hasks hne => keeps_result D hasks.1 hasks.2.1 hne) h
  refine ⟨(job, world), fun e w => ?_, hend⟩
  exact hfail _ (extends_failing (fun _ _ _ => rfl) hend e w) e w (if_pos rfl)

/-- A computation starts only jobs that it asks for. -/
theorem StartedBy.asked {asks : Job → World → Prop} {answers : Job → World → Outcome Value → Prop}
    {ends : Outcome Value → Prop} {F : (Job → World → Outcome Value) → Outcome Value}
    {inner : Job × World} (hs : engine.StartedBy F inner) (hF : Requests asks answers ends F)
    (hk : Requests.Keeps asks answers engine.result) : asks inner.1 inner.2 := by
  by_contra hasks
  have same (e : RuntimeError) (w : World) : F (engine.failing inner e w) = F engine.result := by
    refine hF.congr hk fun job world ha => ?_
    have hp : (job, world) ≠ inner := by
      rintro rfl
      exact hasks ha
    exact if_neg hp
  exact not_startedBy_of_forall_eq same hs

/-- A discipline says what jobs a computation can start. -/
theorem StartedBy.asks {D : Discipline engine} {base : World} {ends : Outcome Value → Prop}
    {F : (Job → World → Outcome Value) → Outcome Value} {inner : Job × World}
    (hs : engine.StartedBy F inner) (hF : Requests (D.asks base) D.answers ends F) :
    D.asks base inner.1 inner.2 :=
  hs.asked hF fun _ _ ha hne => keeps_result D ha.1 ha.2.1 hne

/-- A discipline says what jobs a job can start. -/
theorem Starts.asks (D : Discipline engine) {outer inner : Job × World}
    (hs : engine.Starts outer inner) (hjob : D.job outer.1 outer.2) (hworld : D.world outer.2) :
    D.asks (Discipline.base outer.1 outer.2) inner.1 inner.2 :=
  hs.startedBy.asks (D.step_requests hjob hworld)

/-- A job that ends has started only jobs that end, with less fuel. -/
theorem Starts.run_ne {outer inner : Job × World} (hs : engine.Starts outer inner) {fuel : Nat}
    (h : engine.run (fuel + 1) outer.1 outer.2 ≠ .outOfFuel) :
    engine.run fuel inner.1 inner.2 ≠ .outOfFuel := by
  intro hend
  rw [run_succ] at h
  exact not_startedBy_of_forall_eq
    (fun e w => step_mono (extends_failing (run_extends_result fuel) hend e w) h) hs.startedBy

/-- The failure of a job is the failure of the job that started it. -/
theorem Starts.error {outer inner : Job × World} (hs : engine.Starts outer inner)
    {e : RuntimeError} {w : World} (h : engine.result inner.1 inner.2 = .error e w) :
    ∃ w', engine.result outer.1 outer.2 = .error e w' := by
  obtain ⟨w', hw'⟩ := hs e w
  have hsame : engine.failing inner e w = engine.result := by
    funext job world
    by_cases hp : (job, world) = inner
    · subst hp
      simpa [failing] using h.symm
    · exact if_neg hp
  exact ⟨w', by rw [← step_result, ← hsame, hw']⟩

/-- Jobs that start one another without end have no end. -/
theorem result_eq_outOfFuel_of_chain {chain : Nat → Job × World}
    (h : ∀ i, engine.Starts (chain i) (chain (i + 1))) :
    engine.result (chain 0).1 (chain 0).2 = .outOfFuel := by
  rw [result_eq_outOfFuel_iff]
  intro fuel
  suffices ∀ i, engine.run fuel (chain i).1 (chain i).2 = .outOfFuel from this 0
  induction fuel with
  | zero => intro i; rfl
  | succ fuel ih =>
    intro i
    by_contra hne
    exact (h i).run_ne hne (ih (i + 1))

/-- A job comes to another job if it starts it, or starts a job that comes to it. -/
def Comes (engine : Engine) : Job × World → Job × World → Prop :=
  Relation.ReflTransGen engine.Starts

/-- What a job comes to respects the disciplines that the job respects. -/
theorem Comes.keeps {D : Discipline engine} {outer inner : Job × World}
    (hc : engine.Comes outer inner) (hjob : D.job outer.1 outer.2) (hworld : D.world outer.2) :
    D.job inner.1 inner.2 ∧ D.world inner.2 := by
  induction hc with
  | refl => exact ⟨hjob, hworld⟩
  | tail _ hs ih =>
    obtain ⟨hj, hw, -⟩ := hs.asks D ih.1 ih.2
    exact ⟨hj, hw⟩

theorem Comes.error {outer inner : Job × World} (hc : engine.Comes outer inner)
    {e : RuntimeError} {w : World} (h : engine.result inner.1 inner.2 = .error e w) :
    ∃ w', engine.result outer.1 outer.2 = .error e w' := by
  induction hc using Relation.ReflTransGen.head_induction_on with
  | refl => exact ⟨w, h⟩
  | head hs _ ih =>
    obtain ⟨w', hw'⟩ := ih
    exact hs.error hw'

theorem Comes.endless {outer inner : Job × World} (hc : engine.Comes outer inner)
    (h : engine.result inner.1 inner.2 = .outOfFuel) :
    engine.result outer.1 outer.2 = .outOfFuel := by
  induction hc using Relation.ReflTransGen.head_induction_on with
  | refl => exact h
  | head hs _ ih =>
    by_contra hne
    obtain ⟨fuel, hf⟩ := exists_run_eq_result hne
    cases fuel with
    | zero => exact hne (hf ▸ rfl)
    | succ fuel => exact hs.run_ne (hf ▸ hne) (result_eq_outOfFuel_iff.1 ih fuel)

end Engine

end CallScript
