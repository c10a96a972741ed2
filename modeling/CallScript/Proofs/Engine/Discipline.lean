import CallScript.Proofs.Engine.Requests
import CallScript.Proofs.Engine.World
import CallScript.Proofs.Expression.Names
import CallScript.Proofs.Value.Failures

/-!
# What a run keeps

A `Discipline` is a promise about runs that every primitive operation keeps: which values code may
handle, which errors it may fail with, which frames it may run in, which worlds it may see, and
which worlds may come after which.  Numbers are given out and never taken back, so the values that
code may handle can depend on the next number: what was allowed stays allowed.
`Discipline.step_requests` says once for all disciplines what a step of the engine can do: it asks
only for jobs that respect the discipline, and it respects it itself.
-/

namespace CallScript

/-- What code may handle, what it may fail with, and what it may ask for. -/
structure Allowance where
  /-- The values that code may handle. -/
  value : Value → Prop
  /-- The errors that code may fail with. -/
  failure : RuntimeError → Prop
  /-- Whether code may evaluate texts. -/
  texts : Prop
  /-- Whether code may run in a copy of its environment. -/
  copies : Prop
  hereditary : Value.Hereditary value
  /-- Errors that are not about nesting are always allowed. -/
  ordinary : ∀ e, e.IsOrdinary → failure e

/-- Code handles only values that satisfy `P`, and all else is allowed. -/
def Allowance.keeping {P : Value → Prop} (hP : Value.Hereditary P) : Allowance where
  value := P
  failure _ := True
  texts := True
  copies := True
  hereditary := hP
  ordinary _ _ := trivial

/-- Code handles only values in which every callable satisfies `p`, and all else is allowed. -/
def Allowance.holding (p : Callable → Prop) : Allowance :=
  .keeping (Value.All.hereditary p)

/-- A procedure keeps to what is allowed, if it is given only values that are. -/
inductive Procedure.Holds (a : Allowance) : Procedure → Prop where
  | done {value : Value} (hv : a.value value) : Holds a (.done value)
  | fail {e : RuntimeError} (he : a.failure e) : Holds a (.fail e)
  | load {argument : Argument} {next : Value → Procedure}
    (hnext : ∀ v, a.value v → Holds a (next v)) : Holds a (.load argument next)
  | print {line : String} {next : Procedure} (hnext : Holds a next) : Holds a (.print line next)
  | inspect {next : Environment → Nat → Procedure}
    (hnext : ∀ env depth, Bindings.Each a.value env.bindings → Holds a (next env depth)) :
    Holds a (.inspect next)
  | define {name : String} {value : Value} {next : Procedure} (hv : a.value value)
    (hnext : Holds a next) : Holds a (.define name value next)
  | defineBlock {name : String} {body : Block} {next : Procedure} (hnext : Holds a next) :
    Holds a (.defineBlock name body next)
  | remove {name : String} {next : Procedure} (hnext : Holds a next) :
    Holds a (.remove name next)
  | evaluate {source : String} {next : Value → Procedure} (ht : a.texts)
    (hnext : ∀ v, a.value v → Holds a (next v)) : Holds a (.evaluate source next)
  | calculate {source : String} {next : Value → Procedure} (ht : a.texts)
    (hnext : ∀ v, a.value v → Holds a (next v)) : Holds a (.calculate source next)
  | inCopy {body : Procedure} {next : Value → Procedure} (hc : a.copies) (hbody : Holds a body)
    (hnext : ∀ v, a.value v → Holds a (next v)) : Holds a (.inCopy body next)

namespace Procedure.Holds

variable {a : Allowance}

theorem nothing : Holds a .nothing := .done a.hereditary.none

theorem refuse {e : RuntimeError} (he : e.IsOrdinary) : Holds a (.fail e) :=
  .fail (a.ordinary e he)

theorem loadFrom {next : List Value → Procedure}
    (hnext : ∀ vs, (∀ v ∈ vs, a.value v) → Holds a (next vs)) (arguments : List Argument) :
    ∀ loaded : List Value, (∀ v ∈ loaded, a.value v) →
      Holds a (Procedure.loadFrom loaded next arguments) := by
  induction arguments with
  | nil =>
    intro loaded hl
    exact hnext _ fun v hv => hl v (List.mem_reverse.1 hv)
  | cons argument arguments ih =>
    intro loaded hl
    refine .load fun v hv => ih _ fun w hw => ?_
    rcases List.mem_cons.1 hw with rfl | hw
    · exact hv
    · exact hl w hw

theorem loadAll {next : List Value → Procedure}
    (hnext : ∀ vs, (∀ v ∈ vs, a.value v) → Holds a (next vs)) (arguments : List Argument) :
    Holds a (Procedure.loadAll arguments next) :=
  loadFrom hnext arguments [] (by simp)

theorem wrongCount (b : Builtin) (arity : Arity) (arguments : List Argument) :
    Holds a (b.wrongCount arity arguments) := refuse nofun

theorem withExpression (b : Builtin) (arguments : List Argument)
    {request : String → (Value → Procedure) → Procedure} {next : Value → Procedure}
    (hrequest : ∀ source, Holds a (request source next))
    (hnext : ∀ v, a.value v → Holds a (next v)) :
    Holds a (b.withExpression arguments request next) := by
  unfold Builtin.withExpression
  split
  · exact hrequest _
  · exact hnext _ a.hereditary.none
  · exact wrongCount b _ _

/-- A built-in function handles what it is given and brings no callable of its own. -/
theorem builtin (b : Builtin) (ht : b ∈ Builtin.bridge → a.texts) (arguments : List Argument) :
    Holds a (b.procedure arguments) := by
  cases b with
  | out => exact loadAll (fun _ _ => .print nothing) arguments
  | set =>
    simp only [Builtin.procedure]
    split
    · exact .load fun v hv => .define hv nothing
    · exact refuse nofun
    · exact wrongCount _ _ _
  | ret =>
    simp only [Builtin.procedure]
    split
    · exact wrongCount _ _ _
    · exact .load fun v hv => .done hv
    · exact loadAll (fun vs hvs => .done (a.hereditary.list hvs)) arguments
  | define =>
    simp only [Builtin.procedure]
    split
    · exact .defineBlock nothing
    · exact refuse nofun
    · exact refuse nofun
    · exact wrongCount _ _ _
  | names =>
    simp only [Builtin.procedure]
    split
    · exact .inspect fun _ _ _ => .print nothing
    · exact wrongCount _ _ _
  | dump =>
    simp only [Builtin.procedure]
    split
    · exact .inspect fun _ _ _ => .print nothing
    · exact wrongCount _ _ _
  | calculate =>
    have ht := ht (by decide)
    exact withExpression _ _ (fun _ => .calculate ht fun v hv => .done hv) fun v hv => .done hv
  | calculateOut =>
    have ht := ht (by decide)
    exact withExpression _ _ (fun _ => .calculate ht fun _ _ => .print nothing)
      fun _ _ => .print nothing
  | evaluate =>
    have ht := ht (by decide)
    exact withExpression _ _ (fun _ => .evaluate ht fun v hv => .done hv) fun v hv => .done hv

end Procedure.Holds

/-! ## Errors of what a step reads -/

theorem Environment.find_failsOnly (env : Environment) (name : String) :
    FailsOnly RuntimeError.IsOrdinary (env.find name) := by
  unfold find
  split
  · exact .ok _
  · refine .error ?_
    rintro limit ⟨⟩

theorem Environment.get?_of_find_eq_ok {env : Environment} {name : String} {v : Value}
    (h : env.find name = .ok v) : env.get? name = some v := by
  unfold find at h
  split at h
  · next found hfound => rw [hfound, Except.ok.inj h]
  · simp at h

theorem readExpression_failsOnly (source : String) :
    FailsOnly RuntimeError.IsOrdinary (readExpression source) := by
  unfold readExpression
  split
  · refine .error ?_
    rintro limit ⟨⟩
  · next expr _ =>
    split
    · exact .ok _
    · next e he =>
      obtain ⟨what, rfl⟩ := expr.check_failsOnly e he
      refine .error ?_
      rintro limit ⟨⟩

theorem literalArguments_failsOnly (function : String) (values : List Value) :
    FailsOnly RuntimeError.IsOrdinary (values.mapM (literalArgument function)) := by
  induction values with
  | nil => exact .ok _
  | cons value values ih =>
    rw [List.mapM_cons]
    refine FailsOnly.bind ?_ fun argument => ih.bind fun arguments => .ok _
    unfold literalArgument
    split
    · exact .ok _
    · exact .ok _
    · exact .error nofun

/-! ## Functions of a name -/

theorem Value.Hereditary.callable_of_function? {P : Value → Prop} (hP : Hereditary P)
    {name own : String} {v : Value} {c : Callable} (hv : P v)
    (h : v.function? name = some (own, c)) : P (.callable c) := by
  unfold Value.function? at h
  split at h
  · cases h
    exact hP.function.1 hv
  · cases h
    exact hv
  · cases h

theorem Value.All.of_function? {p : Callable → Prop} {name own : String} {v : Value} {c : Callable}
    (hv : v.All p) (h : v.function? name = some (own, c)) : p c :=
  callable_iff.1 ((hereditary p).callable_of_function? hv h)

/-! ## Disciplines -/

/-- What code is allowed as numbers are given out. -/
structure Allowances where
  /-- The values that code may handle when `n` is the next number. -/
  value : Nat → Value → Prop
  failure : RuntimeError → Prop
  texts : Prop
  copies : Prop
  hereditary : ∀ n, Value.Hereditary (value n)
  ordinary : ∀ e, e.IsOrdinary → failure e
  /-- Whether it matters what the next number is. -/
  counted : Prop
  /-- What was allowed stays allowed. -/
  grows : ∀ {n m v}, (counted → n ≤ m) → value n v → value m v

namespace Allowances

/-- The next number may become `m` where it was `n`: numbers that were given out are not given out
again, if that matters. -/
def later (a : Allowances) (n m : Nat) : Prop :=
  a.counted → n ≤ m

theorem later.refl {a : Allowances} (n : Nat) : a.later n n :=
  fun _ => Nat.le_refl n

theorem later.trans {a : Allowances} {k n m : Nat} (h : a.later k n) (h' : a.later n m) :
    a.later k m :=
  fun hc => (h hc).trans (h' hc)

theorem later.of_le {a : Allowances} {n m : Nat} (h : n ≤ m) : a.later n m :=
  fun _ => h

/-- What code is allowed when `n` is the next number. -/
def upTo (a : Allowances) (n : Nat) : Allowance :=
  ⟨a.value n, a.failure, a.texts, a.copies, a.hereditary n, a.ordinary⟩

/-- The same allowance whatever the next number is. -/
def steady (a : Allowance) : Allowances where
  value _ := a.value
  failure := a.failure
  texts := a.texts
  copies := a.copies
  hereditary _ := a.hereditary
  ordinary := a.ordinary
  counted := False
  grows _ h := h

end Allowances

/-- A promise about runs that every primitive operation keeps. -/
structure Discipline (engine : Engine) extends Allowances where
  /-- The names that expressions may look up. -/
  named : String → Prop
  /-- The callables that may be called where no frame is running. -/
  bare : Callable → Prop
  /-- The frames that code may run in, in a world. -/
  frame : World → Frame → Prop
  /-- The worlds that code may see. -/
  world : World → Prop
  /-- The worlds that may come after a world, at the same depth of nesting. -/
  leads : World → World → Prop
  /-- The worlds in which code that started in a world may ask for jobs. -/
  near : World → World → Prop
  leads_refl : ∀ w, leads w w
  leads_trans : ∀ {w₁ w₂ w₃}, leads w₁ w₂ → leads w₂ w₃ → leads w₁ w₃
  near_refl : ∀ w, near w w
  near_trans : ∀ {w₁ w₂ w₃}, leads w₁ w₂ → near w₂ w₃ → near w₁ w₃
  stays : ∀ {f w w'}, frame w f → leads w w' → frame w' f
  held : ∀ {w}, world w → ∀ home, Bindings.Each (value w.fresh) (w.environment home).bindings
  vars : ∀ {w}, texts → world w → Bindings.Each (value w.fresh) engine.vars
  /-- A variable that is a function may be called where no frame is running. -/
  varCalls : ∀ {name own v c}, texts → named name → Entries.get? name engine.vars = some v →
    v.function? name = some (own, c) → bare c
  reads : ∀ {source expr}, texts → readExpression source = .ok expr → expr.LooksUp named
  print : ∀ {f w}, frame w f → world w → ∀ line,
    world (w.print f.sink line) ∧ leads w (w.print f.sink line)
  define : ∀ {f w v}, frame w f → world w → value w.fresh v → ∀ name,
    world (w.define f.home name v) ∧ leads w (w.define f.home name v)
  defineBlock : ∀ {f w}, frame w f → world w → ∀ name body,
    world (w.defineBlock f.home name body) ∧ leads w (w.defineBlock f.home name body)
  remove : ∀ {f w}, frame w f → world w → ∀ name,
    world (w.remove f.home name) ∧ leads w (w.remove f.home name)
  copy : ∀ {f w}, copies → frame w f → world w →
    frame (w.allocate (w.environment f.home)) { f with home := w.fresh } ∧
      world (w.allocate (w.environment f.home)) ∧
      ∀ w', near (w.allocate (w.environment f.home)) w' → near w w'
  release : ∀ {f w w'}, copies → frame w f → world w → world w' →
    leads (w.allocate (w.environment f.home)) w' →
    world (w'.release w.fresh) ∧ leads w (w'.release w.fresh)
  enter : ∀ {f w}, frame w f → world w → w.depth < f.maxDepth →
    frame (w.atDepth (w.depth + 1)) f ∧ world (w.atDepth (w.depth + 1))
  exit : ∀ {f w w'}, frame w f → world w → w.depth < f.maxDepth → world w' →
    leads (w.atDepth (w.depth + 1)) w' →
    world (w'.atDepth (w'.depth - 1)) ∧ leads w (w'.atDepth (w'.depth - 1))
  overflow : ∀ {f w}, frame w f → failure (.stackOverflow f.maxDepth)
  owner : ∀ {f w d}, frame w f → world w → value w.fresh (.callable (.definition d)) →
    w.isLive d.owner → frame w { f with home := d.owner }
  alone : ∀ {d w}, bare (.definition d) → world w → w.isLive d.owner →
    frame (w.atDepth 0) (.standalone d.owner) ∧ world (w.atDepth 0) ∧
      ∀ w', near (w.atDepth 0) w' → near w w'
  back : ∀ {d w w'}, bare (.definition d) → world w → w.isLive d.owner → world w' →
    leads (w.atDepth 0) w' → world (w'.atDepth w.depth) ∧ leads w (w'.atDepth w.depth)
  builtin : ∀ {n b}, value n (.callable (.builtin b)) → b ∈ Builtin.bridge → texts
  special : ∀ {n stamp name}, value n (.callable (.host .special stamp name)) →
    ∀ arguments, (engine.toolkit.special name arguments).Holds (toAllowances.upTo n)
  contextual : ∀ {n stamp name}, value n (.callable (.host .contextual stamp name)) →
    ∀ values, (∀ v ∈ values, value n v) →
      (engine.toolkit.contextual name values).Holds (toAllowances.upTo n)
  pure : ∀ {n stamp name values v}, value n (.callable (.host .pure stamp name)) →
    (∀ v ∈ values, value n v) → engine.toolkit.pure name values = .ok v → value n v
  pureFailure : ∀ {n stamp name values}, value n (.callable (.host .pure stamp name)) →
    (∀ v ∈ values, value n v) → FailsOnly failure (engine.toolkit.pure name values)

namespace Discipline

open Engine

variable {engine : Engine} (D : Discipline engine)

/-- A world that code which started in `base` may leave behind. -/
structure After (base w : World) : Prop where
  world : D.world w
  leads : D.leads base w
  fresh : D.later base.fresh w.fresh

/-- The frame that code runs in, if there is one, is one that it may run in. -/
def frames (frame? : Option Frame) (w : World) : Prop :=
  ∀ f, frame? = some f → D.frame w f

/-- The scopes that respect a discipline: what a name stands for may be handled, and called with the
frame that the scope has. -/
structure scope (s : Scope) (w : World) : Prop where
  frames : D.frames s.frame? w
  value : ∀ {w}, D.world w → ∀ {name v}, s.lookup name w = some v → D.value w.fresh v
  bare : ∀ {w}, D.world w → ∀ {name v own c}, s.lookup name w = some v → s.frame? = none →
    D.named name → v.function? name = some (own, c) → D.bare c

/-- The jobs that respect a discipline in a world. -/
def job : Job → World → Prop
  | .calls f _, w => D.frame w f
  | .expression s expr, w => D.scope s w ∧ expr.LooksUp D.named

/-- The jobs that code asks for: calls, or the expression that a text stands for, over the running
frame or over the calculator's variables. -/
def asks (base : World) (job : Job) (world : World) : Prop :=
  D.job job world ∧ D.world world ∧ D.near base world ∧
    ∀ s expr, job = .expression s expr → D.texts ∧
      ((∃ f, s = .frame f) ∨ s = .bindings engine.vars) ∧ ∃ text, readExpression text = .ok expr

/-- What is left behind when code that started in `base` ends. -/
def ends {α : Type} (ok : Nat → α → Prop) (base : World) : Outcome α → Prop
  | .value a w => ok w.fresh a ∧ D.After base w
  | .error e w => D.failure e ∧ D.After base w
  | .outOfFuel => True

/-- How the jobs that code asks for end. -/
def answers (_ : Job) (world : World) : Outcome Value → Prop :=
  D.ends D.value world

/-- Values that may be handled. -/
def values (n : Nat) (vs : List Value) : Prop :=
  ∀ v ∈ vs, D.value n v

/-- A computation that starts in `base` respects a discipline. -/
def Follows {α : Type} (base : World) (ok : Nat → α → Prop)
    (F : (Job → World → Outcome Value) → Outcome α) : Prop :=
  Requests (D.asks base) D.answers (D.ends ok base) F

variable {D}

/-! ## Worlds that come after -/

namespace After

variable {w w₁ w₂ : World}

theorem refl (hw : D.world w) : D.After w w :=
  ⟨hw, D.leads_refl w, .refl _⟩

theorem trans (h₁ : D.After w w₁) (h₂ : D.After w₁ w₂) : D.After w w₂ :=
  ⟨h₂.world, D.leads_trans h₁.leads h₂.leads, h₁.fresh.trans h₂.fresh⟩

theorem step (h : D.world w₁ ∧ D.leads w w₁) (hfresh : w.fresh ≤ w₁.fresh) : D.After w w₁ :=
  ⟨h.1, h.2, .of_le hfresh⟩

theorem frame {f : Frame} (h : D.After w w₁) (hf : D.frame w f) : D.frame w₁ f :=
  D.stays hf h.leads

theorem values {vs : List Value} (h : D.After w w₁) (hvs : D.values w.fresh vs) :
    D.values w₁.fresh vs :=
  fun v hv => D.grows h.fresh (hvs v hv)

theorem frames {frame? : Option Frame} (h : D.After w w₁) (hf : D.frames frame? w) :
    D.frames frame? w₁ :=
  fun f hf' => h.frame (hf f hf')

theorem scope {s : Scope} (h : D.After w w₁) (hs : D.scope s w) : D.scope s w₁ :=
  { hs with frames := h.frames hs.frames }

end After

theorem values_nil (n : Nat) : D.values n [] := by
  simp [values]

theorem values_cons {n : Nat} {v : Value} {vs : List Value} :
    D.values n (v :: vs) ↔ D.value n v ∧ D.values n vs := by
  simp [values]

theorem scope_frame {f : Frame} {w : World} (hf : D.frame w f) : D.scope (.frame f) w where
  frames g hg := by
    cases hg
    exact hf
  value {w} hw {name v} hv := (D.hereditary _).environment (D.held hw f.home) hv
  bare _ _ _ _ _ _ hnone := by cases hnone

theorem scope_vars {w : World} (ht : D.texts) : D.scope (.bindings engine.vars) w where
  frames g hg := by cases hg
  value hw _ _ hv := (D.vars ht hw).get? hv
  bare _ _ _ _ _ hv _ hnamed hc := D.varCalls ht hnamed hv hc

/-! ## Computations that respect a discipline -/

namespace Follows

variable {α β : Type} {base world : World} {ok : Nat → α → Prop}
  {F : (Job → World → Outcome Value) → Outcome α}

theorem value {a : α} (ha : ok world.fresh a) (hw : D.world world) :
    D.Follows world ok fun _ => .value a world :=
  Requests.value a world ⟨ha, .refl hw⟩

theorem fail {e : RuntimeError} (he : D.failure e) (hw : D.world world) :
    D.Follows world ok fun _ => .error e world :=
  Requests.error e world ⟨he, .refl hw⟩

theorem error {e : RuntimeError} (he : e.IsOrdinary) (hw : D.world world) :
    D.Follows world ok fun _ => .error e world :=
  fail (D.ordinary e he) hw

theorem ofExcept {result : Except RuntimeError α} (hok : ∀ a, result = .ok a → ok world.fresh a)
    (herror : FailsOnly D.failure result) (hw : D.world world) :
    D.Follows world ok fun _ => .ofExcept result world :=
  Requests.ofExcept result world (fun a ha => ⟨hok a ha, .refl hw⟩)
    fun e he => ⟨herror e he, .refl hw⟩

theorem ofOperator {result : Except RuntimeError α} (hok : ∀ a, result = .ok a → ok world.fresh a)
    (herror : FailsOnly RuntimeError.IsOrdinary result) (hw : D.world world) :
    D.Follows world ok fun _ => .ofExcept result world :=
  ofExcept hok (herror.imp D.ordinary) hw

/-- What respects a discipline from a later world on respects it from an earlier one on. -/
theorem rebase (h : D.After base world) (hF : D.Follows world ok F) : D.Follows base ok F := by
  refine Requests.imp hF (fun job w ha => ?_) fun o ho => ?_
  · exact ⟨ha.1, ha.2.1, D.near_trans h.leads ha.2.2.1, ha.2.2.2⟩
  · cases o with
    | value a w => exact ⟨ho.1, h.trans ho.2⟩
    | error e w => exact ⟨ho.1, h.trans ho.2⟩
    | outOfFuel => trivial

theorem andThen {ok₁ : Nat → β → Prop} {G : (Job → World → Outcome Value) → Outcome β}
    {next : β → World → (Job → World → Outcome Value) → Outcome α}
    (hG : D.Follows world ok₁ G)
    (hnext : ∀ b w, ok₁ w.fresh b → D.After world w → D.Follows w ok (next b w)) :
    D.Follows world ok fun recur => (G recur).andThen fun b w => next b w recur :=
  Requests.andThen hG (fun b w h => (hnext b w h.1 h.2).rebase h.2) fun _ _ h => h

/-- Code that runs in another world, from which `f` leads back. -/
theorem inside {inner : World} {f : World → World} (hF : D.Follows inner ok F)
    (hnear : ∀ w, D.near inner w → D.near world w)
    (hback : ∀ w, D.After inner w → D.After world (f w)) (hfresh : ∀ w, (f w).fresh = w.fresh) :
    D.Follows world ok fun recur => (F recur).afterwards f := by
  have hasks : Requests (D.asks world) D.answers (D.ends ok inner) F :=
    Requests.imp hF (fun _ w h => ⟨h.1, h.2.1, hnear w h.2.2.1, h.2.2.2⟩) fun _ h => h
  refine Requests.afterwards hasks fun o ho => ?_
  cases o with
  | value a w => exact ⟨(hfresh w).symm ▸ ho.1, hback w ho.2⟩
  | error e w => exact ⟨ho.1, hback w ho.2⟩
  | outOfFuel => trivial

theorem recur_calls {f : Frame} (hf : D.frame world f) (hw : D.world world) (calls : List Call) :
    D.Follows world D.value fun recur => recur (.calls f calls) world :=
  Requests.recur ⟨hf, hw, D.near_refl _, by simp⟩ (fun _ _ h => h) fun _ _ h => h

end Follows

theorem load_follows {f : Frame} {w : World} (hf : D.frame w f) (hw : D.world w)
    (argument : Argument) : D.Follows w D.value fun recur => load recur f argument w := by
  cases argument with
  | number x => exact .value ((D.hereditary _).number x) hw
  | string s => exact .value ((D.hereditary _).string s) hw
  | name name =>
    refine .ofOperator (fun v hv => ?_) (Environment.find_failsOnly _ name) hw
    exact (D.hereditary _).environment (D.held hw f.home) (Environment.get?_of_find_eq_ok hv)
  | call c => exact .recur_calls hf hw [c]
  | block b => exact .recur_calls hf hw b.calls

theorem loadFrom_follows {f : Frame} (arguments : List Argument) :
    ∀ (loaded : List Value) (w : World), D.values w.fresh loaded → D.frame w f → D.world w →
      D.Follows w D.values fun recur => loadFrom recur f loaded arguments w := by
  induction arguments with
  | nil =>
    intro loaded w hl _ hw
    exact .value (fun v hv => hl v (List.mem_reverse.1 hv)) hw
  | cons argument arguments ih =>
    intro loaded w hl hf hw
    refine (load_follows hf hw argument).andThen fun v w' hv h => ?_
    exact ih _ w' (values_cons.2 ⟨hv, h.values hl⟩) (h.frame hf) h.world

theorem loadAll_follows {f : Frame} {w : World} (hf : D.frame w f) (hw : D.world w)
    (arguments : List Argument) :
    D.Follows w D.values fun recur => loadAll recur f arguments w :=
  loadFrom_follows arguments [] w (values_nil _) hf hw

theorem evaluateText_follows {s : Scope} {w : World} (ht : D.texts) (hs : D.scope s w)
    (hform : (∃ f, s = .frame f) ∨ s = .bindings engine.vars) (hw : D.world w) (source : String) :
    D.Follows w D.value fun recur => evaluateText recur s source w := by
  unfold evaluateText
  split
  · next expr hexpr =>
    refine Requests.recur ⟨⟨hs, D.reads ht hexpr⟩, hw, D.near_refl _, ?_⟩ (fun _ _ h => h)
      fun _ _ h => h
    intro s' expr' he
    simp only [Job.expression.injEq] at he
    obtain ⟨rfl, rfl⟩ := he
    exact ⟨ht, hform, source, hexpr⟩
  · next e he => exact .error (readExpression_failsOnly source e he) hw

/-- A procedure keeps to what is allowed for the next number, and goes on to do so. -/
def Keeps (D : Discipline engine) (procedure : Procedure) (n : Nat) : Prop :=
  ∀ m, D.later n m → procedure.Holds (D.upTo m)

theorem perform_follows (procedure : Procedure) :
    ∀ {f : Frame} {w : World}, D.Keeps procedure w.fresh → D.frame w f → D.world w →
      D.Follows w D.value fun recur => perform engine recur f procedure w := by
  induction procedure with
  | done value =>
    intro f w hp _ hw
    cases hp w.fresh (.refl _) with
    | done hv => exact .value hv hw
  | fail e =>
    intro f w hp _ hw
    cases hp w.fresh (.refl _) with
    | fail he => exact .fail he hw
  | load argument next ih =>
    intro f w hp hf hw
    refine (load_follows hf hw _).andThen fun v w' hv h => ?_
    refine ih v (fun m hm => ?_) (h.frame hf) h.world
    cases hp m (h.fresh.trans hm) with
    | load hnext => exact hnext v (D.grows hm hv)
  | print line next ih =>
    intro f w hp hf hw
    have h : D.After w (w.print f.sink line) := .step (D.print hf hw line) (by simp)
    refine (ih (fun m hm => ?_) (h.frame hf) h.world).rebase h
    cases hp m (h.fresh.trans hm) with
    | print hnext => exact hnext
  | inspect next ih =>
    intro f w hp hf hw
    refine ih _ _ (fun m hm => ?_) hf hw
    cases hp m hm with
    | inspect hnext => exact hnext _ _ ((D.held hw f.home).imp fun v hv => D.grows hm hv)
  | define name value next ih =>
    intro f w hp hf hw
    cases hp w.fresh (.refl _) with
    | define hv =>
      have h : D.After w (w.define f.home name value) :=
        .step (D.define hf hw hv name) (Nat.le_refl _)
      refine (ih (fun m hm => ?_) (h.frame hf) h.world).rebase h
      cases hp m hm with
      | define _ hnext => exact hnext
  | defineBlock name body next ih =>
    intro f w hp hf hw
    have h : D.After w (w.defineBlock f.home name body) :=
      .step (D.defineBlock hf hw name body) (Nat.le_succ _)
    refine (ih (fun m hm => ?_) (h.frame hf) h.world).rebase h
    cases hp m (h.fresh.trans hm) with
    | defineBlock hnext => exact hnext
  | remove name next ih =>
    intro f w hp hf hw
    have h : D.After w (w.remove f.home name) := .step (D.remove hf hw name) (Nat.le_refl _)
    refine (ih (fun m hm => ?_) (h.frame hf) h.world).rebase h
    cases hp m hm with
    | remove hnext => exact hnext
  | evaluate source next ih =>
    intro f w hp hf hw
    cases hp w.fresh (.refl _) with
    | evaluate ht =>
      refine (evaluateText_follows ht (scope_frame hf) (.inl ⟨f, rfl⟩) hw _).andThen
        fun v w' hv h => ih v (fun m hm => ?_) (h.frame hf) h.world
      cases hp m (h.fresh.trans hm) with
      | evaluate _ hnext => exact hnext v (D.grows hm hv)
  | calculate source next ih =>
    intro f w hp hf hw
    cases hp w.fresh (.refl _) with
    | calculate ht =>
      refine (evaluateText_follows ht (scope_vars ht) (.inr rfl) hw _).andThen
        fun v w' hv h => ih v (fun m hm => ?_) (h.frame hf) h.world
      cases hp m (h.fresh.trans hm) with
      | calculate _ hnext => exact hnext v (D.grows hm hv)
  | inCopy body next ihbody ihnext =>
    intro f w hp hf hw
    cases hp w.fresh (.refl _) with
    | inCopy hc =>
      obtain ⟨hcopy, hw', hnear⟩ := D.copy hc hf hw
      have hnext : D.later w.fresh (w.fresh + 1) := .of_le (Nat.le_succ _)
      have hbody : D.Keeps body (w.fresh + 1) := fun m hm => by
        cases hp m (hnext.trans hm) with
        | inCopy _ hbody => exact hbody
      have hback (w' : World) (h : D.After (w.allocate (w.environment f.home)) w') :
          D.After w (w'.release w.fresh) := by
        obtain ⟨hw', hleads⟩ := D.release hc hf hw h.world h.leads
        exact ⟨hw', hleads, hnext.trans h.fresh⟩
      refine ((ihbody hbody hcopy hw').inside hnear hback fun _ => rfl).andThen
        fun v w' hv h => ihnext v (fun m hm => ?_) (h.frame hf) h.world
      cases hp m (h.fresh.trans hm) with
      | inCopy _ _ hnext => exact hnext v (D.grows hm hv)

/-! ## Calls of callables -/

theorem callDefinition_follows {frame? : Option Frame} {name : String} {d : Definition}
    {w : World} (hframe : D.frames frame? w) (hd : D.value w.fresh (.callable (.definition d)))
    (hbare : frame? = none → D.bare (.definition d)) (hw : D.world w) :
    D.Follows w D.value fun recur => callDefinition recur frame? name d w := by
  unfold callDefinition
  split
  · next hlive =>
    cases frame? with
    | some f => exact .recur_calls (D.owner (hframe f rfl) hw hd hlive) hw _
    | none =>
      obtain ⟨halone, hw', hnear⟩ := D.alone (hbare rfl) hw hlive
      have hback (w' : World) (h : D.After (w.atDepth 0) w') :
          D.After w (w'.atDepth w.depth) := by
        obtain ⟨hw', hleads⟩ := D.back (hbare rfl) hw hlive h.world h.leads
        exact ⟨hw', hleads, h.fresh⟩
      exact (Follows.recur_calls halone hw' _).inside hnear hback fun _ => rfl
  · exact .error nofun hw

theorem keeps_builtin {n : Nat} {b : Builtin} (hb : D.value n (.callable (.builtin b)))
    (arguments : List Argument) : D.Keeps (b.procedure arguments) n :=
  fun _ _ => .builtin b (D.builtin hb) arguments

theorem keeps_special {n stamp : Nat} {name : String}
    (h : D.value n (.callable (.host .special stamp name))) (arguments : List Argument) :
    D.Keeps (engine.toolkit.special name arguments) n :=
  fun _ hm => D.special (D.grows hm h) arguments

theorem keeps_contextual {n stamp : Nat} {name : String}
    (h : D.value n (.callable (.host .contextual stamp name))) {values : List Value}
    (hvs : D.values n values) : D.Keeps (engine.toolkit.contextual name values) n :=
  fun _ hm => D.contextual (D.grows hm h) values fun v hv => D.grows hm (hvs v hv)

theorem callWritten_follows {f : Frame} {name : String} {c : Callable} {w : World}
    (hf : D.frame w f) (hc : D.value w.fresh (.callable c)) (hw : D.world w)
    (arguments : List Argument) :
    D.Follows w D.value fun recur => callWritten engine recur f name c arguments w := by
  unfold callWritten
  split
  · exact perform_follows _ (keeps_builtin hc arguments) hf hw
  · exact perform_follows _ (keeps_special hc arguments) hf hw
  · exact (loadAll_follows hf hw arguments).andThen fun values w' hvs h =>
      perform_follows _ (keeps_contextual (D.grows h.fresh hc) hvs) (h.frame hf) h.world
  · refine (loadAll_follows hf hw arguments).andThen fun values w' hvs h => ?_
    have hc := D.grows h.fresh hc
    exact .ofExcept (fun v hv => D.pure hc hvs hv) (D.pureFailure hc hvs) h.world
  · split
    · refine callDefinition_follows (fun g hg => ?_) hc (by simp) hw
      simp only [Option.some.injEq] at hg
      exact hg ▸ hf
    · exact .error nofun hw

theorem performLiterals_follows {frame? : Option Frame} {name : String} {values : List Value}
    {procedure : List Argument → Procedure} {w : World} (hframe : D.frames frame? w)
    (hp : ∀ arguments, D.Keeps (procedure arguments) w.fresh) (hw : D.world w) :
    D.Follows w D.value
      fun recur => performLiterals engine recur frame? name values procedure w := by
  unfold performLiterals
  split
  · exact .error nofun hw
  · next f =>
    split
    · exact perform_follows _ (hp _) (hframe f rfl) hw
    · next e he => exact .error (literalArguments_failsOnly name values e he) hw

theorem callValues_follows {frame? : Option Frame} {name : String} {c : Callable}
    {values : List Value} {w : World} (hframe : D.frames frame? w)
    (hc : D.value w.fresh (.callable c)) (hbare : frame? = none → D.bare c)
    (hvs : D.values w.fresh values) (hw : D.world w) :
    D.Follows w D.value fun recur => callValues engine recur frame? name c values w := by
  unfold callValues
  split
  · exact performLiterals_follows hframe (keeps_builtin hc) hw
  · exact performLiterals_follows hframe (keeps_special hc) hw
  · split
    · exact .error nofun hw
    · next f => exact perform_follows _ (keeps_contextual hc hvs) (hframe f rfl) hw
  · exact .ofExcept (fun v hv => D.pure hc hvs hv) (D.pureFailure hc hvs) hw
  · split
    · exact callDefinition_follows hframe hc hbare hw
    · exact .error nofun hw

/-! ## Blocks -/

theorem invoke_follows {f : Frame} {w : World} (hf : D.frame w f) (hw : D.world w) (call : Call) :
    D.Follows w D.value fun recur => invoke engine recur f call w := by
  unfold invoke
  split
  · next e he => exact .error (Environment.find_failsOnly _ _ e he) hw
  · next name c hfound =>
    have hvalue := (D.hereditary _).environment (D.held hw f.home)
      (Environment.get?_of_find_eq_ok hfound)
    exact callWritten_follows hf ((D.hereditary _).function.1 hvalue) hw call.arguments
  · exact .error nofun hw

theorem invokeAll_follows {f : Frame} (calls : List Call) :
    ∀ (last : Value) (w : World), D.value w.fresh last → D.frame w f → D.world w →
      D.Follows w D.value fun recur => invokeAll engine recur f last calls w := by
  induction calls with
  | nil =>
    intro last w hlast _ hw
    exact .value hlast hw
  | cons call calls ih =>
    intro last w _ hf hw
    exact (invoke_follows hf hw call).andThen fun v w' hv h => ih v w' hv (h.frame hf) h.world

/-- The calls of a block, one level deeper than the block. -/
theorem invokeAll_entered {f : Frame} {w : World} (hf : D.frame w f) (hw : D.world w)
    (hdepth : w.depth < f.maxDepth) (calls : List Call) :
    D.Follows (w.atDepth (w.depth + 1)) D.value
      fun recur => invokeAll engine recur f .none calls (w.atDepth (w.depth + 1)) := by
  obtain ⟨hf', hw'⟩ := D.enter hf hw hdepth
  exact invokeAll_follows calls .none _ (D.hereditary _).none hf' hw'

/-- The calls of a block ask for jobs one level deeper. -/
theorem runCalls_requests {f : Frame} {w : World} (hf : D.frame w f) (hw : D.world w)
    (calls : List Call) :
    Requests (D.asks (w.atDepth (w.depth + 1))) D.answers (D.ends D.value w)
      fun recur => runCalls engine recur f calls w := by
  unfold runCalls
  split
  · next hdepth =>
    have hback (w' : World) (h : D.After (w.atDepth (w.depth + 1)) w') :
        D.After w (w'.atDepth (w'.depth - 1)) := by
      obtain ⟨hw', hleads⟩ := D.exit hf hw hdepth h.world h.leads
      exact ⟨hw', hleads, h.fresh⟩
    refine Requests.afterwards (invokeAll_entered hf hw hdepth calls) fun o ho => ?_
    cases o with
    | value v w' => exact ⟨ho.1, hback w' ho.2⟩
    | error e w' => exact ⟨ho.1, hback w' ho.2⟩
    | outOfFuel => trivial
  · exact .error _ w ⟨D.overflow hf, .refl hw⟩

/-! ## Expressions -/

theorem ordinary_of_refused {p : Prop} {what : Refusal} (e : RuntimeError)
    (he : e.IsOperand ∨ p ∧ e = .unsafeExpression what) : e.IsOrdinary := by
  obtain he | ⟨-, rfl⟩ := he
  · exact he.isOrdinary
  · exact nofun

mutual

theorem evaluate_follows {s : Scope} :
    ∀ (expr : Expr) (w : World), expr.LooksUp D.named → D.scope s w → D.world w →
      D.Follows w D.value fun recur => evaluate engine recur s expr w
  | .number x, w, _, _, hw => by
    simp only [evaluate]
    exact .value ((D.hereditary _).number x) hw
  | .name name, w, _, hs, hw => by
    simp only [evaluate]
    split
    · next v hv => exact .value (hs.value hw hv) hw
    · exact .error nofun hw
  | .binary op left right, w, hn, hs, hw => by
    simp only [evaluate]
    refine (evaluate_follows left w hn.1 hs hw).andThen fun l w₁ hl h₁ => ?_
    refine (evaluate_follows right w₁ hn.2 (h₁.scope hs) h₁.world).andThen fun r w₂ hr h₂ => ?_
    refine .ofOperator (fun v hv => (D.hereditary _).binary (D.grows h₂.fresh hl) hr hv) ?_ h₂.world
    exact (Value.binary_failsOnly op l r).imp ordinary_of_refused
  | .unary op operand, w, hn, hs, hw => by
    simp only [evaluate]
    refine (evaluate_follows operand w hn hs hw).andThen fun x w₁ _ h₁ => ?_
    refine .ofOperator (fun v hv => (D.hereditary _).unary hv) ?_ h₁.world
    exact (Value.unary_failsOnly op x).imp ordinary_of_refused
  | .call callee operands, w, hn, hs, hw => by
    cases callee with
    | name name =>
      simp only [evaluate]
      split
      · exact .error nofun hw
      · next callee hcallee =>
        split
        · exact .error nofun hw
        · next own c hfun =>
          have hc := (D.hereditary _).callable_of_function? (hs.value hw hcallee) hfun
          exact (evaluateAll_follows operands w hn.2 hs hw).andThen fun values w₁ hvs h₁ =>
            callValues_follows (h₁.frames hs.frames) (D.grows h₁.fresh hc)
              (fun hnone => hs.bare hw hcallee hnone hn.1 hfun) hvs h₁.world
    | _ =>
      simp only [evaluate]
      exact .error nofun hw
  | .subscript value index, w, hn, hs, hw => by
    simp only [evaluate]
    refine (evaluate_follows value w hn.1 hs hw).andThen fun x w₁ hx h₁ => ?_
    refine (evaluate_follows index w₁ hn.2 (h₁.scope hs) h₁.world).andThen fun i w₂ _ h₂ => ?_
    refine .ofOperator (fun v hv => (D.hereditary _).subscript (D.grows h₂.fresh hx) hv) ?_ h₂.world
    exact (Value.subscript_failsOnly x i).imp fun _ he => he.isOrdinary
  | .string .., w, _, _, hw | .bool .., w, _, _, hw | .none, w, _, _, hw
  | .boolean .., w, _, _, hw | .compare .., w, _, _, hw | .conditional .., w, _, _, hw
  | .lambda .., w, _, _, hw | .member .., w, _, _, hw | .slice .., w, _, _, hw
  | .list .., w, _, _, hw | .tuple .., w, _, _, hw | .dict .., w, _, _, hw
  | .set .., w, _, _, hw | .comprehension .., w, _, _, hw | .assign .., w, _, _, hw => by
    simp only [evaluate]
    exact .error nofun hw

theorem evaluateAll_follows {s : Scope} :
    ∀ (operands : List Operand) (w : World), Operand.listLooksUp D.named operands → D.scope s w →
      D.world w → D.Follows w D.values fun recur => evaluateAll engine recur s operands w
  | [], w, _, _, hw => by
    simp only [evaluateAll]
    exact .value (values_nil _) hw
  | .positional operand :: operands, w, hn, hs, hw => by
    simp only [evaluateAll]
    refine (evaluate_follows operand w hn.1 hs hw).andThen fun v w₁ hv h₁ => ?_
    refine (evaluateAll_follows operands w₁ hn.2 (h₁.scope hs) h₁.world).andThen
      fun vs w₂ hvs h₂ => ?_
    exact .value (values_cons.2 ⟨D.grows h₂.fresh hv, hvs⟩) h₂.world
  | .keyword .. :: _, w, _, _, hw | .starred .. :: _, w, _, _, hw
  | .doubleStarred .. :: _, w, _, _, hw => by
    simp only [evaluateAll]
    exact .error nofun hw

end

/-- The world from which a job asks for jobs. -/
def base : Job → World → World
  | .calls .., w => w.atDepth (w.depth + 1)
  | .expression .., w => w

/-- A step asks only for jobs that respect a discipline, and respects it itself. -/
theorem step_requests {job : Job} {w : World} (hjob : D.job job w) (hw : D.world w) :
    Requests (D.asks (base job w)) D.answers (D.answers job w)
      fun recur => step engine recur job w := by
  cases job with
  | calls f calls => exact runCalls_requests hjob hw calls
  | expression s expr => exact evaluate_follows expr w hjob.2 hjob.1 hw

end Discipline

end CallScript
