import CallScript.Proofs.Session.Counting

/-!
# What a session keeps from one operation to the next

Whatever the host does with a session, and whichever way its programs and expressions end, every
operation leaves the session at depth zero, with the stage that its latest program has come to, and
with the defaults it was made with and those installed since (`Session.Operated.kept`).  Meanwhile
the count of the session stays within its limit (`Session.staysWithin`).
-/

namespace CallScript

open Engine

theorem World.environment_allocate (w : World) (env : Environment) :
    (w.allocate env).environment w.fresh = env := by
  simp [World.environment, World.environment?, World.allocate]

/-- The stage of a session whose latest program gave a result; `none` if it has run none. -/
def Stage.after : Option (Except Failure Value) → Stage
  | none => .idle
  | some (.ok _) => .completed
  | some (.error _) => .failed

namespace Session

/-! ## Histories -/

/-- An operation comes to an end. -/
def Returns (answer : Except Failure Value × Session) : Prop :=
  answer.1 ≠ .error .outOfFuel

/-- A session after any number of operations that have come to an end, the bindings installed in
it, and the result of its latest program.  Between them the host may change the environment and the
calculator as it likes. -/
inductive Operated (toolkit : Toolkit) (sink : Sink) (maxDepth : Nat) :
    Session → List Bindings → Option (Except Failure Value) → Prop where
  | new : Operated toolkit sink maxDepth (.new toolkit sink maxDepth) [] none
  | run {session : Session} {installed : List Bindings} {last : Option (Except Failure Value)}
    (h : Operated toolkit sink maxDepth session installed last) {fuel : Nat} {source : String}
    (hr : Returns (session.run fuel source)) :
    Operated toolkit sink maxDepth (session.run fuel source).2 installed
      (some (session.run fuel source).1)
  | execute {session : Session} {installed : List Bindings} {last : Option (Except Failure Value)}
    (h : Operated toolkit sink maxDepth session installed last) {fuel : Nat} {block : Block}
    (hr : Returns (session.execute fuel block)) :
    Operated toolkit sink maxDepth (session.execute fuel block).2 installed
      (some (session.execute fuel block).1)
  | calculate {session : Session} {installed : List Bindings}
    {last : Option (Except Failure Value)}
    (h : Operated toolkit sink maxDepth session installed last) {fuel : Nat} {source : String}
    (hr : Returns (session.calculate fuel source)) :
    Operated toolkit sink maxDepth (session.calculate fuel source).2 installed last
  | evaluate {session : Session} {installed : List Bindings}
    {last : Option (Except Failure Value)}
    (h : Operated toolkit sink maxDepth session installed last) {fuel : Nat} {source : String}
    (hr : Returns (session.evaluate fuel source)) :
    Operated toolkit sink maxDepth (session.evaluate fuel source).2 installed last
  | install {session : Session} {installed : List Bindings}
    {last : Option (Except Failure Value)}
    (h : Operated toolkit sink maxDepth session installed last) (bindings : Bindings) :
    Operated toolkit sink maxDepth (session.install bindings) (installed ++ [bindings]) last
  | reset {session : Session} {installed : List Bindings} {last : Option (Except Failure Value)}
    (h : Operated toolkit sink maxDepth session installed last) :
    Operated toolkit sink maxDepth session.reset installed last
  | environment {session : Session} {installed : List Bindings}
    {last : Option (Except Failure Value)}
    (h : Operated toolkit sink maxDepth session installed last) (f : Environment → Environment) :
    Operated toolkit sink maxDepth (session.updateEnvironment f) installed last
  | calculator {session : Session} {installed : List Bindings}
    {last : Option (Except Failure Value)}
    (h : Operated toolkit sink maxDepth session installed last) (calculator : Calculator) :
    Operated toolkit sink maxDepth { session with calculator } installed last

/-! ## Depth -/

variable {session : Session}

theorem depth_settle {o : Outcome Value} (h : o.AtDepth session.world.depth) :
    (session.settle o).2.world.depth = session.world.depth := by
  cases o with
  | value v w => exact h
  | error e w => exact h
  | outOfFuel => rfl

theorem conclude_world (answer : Except Failure Value × Session) :
    (conclude answer).2.world = answer.2.world := by
  obtain ⟨_ | _, after⟩ := answer <;> rfl

theorem depth_execute (fuel : Nat) (block : Block) :
    (session.execute fuel block).2.world.depth = session.world.depth := by
  rw [execute, conclude_world]
  exact depth_settle (run_atDepth fuel _ _)

theorem depth_evaluateIn (fuel : Nat) (scope : Scope) (source : String) :
    (session.evaluateIn fuel scope source).2.world.depth = session.world.depth := by
  unfold evaluateIn
  split
  · rfl
  · split
    · rfl
    · exact depth_settle (run_atDepth fuel _ _)

/-- Running code counts back, whichever way it ends. -/
theorem Runs.depth_eq {answer : Except Failure Value × Session} (h : session.Runs answer) :
    answer.2.world.depth = session.world.depth := by
  cases h with
  | execute fuel block => exact depth_execute fuel block
  | calculate fuel source => exact depth_evaluateIn fuel _ source
  | evaluate fuel source => exact depth_evaluateIn fuel _ source
  | run fuel source =>
    unfold Session.run
    split
    · exact depth_execute fuel _
    · rfl

/-- While code of a session runs, the count of the session is at most `limit`, and a block that
would pass the limit is refused. -/
def StaysWithin (session : Session) (limit : Nat) : Prop :=
  ∀ job inner w, session.HasJob job → session.engine.Descends (job, session.world) (inner, w) →
    w.depth ≤ limit ∧ ∀ f calls, inner = .calls f calls → w.depth < limit ∨
      session.engine.result inner w = .error (.stackOverflow limit) w

theorem staysWithin (h : session.world.depth ≤ session.maxDepth) :
    session.StaysWithin session.maxDepth := by
  intro job inner w hjob hdescends
  have hlimit (f : Frame) (hf : job.frame? = some f) : f.maxDepth = session.maxDepth := by
    cases hjob with
    | block block =>
      cases hf
      rfl
    | evaluate expr =>
      cases hf
      rfl
    | calculate expr => cases hf
  obtain ⟨hle, hsame⟩ := hdescends.depth_le h hlimit
  refine ⟨hle, ?_⟩
  rintro f calls rfl
  by_cases hdepth : w.depth < f.maxDepth
  · exact .inl (hsame f rfl ▸ hdepth)
  · right
    rw [← step_result, step, runCalls, if_neg hdepth, hsame f rfl]

/-! ## Stages -/

theorem stage_conclude (answer : Except Failure Value × Session) :
    (conclude answer).2.stage = Stage.after (some (conclude answer).1) := by
  obtain ⟨_ | _, after⟩ := answer <;> rfl

theorem stage_run (fuel : Nat) (source : String) :
    (session.run fuel source).2.stage = Stage.after (some (session.run fuel source).1) := by
  unfold run
  split
  · exact stage_conclude _
  · rfl

theorem stage_settle (o : Outcome Value) : (session.settle o).2.stage = session.stage := by
  cases o <;> rfl

theorem stage_evaluateIn (fuel : Nat) (scope : Scope) (source : String) :
    (session.evaluateIn fuel scope source).2.stage = session.stage := by
  unfold evaluateIn
  split
  · rfl
  · split
    · rfl
    · exact stage_settle _

/-! ## Defaults -/

/-- Defaults that are the bindings of a new session and those installed since: the names in the
order in which they were first installed, each with the value installed last. -/
structure Restores (installed : List Bindings) (defaults : Bindings) : Prop where
  names : Entries.keys defaults = Entries.keys registry ++
    ((Entries.keys installed.flatten).removeAll (Entries.keys registry)).eraseDups
  values : ∀ name, Entries.get? name defaults =
    (Entries.get? name installed.flatten.reverse).or (Entries.get? name registry)

theorem restores_extend (installed : List Bindings) :
    Restores installed (Entries.extend registry installed.flatten) where
  names := Entries.keys_extend registry installed.flatten
  values name := Entries.get?_extend name registry installed.flatten

theorem environment_reset (session : Session) : session.reset.environment = ⟨session.defaults⟩ :=
  World.environment_allocate (session.world.release session.home) ⟨session.defaults⟩

/-! ## Every history -/

/-- What every operation keeps. -/
structure Kept (maxDepth : Nat) (installed : List Bindings)
    (last : Option (Except Failure Value)) (session : Session) : Prop where
  depth : session.world.depth = 0
  limit : session.maxDepth = maxDepth
  stage : session.stage = Stage.after last
  defaults : session.defaults = Entries.extend registry installed.flatten

theorem Kept.runs {maxDepth : Nat} {installed : List Bindings}
    {last last' : Option (Except Failure Value)} (h : Kept maxDepth installed last session)
    {answer : Except Failure Value × Session} (hr : session.Runs answer)
    (hstage : answer.2.stage = Stage.after last') : Kept maxDepth installed last' answer.2 := by
  have hdepth := hr.depth_eq
  obtain ⟨world, stage, hrest⟩ := (hr.keeps (.free session.engine) trivial trivial trivial).rest
  rw [hrest] at hdepth hstage ⊢
  exact ⟨hdepth.trans h.depth, h.limit, hstage, h.defaults⟩

theorem Operated.kept {toolkit : Toolkit} {sink : Sink} {maxDepth : Nat}
    {installed : List Bindings} {last : Option (Except Failure Value)}
    (h : Operated toolkit sink maxDepth session installed last) :
    Kept maxDepth installed last session := by
  induction h with
  | new => exact ⟨rfl, rfl, rfl, rfl⟩
  | run _ _ ih => exact ih.runs (.run _ _) (stage_run _ _)
  | execute _ _ ih => exact ih.runs (.execute _ _) (stage_conclude _)
  | calculate _ _ ih => exact ih.runs (.calculate _ _) ((stage_evaluateIn _ _ _).trans ih.stage)
  | evaluate _ _ ih => exact ih.runs (.evaluate _ _) ((stage_evaluateIn _ _ _).trans ih.stage)
  | install _ bindings ih =>
    refine ⟨ih.depth, ih.limit, ih.stage, ?_⟩
    rw [List.flatten_append, Entries.extend_append, ← ih.defaults, List.flatten_singleton]
    rfl
  | reset _ ih => exact ⟨ih.depth, ih.limit, ih.stage, ih.defaults⟩
  | environment _ f ih => exact ⟨ih.depth, ih.limit, ih.stage, ih.defaults⟩
  | calculator _ calculator ih => exact ⟨ih.depth, ih.limit, ih.stage, ih.defaults⟩

/-- After every operation a session is at depth zero and its code stays within the limit; its stage
is that of its latest program; a reset brings back what a new session binds and what was installed
since; and a text that is no program changes nothing but the stage. -/
theorem Operated.invariant {toolkit : Toolkit} {sink : Sink} {maxDepth : Nat}
    {installed : List Bindings} {last : Option (Except Failure Value)}
    (h : Operated toolkit sink maxDepth session installed last) :
    (session.world.depth = 0 ∧ session.StaysWithin maxDepth) ∧
    session.stage = Stage.after last ∧
    (Restores installed session.defaults ∧ session.reset.environment = ⟨session.defaults⟩) ∧
    ∀ fuel source e, Program.parse source = .error e →
      session.run fuel source = (.error (.malformed e), { session with stage := .failed }) := by
  obtain ⟨hdepth, hlimit, hstage, hdefaults⟩ := h.kept
  refine ⟨⟨hdepth, ?_⟩, hstage, ⟨?_, environment_reset session⟩, fun fuel source e hparse => ?_⟩
  · rw [← hlimit]
    exact staysWithin (by omega)
  · rw [hdefaults]
    exact restores_extend installed
  · simp only [Session.run, hparse]

/-! ## A session that overflows -/

/-- Binds `out` to a number, and nests three blocks. -/
def nested : Block :=
  ⟨[⟨"set", [.name "out", .number 1]⟩, ⟨"ret", [.block ⟨[⟨"ret", [.block ⟨[]⟩]⟩]⟩]⟩]⟩

/-- A session with limit two that has run too many blocks inside one another, and in which the host
has then installed another `ret` and a new name. -/
def overflown : Session :=
  ((Session.new .stock .captured 2).execute 4 nested).2.install [("ret", .none), ("x", .none)]

/-- The session is at depth zero and failed, and a reset brings `out` back. -/
theorem invariant_overflown :
    Operated .stock .captured 2 overflown [[("ret", .none), ("x", .none)]]
      (some (.error (.runtime (.stackOverflow 2)))) ∧
    overflown.world.depth = 0 ∧ overflown.StaysWithin 2 ∧ overflown.stage = .failed ∧
    Restores [[("ret", .none), ("x", .none)]] overflown.defaults ∧
    overflown.reset.environment = ⟨overflown.defaults⟩ := by
  have hexecute : ((Session.new .stock .captured 2).execute 4 nested).1 =
      .error (.runtime (.stackOverflow 2)) := by rfl
  have hoperated : Operated .stock .captured 2 overflown [[("ret", .none), ("x", .none)]]
      (some (.error (.runtime (.stackOverflow 2)))) := by
    have hreturns : Returns ((Session.new .stock .captured 2).execute 4 nested) := by
      rw [Returns, hexecute]
      nofun
    have hran := Operated.execute .new hreturns
    rw [hexecute] at hran
    exact hran.install _
  obtain ⟨⟨hdepth, hwithin⟩, hstage, ⟨hrestores, hreset⟩, -⟩ := hoperated.invariant
  exact ⟨hoperated, hdepth, hwithin, hstage, hrestores, hreset⟩

end Session

end CallScript
