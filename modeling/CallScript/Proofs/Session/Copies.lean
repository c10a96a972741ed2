import CallScript.Proofs.Session.InPlace

/-!
# Values that are read and stored again

A read wraps what is stored, and a program that stores what it has read stores the wrapped value.
Nothing more is wrapped when that is read in turn: what a read hands out depends on the value that
was stored first and on the name of the read alone (`Value.wrap_wrap`).  So a chain of copies, each
from the name before it, makes its last name read as the first value does under that name, and
changes no name outside the chain (`Session.read_of_copies`).
-/

namespace CallScript

open Engine

/-! ## Reading twice -/

namespace Value

theorem asView?_bind_asView? (v : Value) : v.asView?.bind asView? = v.asView? := by
  cases v <;> rfl

/-- A value that was read under one name reads under another as the stored one does. -/
@[simp] theorem wrap_wrap (v : Value) (m n : String) : (v.wrap m).wrap n = v.wrap n := by
  cases v with
  | list xs => simp only [wrap, List.filterMap_filterMap, asView?_bind_asView?]
  | _ => rfl

end Value

theorem Environment.get?_of_getRaw? {env : Environment} {name : String} {v : Value}
    (h : env.getRaw? name = some v) : env.get? name = some (v.wrap name) := by
  rw [get?, h, Option.map_some]

theorem Environment.getRaw?_define (env : Environment) (name query : String) (v : Value) :
    (env.define name v).getRaw? query = if name = query then some v else env.getRaw? query :=
  Entries.get?_insert name query v env.bindings

theorem Environment.get?_define_of_ne (env : Environment) {name query : String} (h : name ≠ query)
    (v : Value) : (env.define name v).get? query = env.get? query := by
  rw [get?, getRaw?_define, if_neg h, get?]

theorem Environment.getRaw?_extend (env : Environment) (more : Bindings) (name : String) :
    (env.extend more).getRaw? name = (Entries.get? name more.reverse).or (env.getRaw? name) :=
  Entries.get?_extend name env.bindings more

/-! ## Chains of copies -/

/-- The calls that copy a value from name to name: `set(x₁, x₀); set(x₂, x₁); …`. -/
def copies (source : String) : List String → List Call
  | [] => []
  | target :: targets => ⟨"set", [.name target, .name source]⟩ :: copies target targets

/-- What the calls of a chain store, if the first name has the value `v`. -/
def copied (v : Value) (source : String) : List String → Bindings
  | [] => []
  | target :: targets => (target, v.wrap source) :: copied v target targets

theorem keys_copied (v : Value) (source : String) (targets : List String) :
    Entries.keys (copied v source targets) = targets := by
  induction targets generalizing source with
  | nil => rfl
  | cons target targets ih => rw [copied, Entries.keys_cons, ih]

theorem copied_concat (v : Value) (source : String) (targets : List String) (last : String) :
    ∃ name, copied v source (targets ++ [last]) =
      copied v source targets ++ [(last, v.wrap name)] := by
  induction targets generalizing source with
  | nil => exact ⟨source, rfl⟩
  | cons target targets ih =>
    obtain ⟨name, hname⟩ := ih target
    exact ⟨name, by simp [copied, hname]⟩

/-- It does not matter to what a chain stores whether the first value has been read before. -/
theorem copied_wrap (v : Value) (name source : String) (targets : List String) :
    copied (v.wrap name) source targets = copied v source targets := by
  induction targets generalizing source with
  | nil => rfl
  | cons target targets ih => rw [copied, copied, Value.wrap_wrap, ih]

namespace Environment

variable (env : Environment) (v : Value) (source : String)

/-- The last name of a chain reads as the first value does under that name. -/
theorem get?_extend_copied (targets : List String) (last : String) :
    (env.extend (copied v source (targets ++ [last]))).get? last = some (v.wrap last) := by
  obtain ⟨name, hname⟩ := copied_concat v source targets last
  have hraw : (env.extend (copied v source (targets ++ [last]))).getRaw? last =
      some (v.wrap name) := by
    rw [getRaw?_extend, hname, List.reverse_concat]
    simp [Entries.get?]
  rw [get?_of_getRaw? hraw, Value.wrap_wrap]

theorem getRaw?_extend_copied {targets : List String} {name : String} (h : name ∉ targets) :
    (env.extend (copied v source targets)).getRaw? name = env.getRaw? name := by
  have hnone : Entries.get? name (copied v source targets).reverse = none := by
    have hkeys : name ∉ Entries.keys (copied v source targets) := by rwa [keys_copied]
    rwa [Entries.get?_eq_none_iff, Entries.keys, List.map_reverse, List.mem_reverse]
  rw [getRaw?_extend, hnone, Option.none_or]

end Environment

namespace Engine

variable {engine : Engine} {recur : Job → World → Outcome Value} {f : Frame} {w : World}

theorem invoke_set_name {own source target : String} {v : Value}
    (hset : (w.environment f.home).get? "set" = some (.function own (.builtin .set)))
    (hsource : (w.environment f.home).get? source = some v) :
    invoke engine recur f ⟨"set", [.name target, .name source]⟩ w =
      .value .none (w.define f.home target v) := by
  simp only [invoke, Environment.find, hset, callWritten, Builtin.procedure, perform, load,
    hsource, Outcome.ofExcept, Outcome.andThen_value, Procedure.nothing]

/-- The calls of a chain store what they read, one after another. -/
theorem invokeAll_copies {source : String} {v : Value} {targets : List String}
    (hset : (w.environment f.home).get? "set" = some (.function "set" (.builtin .set)))
    (hsource : (w.environment f.home).getRaw? source = some v) (hnames : "set" ∉ targets) :
    invokeAll engine recur f .none (copies source targets) w =
      .value .none (w.update f.home (·.extend (copied v source targets))) := by
  induction targets generalizing source v w with
  | nil => exact congrArg (Outcome.value Value.none) (w.update_id f.home).symm
  | cons target targets ih =>
    have hlive : w.isLive f.home := World.isLive_of_get? hset
    have htarget : target ≠ "set" := fun h => hnames (h ▸ List.mem_cons_self)
    have hstored : (w.define f.home target (v.wrap source)).environment f.home =
        (w.environment f.home).define target (v.wrap source) := w.environment_update hlive _
    have hset' : ((w.define f.home target (v.wrap source)).environment f.home).get? "set" =
        some (.function "set" (.builtin .set)) := by
      rw [hstored, Environment.get?_define_of_ne _ htarget, hset]
    have hsource' : ((w.define f.home target (v.wrap source)).environment f.home).getRaw? target =
        some (v.wrap source) := by
      rw [hstored, Environment.getRaw?_define, if_pos rfl]
    rw [copies, invokeAll, invoke_set_name hset (Environment.get?_of_getRaw? hsource),
      Outcome.andThen_value, ih hset' hsource' fun h => hnames (List.mem_cons_of_mem _ h),
      copied_wrap, World.define, World.update_update]
    rfl

/-- A block whose calls come to a value leaves their world behind, one level up. -/
theorem run_calls_of_value {calls : List Call} {v : Value} {w' : World} {fuel : Nat}
    (hdepth : w.depth < f.maxDepth)
    (hcalls : invokeAll engine (engine.run fuel) f .none calls (w.atDepth (w.depth + 1)) =
      .value v w') :
    engine.run (fuel + 1) (.calls f calls) w = .value v (w'.atDepth (w'.depth - 1)) := by
  rw [run_succ, step, runCalls, if_pos hdepth, hcalls]
  rfl

theorem run_ret_name {own name : String} {v : Value} (hdepth : w.depth < f.maxDepth)
    (hret : (w.environment f.home).get? "ret" = some (.function own (.builtin .ret)))
    (hname : (w.environment f.home).get? name = some v) (fuel : Nat) :
    engine.run (fuel + 1) (.calls f [⟨"ret", [.name name]⟩]) w = .value v w := by
  let deeper := w.atDepth (w.depth + 1)
  have hret' : (deeper.environment f.home).get? "ret" = some (.function own (.builtin .ret)) := hret
  have hname' : (deeper.environment f.home).get? name = some v := hname
  have hcall : invokeAll engine (engine.run fuel) f .none [⟨"ret", [.name name]⟩] deeper =
      .value v deeper := by
    simp only [invokeAll, invoke, Environment.find, hret', callWritten, Builtin.procedure, perform,
      load, hname', Outcome.ofExcept, Outcome.andThen_value]
  exact run_calls_of_value hdepth hcall

end Engine

/-! ## Sessions -/

namespace Session

variable {session : Session}

theorem execute_of_value {block : Block} {v : Value} {w : World} {fuel : Nat}
    (h : session.engine.run fuel (.calls session.frame block.calls) session.world = .value v w) :
    session.execute fuel block = (.ok v, { session with world := w, stage := .completed }) := by
  rw [execute, h]
  rfl

/-- What is stored again reads as it did.  A chain of copies from `source` on makes its last name
read as the value of `source` does under that name, and leaves what is stored under names outside
the chain as it was. -/
theorem read_of_copies (source last : String) (targets : List String) {v : Value}
    (hset : session.environment.get? "set" = some (.function "set" (.builtin .set)))
    (hret : session.environment.get? "ret" = some (.function "ret" (.builtin .ret)))
    (hsource : session.environment.getRaw? source = some v)
    (hnames : "set" ∉ targets ++ [last] ∧ "ret" ∉ targets ++ [last])
    (hroom : session.world.depth < session.maxDepth) (fuel : Nat) :
    (∀ (u : Value) (m n : String), (u.wrap m).wrap n = u.wrap n) ∧
    ∃ after, session.execute (fuel + 1) ⟨copies source (targets ++ [last])⟩ = (.ok .none, after) ∧
      after.environment.get? last = some (v.wrap last) ∧
      (after.execute (fuel + 1) ⟨[⟨"ret", [.name last]⟩]⟩).1 = .ok (v.wrap last) ∧
      ∀ name, name ∉ targets ++ [last] →
        after.environment.getRaw? name = session.environment.getRaw? name := by
  let stored := copied v source (targets ++ [last])
  let world := session.world.update session.home (·.extend stored)
  have henv : world.environment session.home = session.environment.extend stored :=
    session.world.environment_update (World.isLive_of_get? hset) _
  have hlast : (world.environment session.home).get? last = some (v.wrap last) := by
    rw [henv, Environment.get?_extend_copied]
  have hret' : (world.environment session.home).get? "ret" =
      some (.function "ret" (.builtin .ret)) := by
    rw [henv, Environment.get?, Environment.getRaw?_extend_copied _ _ _ hnames.2]
    exact hret
  have hcopies : session.engine.run (fuel + 1)
      (.calls session.frame (copies source (targets ++ [last]))) session.world =
        .value .none world :=
    run_calls_of_value (f := session.frame) hroom (invokeAll_copies hset hsource hnames.1)
  refine ⟨Value.wrap_wrap, _, execute_of_value hcopies, hlast, ?_, fun name hname => ?_⟩
  · have hread : session.engine.run (fuel + 1)
        (.calls session.frame [⟨"ret", [.name last]⟩]) world = .value (v.wrap last) world :=
      run_ret_name (f := session.frame) (w := world) hroom hret' hlast fuel
    exact congrArg Prod.fst (execute_of_value hread)
  · show (world.environment session.home).getRaw? name = _
    rw [henv, Environment.getRaw?_extend_copied _ _ _ hname]

/-- A session in which `x` is a list with a number, a mapping, a mapping that has been read, and a
function. -/
def withList : Session :=
  (Session.new .stock .captured 1).install [("x", .list [.number 1, .map [("k", .string "v")],
    .view [], .callable (.host .pure 0 "first")])]

/-- Two copies of the list read as one does: the mappings are left. -/
theorem read_of_copies_list : ∃ after,
    withList.execute 1 ⟨[⟨"set", [.name "y", .name "x"]⟩, ⟨"set", [.name "z", .name "y"]⟩]⟩ =
      (.ok .none, after) ∧
    after.environment.get? "z" = some (.list [.view [("k", .string "v")], .view []]) ∧
    after.environment.getRaw? "x" = withList.environment.getRaw? "x" := by
  obtain ⟨-, after, hrun, hread, -, hrest⟩ := withList.read_of_copies
    "x" "z" ["y"] rfl rfl rfl (by decide) (by decide) 0
  exact ⟨after, hrun, hread, hrest "x" (by decide)⟩

end Session

end CallScript
