import CallScript.Engine.World
import CallScript.Proofs.Value.Callables

/-!
# What operations on worlds keep

Only `allocate` and `release` change which environments are in use.  `World.Each P` says that every
value in the environments in use satisfies `P`; each operation keeps it if what it brings into an
environment satisfies `P`.
-/

namespace CallScript

namespace World

variable (w : World)

@[simp] theorem depth_print (sink : Sink) (line : String) :
    (w.print sink line).depth = w.depth := by
  cases sink <;> rfl

@[simp] theorem fresh_print (sink : Sink) (line : String) :
    (w.print sink line).fresh = w.fresh := by
  cases sink <;> rfl

theorem depth_rfl : w.depth = w.depth := rfl

theorem depth_trans {w w' w'' : World} (h : w'.depth = w.depth) (h' : w''.depth = w'.depth) :
    w''.depth = w.depth :=
  h'.trans h

/-- Going one level deeper and back leads to the depth it started from. -/
theorem depth_leave {w w' : World} (h : w'.depth = (w.atDepth (w.depth + 1)).depth) :
    (w'.atDepth (w'.depth - 1)).depth = w.depth := by
  show w'.depth - 1 = w.depth
  rw [h]
  rfl

/-! ## Environments in use -/

theorem isLive_iff {n : Nat} : w.isLive n ↔ n ∈ w.live.map Prod.fst := by
  rw [isLive, environment?, List.lookup_isSome_iff, List.mem_map]
  simp only [beq_iff_eq, @eq_comm Nat n]

@[simp] theorem isLive_update (home : Nat) (f : Environment → Environment) (n : Nat) :
    (w.update home f).isLive n = w.isLive n := by
  have hkeys : (w.update home f).live.map Prod.fst = w.live.map Prod.fst := by
    simp only [update, List.map_map]
    refine List.map_congr_left fun entry _ => ?_
    simp only [Function.comp_apply]
    split <;> rfl
  rw [Bool.eq_iff_iff, isLive_iff, isLive_iff, hkeys]

@[simp] theorem isLive_define (home : Nat) (name : String) (value : Value) (n : Nat) :
    (w.define home name value).isLive n = w.isLive n :=
  w.isLive_update home _ n

@[simp] theorem isLive_defineBlock (home : Nat) (name : String) (body : Block) (n : Nat) :
    (w.defineBlock home name body).isLive n = w.isLive n :=
  isLive_define { w with fresh := w.fresh + 1 } home name _ n

@[simp] theorem isLive_remove (home : Nat) (name : String) (n : Nat) :
    (w.remove home name).isLive n = w.isLive n :=
  w.isLive_update home _ n

@[simp] theorem isLive_print (sink : Sink) (line : String) (n : Nat) :
    (w.print sink line).isLive n = w.isLive n := by
  cases sink <;> rfl

@[simp] theorem isLive_atDepth (depth n : Nat) : (w.atDepth depth).isLive n = w.isLive n := rfl

theorem isLive_allocate (env : Environment) (n : Nat) :
    (w.allocate env).isLive n ↔ n = w.fresh ∨ w.isLive n := by
  simp only [isLive_iff, allocate, List.map_cons, List.mem_cons]

theorem isLive_release (home n : Nat) : (w.release home).isLive n ↔ n ≠ home ∧ w.isLive n := by
  simp only [isLive_iff, release, List.mem_map, List.mem_filter, decide_eq_true_eq]
  constructor
  · rintro ⟨entry, ⟨hentry, hne⟩, rfl⟩
    exact ⟨hne, entry, hentry, rfl⟩
  · rintro ⟨hne, entry, hentry, rfl⟩
    exact ⟨entry, ⟨hentry, hne⟩, rfl⟩

theorem update_id (home : Nat) : w.update home (fun env => env) = w := by
  simp [update]

theorem update_update (home : Nat) (f g : Environment → Environment) :
    (w.update home f).update home g = w.update home fun env => g (f env) := by
  simp only [update, List.map_map]
  congr 1
  refine List.map_congr_left fun entry _ => ?_
  simp only [Function.comp_apply]
  split <;> simp_all

/-- A change of an environment in use changes what is bound there. -/
theorem environment_update {home : Nat} (hlive : w.isLive home) (f : Environment → Environment) :
    (w.update home f).environment home = f (w.environment home) := by
  have hlookup : (w.update home f).environment? home = (w.environment? home).map f := by
    simp only [update, environment?]
    induction w.live with
    | nil => rfl
    | cons entry live ih =>
      obtain ⟨n, env⟩ := entry
      by_cases hn : n = home
      · simp [hn]
      · have hn' : (home == n) = false := by simpa using Ne.symm hn
        simp [List.lookup_cons, hn, hn', ih]
  obtain ⟨env, henv⟩ := Option.isSome_iff_exists.1 hlive
  simp [environment, hlookup, henv]

section Others

variable {home number : Nat} (h : home ≠ number)

include h

/-- A change of one environment leaves the others alone. -/
theorem environment_update_of_ne (f : Environment → Environment) :
    (w.update number f).environment home = w.environment home := by
  have hne : (home == number) = false := by simpa using h
  have hlookup : (w.update number f).environment? home = w.environment? home := by
    simp only [update, environment?]
    induction w.live with
    | nil => rfl
    | cons entry live ih =>
      obtain ⟨n, env⟩ := entry
      by_cases hn : n = number
      · subst hn
        simp [List.lookup_cons, hne, ih]
      · simp [List.lookup_cons, hn, ih]
  rw [environment, hlookup, environment]

theorem environment_release_of_ne :
    (w.release number).environment home = w.environment home := by
  have hne : (home == number) = false := by simpa using h
  have hlookup : (w.release number).environment? home = w.environment? home := by
    simp only [release, environment?, ne_eq, decide_not]
    induction w.live with
    | nil => rfl
    | cons entry live ih =>
      obtain ⟨n, env⟩ := entry
      by_cases hn : n = number
      · subst hn
        simp [List.lookup_cons, hne, ih]
      · simp [List.lookup_cons, hn, ih]
  rw [environment, hlookup, environment]

end Others

theorem environment_allocate_of_ne {home : Nat} (h : home ≠ w.fresh) (env : Environment) :
    (w.allocate env).environment home = w.environment home := by
  have hne : (home == w.fresh) = false := by simpa using h
  simp [environment, environment?, allocate, List.lookup_cons, hne]

end World

/-! ## Values -/

/-- Every value in the environments in use satisfies `P`. -/
def World.Each (P : Value → Prop) (world : World) : Prop :=
  ∀ entry ∈ world.live, Bindings.Each P entry.2.bindings

/-- Every callable in the environments in use satisfies `p`. -/
abbrev World.All (p : Callable → Prop) : World → Prop :=
  World.Each (Value.All p)

namespace World.Each

variable {P Q : Value → Prop} {w : World}

theorem environment (h : w.Each P) (home : Nat) :
    Bindings.Each P (w.environment home).bindings := by
  unfold World.environment World.environment?
  cases hl : w.live.lookup home with
  | none => simp [Bindings.Each, Environment.empty]
  | some env =>
    obtain ⟨l₁, l₂, hlive, -⟩ := List.lookup_eq_some_iff.1 hl
    exact h (home, env) (by simp [hlive])

theorem imp (h : ∀ v, P v → Q v) (heach : w.Each P) : w.Each Q :=
  fun entry hentry => (heach entry hentry).imp h

theorem update (h : w.Each P) {f : Environment → Environment}
    (hf : ∀ env : Environment, Bindings.Each P env.bindings → Bindings.Each P (f env).bindings)
    (home : Nat) : (w.update home f).Each P := by
  intro entry hentry
  obtain ⟨⟨n, env⟩, hmem, rfl⟩ := List.mem_map.1 hentry
  dsimp only
  split
  · exact hf env (h _ hmem)
  · exact h _ hmem

theorem define (h : w.Each P) {v : Value} (hv : P v) (home : Nat) (name : String) :
    (w.define home name v).Each P :=
  h.update (fun _ henv => henv.insert hv name) home

theorem defineBlock (h : w.Each P) {home : Nat} {body : Block}
    (hd : P (.callable (.definition ⟨w.fresh, home, body⟩))) (name : String) :
    (w.defineBlock home name body).Each P := by
  have hfresh : World.Each P { w with fresh := w.fresh + 1 } := h
  exact hfresh.define hd home name

theorem remove (h : w.Each P) (home : Nat) (name : String) : (w.remove home name).Each P :=
  h.update (fun _ henv => henv.erase name) home

theorem allocate (h : w.Each P) {env : Environment} (henv : Bindings.Each P env.bindings) :
    (w.allocate env).Each P := by
  intro entry hentry
  rcases List.mem_cons.1 hentry with rfl | hentry
  · exact henv
  · exact h _ hentry

theorem release (h : w.Each P) (home : Nat) : (w.release home).Each P :=
  fun entry hentry => h entry (List.mem_filter.1 hentry).1

theorem print (h : w.Each P) (sink : Sink) (line : String) : (w.print sink line).Each P := by
  cases sink <;> exact h

end World.Each

end CallScript
