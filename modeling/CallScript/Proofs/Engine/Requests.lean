import CallScript.Engine.Run

/-!
# Computations that ask for jobs

A step of the engine is given what runs the jobs it starts.  It uses it in one way only: it asks for
one job after another, goes on with the value of each, and passes the first failure on.
`Requests asks answers ends F` says so of a computation `F`, and says besides which jobs are asked
for (`asks`) and how the computation ends (`ends`), provided that the jobs end as `answers` says.

Everything that holds of all such computations is proved here by one induction each: their outcome
depends on the jobs asked for only (`Requests.congr`), more answers keep a finished outcome
(`Requests.mono`), finitely many answers are enough (`Requests.compact`), and a computation without
an outcome waits for one job whose failure would be its own (`Requests.stuck`).
-/

namespace CallScript

namespace Outcome

variable {α β γ : Type}

/-- Goes on with the value of an outcome, or with its error and the world that `leave` makes. -/
def resume (outcome : Outcome α) (next : α → World → Outcome β) (leave : World → World) :
    Outcome β :=
  match outcome with
  | .value a world => next a world
  | .error e world => .error e (leave world)
  | .outOfFuel => .outOfFuel

theorem resume_andThen (outcome : Outcome α) (next : α → World → Outcome β)
    (leave : World → World) (f : β → World → Outcome γ) :
    (outcome.resume next leave).andThen f =
      outcome.resume (fun a world => (next a world).andThen f) leave := by
  cases outcome <;> rfl

theorem resume_afterwards (outcome : Outcome α) (next : α → World → Outcome β)
    (leave f : World → World) :
    (outcome.resume next leave).afterwards f =
      outcome.resume (fun a world => (next a world).afterwards f) (f ∘ leave) := by
  cases outcome <;> rfl

theorem resume_value (outcome : Outcome α) : outcome.resume value id = outcome := by
  cases outcome <;> rfl

end Outcome

namespace Engine

/-- Whatever runs the jobs, the computation asks for jobs that satisfy `asks`, one after another,
and ends as `ends` says if the jobs end as `answers` says. -/
inductive Requests {α : Type} (asks : Job → World → Prop)
    (answers : Job → World → Outcome Value → Prop) (ends : Outcome α → Prop) :
    ((Job → World → Outcome Value) → Outcome α) → Prop where
  /-- It ends with a value. -/
  | value (a : α) (world : World) (h : ends (.value a world)) :
    Requests asks answers ends fun _ => .value a world
  /-- It ends with an error. -/
  | error (e : RuntimeError) (world : World) (h : ends (.error e world)) :
    Requests asks answers ends fun _ => .error e world
  /-- It asks for a job; an error of the job is its own. -/
  | ask (job : Job) (world : World)
    (next : Value → World → (Job → World → Outcome Value) → Outcome α) (leave : World → World)
    (asked : asks job world)
    (onValue : ∀ v w, answers job world (.value v w) → Requests asks answers ends (next v w))
    (onError : ∀ e w, answers job world (.error e w) → ends (.error e (leave w))) :
    Requests asks answers ends fun recur =>
      (recur job world).resume (fun v w => next v w recur) leave

namespace Requests

variable {α β : Type} {asks asks' : Job → World → Prop}
  {answers : Job → World → Outcome Value → Prop} {ends : Outcome α → Prop}
  {F : (Job → World → Outcome Value) → Outcome α}

/-! ## Building computations -/

theorem of_eq {G : (Job → World → Outcome Value) → Outcome α} (h : ∀ recur, F recur = G recur)
    (hG : Requests asks answers ends G) : Requests asks answers ends F := by
  obtain rfl : F = G := funext h
  exact hG

/-- More may be asked for, and less may be promised at the end. -/
theorem imp {ends' : Outcome α → Prop} (hF : Requests asks answers ends F)
    (ha : ∀ job world, asks job world → asks' job world) (he : ∀ o, ends o → ends' o) :
    Requests asks' answers ends' F := by
  induction hF with
  | value a world h => exact .value a world (he _ h)
  | error e world h => exact .error e world (he _ h)
  | ask job world next leave asked _ onError ih =>
    exact .ask job world next leave (ha _ _ asked) ih fun e w h => he _ (onError e w h)

theorem ofExcept (result : Except RuntimeError α) (world : World)
    (hok : ∀ a, result = .ok a → ends (.value a world))
    (herror : ∀ e, result = .error e → ends (.error e world)) :
    Requests asks answers ends fun _ => .ofExcept result world := by
  cases result with
  | ok a => exact .value a world (hok a rfl)
  | error e => exact .error e world (herror e rfl)

theorem recur {job : Job} {world : World} {ends : Outcome Value → Prop} (asked : asks job world)
    (hv : ∀ v w, answers job world (.value v w) → ends (.value v w))
    (he : ∀ e w, answers job world (.error e w) → ends (.error e w)) :
    Requests asks answers ends fun recur => recur job world := by
  refine of_eq (fun recur => (Outcome.resume_value _).symm) ?_
  exact .ask job world (fun v w _ => .value v w) id asked
    (fun v w h => .value v w (hv v w h)) fun e w h => he e w h

theorem andThen {ends₁ : Outcome β → Prop} {G : (Job → World → Outcome Value) → Outcome β}
    {next : β → World → (Job → World → Outcome Value) → Outcome α}
    (hG : Requests asks answers ends₁ G)
    (hnext : ∀ b w, ends₁ (.value b w) → Requests asks answers ends (next b w))
    (herror : ∀ e w, ends₁ (.error e w) → ends (.error e w)) :
    Requests asks answers ends fun recur => (G recur).andThen fun b w => next b w recur := by
  induction hG with
  | value b world h => exact hnext b world h
  | error e world h => exact .error e world (herror e world h)
  | ask job world after leave asked _ onError ih =>
    refine of_eq (fun recur => Outcome.resume_andThen _ _ _ _) ?_
    exact .ask job world (fun v w recur => (after v w recur).andThen fun b w => next b w recur)
      leave asked ih fun e w h => herror e _ (onError e w h)

theorem afterwards {ends₁ : Outcome α → Prop} (hF : Requests asks answers ends₁ F)
    {f : World → World} (hends : ∀ o, ends₁ o → ends (o.afterwards f)) :
    Requests asks answers ends fun recur => (F recur).afterwards f := by
  induction hF with
  | value a world h => exact .value a (f world) (hends _ h)
  | error e world h => exact .error e (f world) (hends _ h)
  | ask job world next leave asked _ onError ih =>
    refine of_eq (fun recur => Outcome.resume_afterwards _ _ _ _) ?_
    exact .ask job world (fun v w recur => (next v w recur).afterwards f) (f ∘ leave) asked ih
      fun e w h => hends _ (onError e w h)

/-! ## What all such computations have in common -/

/-- What is given runs jobs as promised: those asked for end as `answers` says. -/
def Keeps (asks : Job → World → Prop) (answers : Job → World → Outcome Value → Prop)
    (recur : Job → World → Outcome Value) : Prop :=
  ∀ job world, asks job world → recur job world ≠ .outOfFuel → answers job world (recur job world)

/-- `recur'` answers whatever `recur` answers, and in the same way. -/
def Extends (recur recur' : Job → World → Outcome Value) : Prop :=
  ∀ job world, recur job world ≠ .outOfFuel → recur' job world = recur job world

theorem sound (hF : Requests asks answers ends F) {recur : Job → World → Outcome Value}
    (hr : Keeps asks answers recur) (h : F recur ≠ .outOfFuel) : ends (F recur) := by
  induction hF with
  | value a world hv => exact hv
  | error e world he => exact he
  | ask job world next leave asked _ onError ih =>
    have hk := hr job world asked
    cases ho : recur job world with
    | value v w =>
      simp only [ho, Outcome.resume] at h hk ⊢
      exact ih v w (hk (by simp)) h
    | error e w =>
      simp only [ho, Outcome.resume] at hk ⊢
      exact onError e w (hk (by simp))
    | outOfFuel => simp [ho, Outcome.resume] at h

/-- Only the answers to the jobs asked for matter. -/
theorem congr (hF : Requests asks answers ends F) {recur recur' : Job → World → Outcome Value}
    (hr : Keeps asks answers recur)
    (h : ∀ job world, asks job world → recur' job world = recur job world) :
    F recur' = F recur := by
  induction hF with
  | value a world _ => rfl
  | error e world _ => rfl
  | ask job world next leave asked _ _ ih =>
    have hk := hr job world asked
    simp only [h job world asked]
    cases ho : recur job world with
    | value v w =>
      simp only [ho] at hk
      exact ih v w (hk (by simp))
    | error e w => rfl
    | outOfFuel => rfl

/-- More answers keep a finished outcome. -/
theorem mono (hF : Requests asks answers ends F) {recur recur' : Job → World → Outcome Value}
    (hr : Keeps asks answers recur) (hx : Extends recur recur') (h : F recur ≠ .outOfFuel) :
    F recur' = F recur := by
  induction hF with
  | value a world _ => rfl
  | error e world _ => rfl
  | ask job world next leave asked _ _ ih =>
    have hk := hr job world asked
    have hj := hx job world
    cases ho : recur job world with
    | value v w =>
      simp only [ho, Outcome.resume] at h hk hj ⊢
      rw [hj (by simp)]
      exact ih v w (hk (by simp)) h
    | error e w =>
      simp only [ho] at hj
      simp [hj, ho, Outcome.resume]
    | outOfFuel => simp [ho, Outcome.resume] at h

/-- A computation without an outcome waits for a job: it has asked for it, the job has no outcome,
and if the job failed, so would the computation. -/
theorem stuck (hF : Requests asks answers ends F) {recur : Job → World → Outcome Value}
    (hr : Keeps asks answers recur) (h : F recur = .outOfFuel) :
    ∃ job world, asks job world ∧ recur job world = .outOfFuel ∧
      ∀ recur', Extends recur recur' → ∀ e w, recur' job world = .error e w →
        ∃ w', F recur' = .error e w' := by
  induction hF with
  | value a world _ => simp at h
  | error e world _ => simp at h
  | ask job world next leave asked _ _ ih =>
    have hk := hr job world asked
    cases ho : recur job world with
    | value v w =>
      simp only [ho, Outcome.resume] at h hk
      obtain ⟨job', world', hasked, hout, hfail⟩ := ih v w (hk (by simp)) h
      refine ⟨job', world', hasked, hout, fun recur' hx e w' he => ?_⟩
      have hj : recur' job world = .value v w := by rw [hx job world (by simp [ho]), ho]
      simp only [hj, Outcome.resume]
      exact hfail recur' hx e w' he
    | error e w => simp [ho, Outcome.resume] at h
    | outOfFuel =>
      refine ⟨job, world, asked, ho, fun recur' _ e w he => ⟨leave w, ?_⟩⟩
      simp [he, Outcome.resume]

/-- Of ever more answers, finitely many are enough for an outcome. -/
theorem compact (hF : Requests asks answers ends F) {run : Nat → Job → World → Outcome Value}
    {limit : Job → World → Outcome Value} (hr : Keeps asks answers limit)
    (hmono : ∀ n m, n ≤ m → Extends (run n) (run m))
    (hlimit : ∀ job world, limit job world ≠ .outOfFuel →
      ∃ n, run n job world = limit job world)
    (h : F limit ≠ .outOfFuel) : ∃ n, ∀ m, n ≤ m → F (run m) = F limit := by
  induction hF with
  | value a world _ => exact ⟨0, fun _ _ => rfl⟩
  | error e world _ => exact ⟨0, fun _ _ => rfl⟩
  | ask job world next leave asked _ _ ih =>
    have hk := hr job world asked
    have settled (hne : limit job world ≠ .outOfFuel) :
        ∃ n, ∀ m, n ≤ m → run m job world = limit job world := by
      obtain ⟨n, hn⟩ := hlimit job world hne
      exact ⟨n, fun m hm => by rw [← hn, hmono n m hm job world (by rw [hn]; exact hne)]⟩
    cases ho : limit job world with
    | value v w =>
      obtain ⟨n₁, h₁⟩ := settled (by simp [ho])
      simp only [ho, Outcome.resume] at h hk
      obtain ⟨n₂, h₂⟩ := ih v w (hk (by simp)) h
      refine ⟨max n₁ n₂, fun m hm => ?_⟩
      simp only [h₁ m (by omega), ho, Outcome.resume]
      exact h₂ m (by omega)
    | error e w =>
      obtain ⟨n, hn⟩ := settled (by simp [ho])
      exact ⟨n, fun m hm => by simp [hn m hm, ho, Outcome.resume]⟩
    | outOfFuel => simp [ho, Outcome.resume] at h

end Requests

end Engine

end CallScript
