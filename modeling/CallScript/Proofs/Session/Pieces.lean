import CallScript.Proofs.Session.InPlace
import CallScript.Proofs.Session.Invariant

/-!
# A program in several runs

A block counts back to the depth it started at, and what it leaves behind is the whole state that
the next one starts from.  So the calls of a block may be cut into pieces that are run one after
another, up to the first that fails (`Session.executeEach`): the answer is that of the whole block,
and so is the session after it (`Session.execute_pieces`).
-/

namespace CallScript

open Engine

namespace Engine

variable {engine : Engine} {recur : Job → World → Outcome Value} {f : Frame}

/-! ## Calls in two blocks -/

/-- The value before a call does not matter to what the call comes to. -/
theorem invokeAll_of_ne_nil {calls : List Call} (h : calls ≠ []) (last last' : Value) (w : World) :
    invokeAll engine recur f last calls w = invokeAll engine recur f last' calls w := by
  cases calls with
  | nil => exact absurd rfl h
  | cons call calls => rfl

/-- Calls leave the depth they are made at. -/
theorem invokeAll_atDepth (fuel : Nat) (last : Value) (calls : List Call) (w : World) :
    (invokeAll engine (engine.run fuel) f last calls w).AtDepth w.depth := by
  by_cases hend : invokeAll engine (engine.run fuel) f last calls w = .outOfFuel
  · rw [hend]
    trivial
  · exact (invokeAll_counts calls last rfl).sound (fun job w _ _ => run_atDepth fuel job w) hend

/-- The calls of a block may be run in two blocks, one after the other. -/
theorem run_calls_append (fuel : Nat) (before : List Call) {rest : List Call} (hrest : rest ≠ [])
    (w : World) :
    engine.run fuel (.calls f (before ++ rest)) w =
      (engine.run fuel (.calls f before) w).andThen fun _ w =>
        engine.run fuel (.calls f rest) w := by
  cases fuel with
  | zero => rfl
  | succ fuel =>
    simp only [run_succ, step]
    by_cases hdepth : w.depth < f.maxDepth
    · have hafter : (invokeAll engine (engine.run fuel) f .none before
          (w.atDepth (w.depth + 1))).AtDepth (w.depth + 1) := invokeAll_atDepth fuel _ _ _
      rw [runCalls, runCalls, if_pos hdepth, if_pos hdepth, invokeAll_append]
      cases hbefore : invokeAll engine (engine.run fuel) f .none before
          (w.atDepth (w.depth + 1)) with
      | value v w' =>
        rw [hbefore] at hafter
        have hback : (w'.atDepth (w'.depth - 1)).depth = w.depth := World.depth_leave hafter
        -- The second block enters the world that the first one has left.
        have hagain : (w'.atDepth (w'.depth - 1)).atDepth (w.depth + 1) = w' :=
          congrArg w'.atDepth hafter.symm
        simp only [Outcome.andThen_value, Outcome.afterwards, runCalls, hback, hdepth, if_true,
          hagain]
        rw [invokeAll_of_ne_nil hrest v .none]
      | error e w' => rfl
      | outOfFuel => rfl
    · rw [runCalls, runCalls, if_neg hdepth, if_neg hdepth]
      rfl

end Engine

namespace Session

/-! ## Pieces of a program -/

/-- Runs blocks one after another, up to the first that fails. -/
def executeEach (session : Session) (fuel : Nat) (first : Block) :
    List Block → Except Failure Value × Session
  | [] => session.execute fuel first
  | next :: rest =>
    match session.execute fuel first with
    | (.ok _, after) => after.executeEach fuel next rest
    | (.error e, after) => (.error e, after)

/-- The second answer has the result of the first, and leaves the same session behind if the first
operation comes to an end. -/
def SameAnswer (answer answer' : Except Failure Value × Session) : Prop :=
  answer.1 = answer'.1 ∧ (Returns answer → answer = answer')

theorem SameAnswer.trans {a b c : Except Failure Value × Session} (hab : SameAnswer a b)
    (hbc : SameAnswer b c) : SameAnswer a c := by
  refine ⟨hab.1.trans hbc.1, fun hreturns => ?_⟩
  have hsame := hab.2 hreturns
  exact hsame.trans (hbc.2 (hsame ▸ hreturns))

theorem SameAnswer.eq_of_returns {a b : Except Failure Value × Session} (h : SameAnswer a b)
    (hb : Returns b) : a = b :=
  h.2 (h.1.trans_ne hb)

theorem execute_append (session : Session) (fuel : Nat) (before : List Call) {rest : List Call}
    (hrest : rest ≠ []) :
    SameAnswer (session.execute fuel ⟨before ++ rest⟩)
      (session.executeEach fuel ⟨before⟩ [⟨rest⟩]) := by
  simp only [executeEach, execute, run_calls_append fuel before hrest]
  cases hbefore : session.engine.run fuel (.calls session.frame before) session.world with
  | value v w =>
    show SameAnswer
      (conclude (session.settle (session.engine.run fuel (.calls session.frame rest) w)))
      (conclude (Session.settle { session with world := w, stage := .completed }
        (session.engine.run fuel (.calls session.frame rest) w)))
    cases session.engine.run fuel (.calls session.frame rest) w with
    | value v' w' => exact ⟨rfl, fun _ => rfl⟩
    | error e w' => exact ⟨rfl, fun _ => rfl⟩
    | outOfFuel => exact ⟨rfl, fun hreturns => absurd rfl hreturns⟩
  | error e w => exact ⟨rfl, fun _ => rfl⟩
  | outOfFuel => exact ⟨rfl, fun _ => rfl⟩

/-- What follows a block may be replaced by what gives the same answers. -/
theorem SameAnswer.executeEach {session : Session} {fuel : Nat} {first next next' : Block}
    {rest rest' : List Block}
    (h : ∀ after : Session,
      SameAnswer (after.executeEach fuel next rest) (after.executeEach fuel next' rest')) :
    SameAnswer (session.executeEach fuel first (next :: rest))
      (session.executeEach fuel first (next' :: rest')) := by
  simp only [Session.executeEach]
  split
  · exact h _
  · exact ⟨rfl, fun _ => rfl⟩

theorem execute_flatten (session : Session) (fuel : Nat) (first : List Call)
    {rest : List (List Call)} (hrest : ∀ piece ∈ rest, piece ≠ []) :
    SameAnswer (session.execute fuel ⟨first ++ rest.flatten⟩)
      (session.executeEach fuel ⟨first⟩ (rest.map Block.mk)) := by
  induction rest generalizing session first with
  | nil =>
    rw [List.flatten_nil, List.append_nil]
    exact ⟨rfl, fun _ => rfl⟩
  | cons next rest ih =>
    have hnext : next ++ rest.flatten ≠ [] :=
      fun h => hrest next List.mem_cons_self (List.append_eq_nil_iff.1 h).1
    refine (execute_append session fuel first hnext).trans (.executeEach fun after => ?_)
    exact ih after next fun piece hpiece => hrest piece (List.mem_cons_of_mem _ hpiece)

/-- No call after one that fails is made. -/
theorem execute_cons_of_error (session : Session) {fuel : Nat} {call : Call} {e : RuntimeError}
    {final : Session} (h : session.execute fuel ⟨[call]⟩ = (.error (.runtime e), final))
    (after : List Call) : session.execute fuel ⟨call :: after⟩ = (.error (.runtime e), final) := by
  by_cases hafter : after = []
  · rw [hafter, h]
  · have heach : session.executeEach fuel ⟨[call]⟩ [⟨after⟩] = (.error (.runtime e), final) := by
      simp only [executeEach, h]
    refine heach ▸ (session.execute_append fuel [call] hafter).eq_of_returns ?_
    simp [heach, Returns]

/-- The calls of a block may be run in pieces, one after another up to the first that fails: the
answer is the same, and so is the session that is left behind.  A call that fails after the calls
before it have been run gives the block its answer, whatever calls come after it. -/
theorem execute_pieces (session : Session) (fuel : Nat) (first : List Call)
    (rest : List (List Call)) (hrest : ∀ piece ∈ rest, piece ≠ []) :
    SameAnswer (session.execute fuel ⟨first ++ rest.flatten⟩)
      (session.executeEach fuel ⟨first⟩ (rest.map Block.mk)) ∧
    ∀ before call after v middle e final,
      session.execute fuel ⟨before⟩ = (.ok v, middle) →
      middle.execute fuel ⟨[call]⟩ = (.error (.runtime e), final) →
      session.execute fuel ⟨before ++ call :: after⟩ = (.error (.runtime e), final) := by
  refine ⟨execute_flatten session fuel first hrest, ?_⟩
  intro before call after v middle e final hbefore hcall
  have hfails : middle.execute fuel ⟨call :: after⟩ = (.error (.runtime e), final) :=
    middle.execute_cons_of_error hcall after
  have hrest : session.executeEach fuel ⟨before⟩ [⟨call :: after⟩] =
      (.error (.runtime e), final) := by
    simp only [executeEach, hbefore, hfails]
  refine hrest ▸ (session.execute_append fuel before (List.cons_ne_nil call after)).eq_of_returns ?_
  simp [hrest, Returns]

/-- Prints a line in a first piece; then binds `x`, and fails for calling it inside a call that
would print; then would print another line. -/
def failingPieces : List (List Call) :=
  [[⟨"out", [.string "a"]⟩],
    [⟨"set", [.name "x", .number 1]⟩, ⟨"out", [.name "x", .call ⟨"x", []⟩]⟩],
    [⟨"out", [.string "b"]⟩]]

/-- The whole fails as the second piece does: `x` stays bound, and one line is printed. -/
theorem execute_pieces_failing :
    let session := Session.new .stock .captured 2
    let answer := session.execute 2 ⟨failingPieces.flatten⟩
    (∀ piece ∈ failingPieces, piece ≠ []) ∧
    answer = session.executeEach 2 ⟨[⟨"out", [.string "a"]⟩]⟩ (failingPieces.tail.map Block.mk) ∧
    answer.1 = .error (.runtime (.notCallable "x" .number)) ∧
    answer.2.environment.getRaw? "x" = some (.number 1) ∧
    answer.2.world.captured = #["a"] ∧ answer.2.stage = .failed := by
  intro session answer
  have hresult : answer.1 = .error (.runtime (.notCallable "x" .number)) := by rfl
  have hsame := (session.execute_pieces 2 [⟨"out", [.string "a"]⟩] failingPieces.tail
    (by simp [failingPieces])).1
  have hreturns : Returns answer := by
    rw [Returns, hresult]
    rintro ⟨⟩
  exact ⟨by simp [failingPieces], hsame.2 hreturns, hresult, rfl, rfl, rfl⟩

end Session

end CallScript
