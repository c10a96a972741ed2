import CallScript.Proofs.Program.Parsing
import Mathlib.Data.List.Induction

/-!
# Where parsing fails and what is expected there

Every state of the parser can still come to the end of a program (`State.canFinish`), so tokens lead
to a state exactly if some program starts with them (`viable_iff`).  The parser therefore fails at
the first token that no program continues with, or at the end if there is none, and the kinds that
its state accepts there are those that some program continues with (`parseTokens_eq_error`).
-/

namespace CallScript.Program

/-! ## First tokens of programs -/

/-- Tokens that some program starts with. -/
def Viable (tokens : List (Placed Token)) : Prop :=
  ∃ tree rest, Derives (.block tree) (tokens ++ rest)

/-- A kind of token that some program continues tokens with. -/
def Continues (before : List (Placed Token)) (kind : Token.Kind) : Prop :=
  ∃ token : Placed Token, token.item.kind = kind ∧ Viable (before ++ [token])

/-- The words for the kinds that some program continues tokens with, in the order of all kinds.
There are none exactly after a whole program. -/
def Expected (before : List (Placed Token)) (words : List String) : Prop :=
  ∃ kinds : List Token.Kind, words = kinds.map Token.Kind.word ∧ kinds.Sublist Token.Kind.all ∧
    (∀ kind, kind ∈ kinds ↔ Continues before kind) ∧
    (kinds = [] ↔ ∃ tree, Derives (.block tree) before)

namespace State

/-! ## Every state can finish -/

/-- Some tokens lead from a state to the end of a program. -/
def CanFinish (state : State) : Prop :=
  ∃ tokens tree, state.run tokens = some (.done tree)

theorem CanFinish.of_step {state next : State} (h : next.CanFinish) (item : Token)
    (hstep : state.step ⟨item, ⟨0, 0⟩⟩ = some next) : state.CanFinish := by
  obtain ⟨tokens, tree, hrun⟩ := h
  exact ⟨⟨item, ⟨0, 0⟩⟩ :: tokens, tree, by rw [run_cons, hstep, Option.bind_some, hrun]⟩

mutual

/-- After a block, the constructs around it are closed one by one. -/
theorem canFinish_closeBlock : ∀ (outer : BlockContext) (tree : Tree.Block),
    (closeBlock tree outer).CanFinish
  | .root, tree => ⟨[], tree, rfl⟩
  | .argument _ _ outer, _ => (canFinish_closeCall outer _).of_step .closeParen rfl

/-- After a call, the constructs around it are closed one by one. -/
theorem canFinish_closeCall : ∀ (outer : CallContext) (tree : Tree.Call),
    (closeCall tree outer).CanFinish
  | .statement _ _ outer, _ => (canFinish_closeBlock outer _).of_step .closeBrace rfl
  | .argument _ _ outer, _ => (canFinish_closeCall outer _).of_step .closeParen rfl

end

theorem canFinish_filledCall (name : Lexeme) (arguments : List Tree.Argument)
    (outer : CallContext) : (call name arguments .filled outer).CanFinish :=
  (canFinish_closeCall outer _).of_step .closeParen rfl

theorem canFinish_callName (name : Lexeme) (outer : CallContext) :
    (callName name outer).CanFinish := by
  have hopened : (call name [] .opened outer).CanFinish :=
    (canFinish_closeCall outer _).of_step .closeParen rfl
  exact hopened.of_step .openParen rfl

/-- Wherever a parser stands, some tokens complete a program. -/
theorem canFinish (state : State) : state.CanFinish := by
  cases state with
  | initial =>
    have hopened : (block 0 [] .opened .root).CanFinish :=
      (canFinish_closeBlock .root _).of_step .closeBrace rfl
    exact hopened.of_step .openBrace rfl
  | block start calls progress outer =>
    cases progress with
    | opened => exact (canFinish_closeBlock outer _).of_step .closeBrace rfl
    | filled => exact (canFinish_closeBlock outer _).of_step .closeBrace rfl
    | separated => exact (canFinish_callName _ _).of_step (.name "") rfl
  | callName name outer => exact canFinish_callName name outer
  | call name arguments progress outer =>
    cases progress with
    | opened => exact (canFinish_closeCall outer _).of_step .closeParen rfl
    | filled => exact canFinish_filledCall name arguments outer
    | separated => exact (canFinish_filledCall name _ outer).of_step (.number "") rfl
  | word lexeme name arguments outer =>
    exact (canFinish_closeCall outer _).of_step .closeParen rfl
  | done tree => exact ⟨[], tree, rfl⟩

/-! ## What states accept -/

/-- A state goes on with exactly the tokens of the kinds it accepts. -/
theorem isSome_step (state : State) (token : Placed Token) :
    (state.step token).isSome = state.accepts token.item.kind := by
  obtain ⟨item, span⟩ := token
  cases state with
  | initial => cases item <;> rfl
  | block start calls progress outer => cases progress <;> cases item <;> rfl
  | callName name outer => cases item <;> rfl
  | call name arguments progress outer => cases progress <;> cases item <;> rfl
  | word lexeme name arguments outer => cases item <;> rfl
  | done tree => cases item <;> rfl

/-- A state that accepts no kind of token has read a whole program. -/
theorem exists_eq_done {state : State} (h : ∀ kind, state.accepts kind = false) :
    ∃ tree, state = .done tree := by
  cases state with
  | initial => exact absurd (h .openBrace) (by simp [accepts])
  | block start calls progress outer =>
    cases progress with
    | opened => exact absurd (h .closeBrace) (by simp [accepts])
    | filled => exact absurd (h .closeBrace) (by simp [accepts])
    | separated => exact absurd (h .name) (by simp [accepts])
  | callName name outer => exact absurd (h .openParen) (by simp [accepts])
  | call name arguments progress outer =>
    cases progress with
    | opened => exact absurd (h .closeParen) (by simp [accepts])
    | filled => exact absurd (h .closeParen) (by simp [accepts])
    | separated => exact absurd (h .name) (by simp [accepts])
  | word lexeme name arguments outer => exact absurd (h .closeParen) (by simp [accepts])
  | done tree => exact ⟨tree, rfl⟩

end State

open State

/-- The parser comes to a state exactly after first tokens of programs. -/
theorem viable_iff {tokens : List (Placed Token)} :
    Viable tokens ↔ ∃ state, initial.run tokens = some state := by
  constructor
  · rintro ⟨tree, rest, h⟩
    have hrun := run_initial_eq_done_iff.2 h
    rw [run_append] at hrun
    obtain ⟨state, hstate, -⟩ := Option.bind_eq_some_iff.1 hrun
    exact ⟨state, hstate⟩
  · rintro ⟨state, hstate⟩
    obtain ⟨rest, tree, hrest⟩ := state.canFinish
    refine ⟨tree, rest, run_initial_eq_done_iff.1 ?_⟩
    rw [run_append, hstate, Option.bind_some, hrest]

section

variable {before : List (Placed Token)} {state : State} (h : initial.run before = some state)
include h

theorem viable_concat_iff (token : Placed Token) :
    Viable (before ++ [token]) ↔ state.accepts token.item.kind = true := by
  rw [viable_iff, ← isSome_step, Option.isSome_iff_exists]
  simp [h]

/-- The kinds that a state accepts are those that some program continues with. -/
theorem continues_iff (kind : Token.Kind) : Continues before kind ↔ state.accepts kind = true := by
  constructor
  · rintro ⟨token, rfl, hviable⟩
    exact (viable_concat_iff h token).1 hviable
  · intro haccepts
    obtain ⟨item, rfl⟩ : ∃ item : Token, item.kind = kind := by
      cases kind
      case openBrace => exact ⟨.openBrace, rfl⟩
      case closeBrace => exact ⟨.closeBrace, rfl⟩
      case openParen => exact ⟨.openParen, rfl⟩
      case closeParen => exact ⟨.closeParen, rfl⟩
      case semicolon => exact ⟨.semicolon, rfl⟩
      case comma => exact ⟨.comma, rfl⟩
      case string => exact ⟨.string "", rfl⟩
      case number => exact ⟨.number "", rfl⟩
      case name => exact ⟨.name "", rfl⟩
    exact ⟨⟨item, ⟨0, 0⟩⟩, rfl, (viable_concat_iff h ⟨item, ⟨0, 0⟩⟩).2 haccepts⟩

theorem expected_of_run : Expected before state.expected := by
  have hmem (kind : Token.Kind) : kind ∈ Token.Kind.all.filter state.accepts ↔
      state.accepts kind = true := by
    have hall : kind ∈ Token.Kind.all := by cases kind <;> decide
    rw [List.mem_filter, and_iff_right hall]
  refine ⟨_, rfl, List.filter_sublist, fun kind => ?_, fun hempty => ?_, ?_⟩
  · rw [hmem, continues_iff h]
  · obtain ⟨tree, rfl⟩ : ∃ tree, state = .done tree := by
      refine exists_eq_done fun kind => ?_
      rw [← Bool.not_eq_true, ← hmem, hempty]
      exact List.not_mem_nil
    exact ⟨tree, run_initial_eq_done_iff.1 h⟩
  · rintro ⟨tree, htree⟩
    rw [run_initial_eq_done_iff.2 htree] at h
    cases h
    rfl

end

/-! ## Where the parser fails -/

theorem parseFrom_eq_unexpectedToken {state stuck : State} {before : List (Placed Token)}
    (h : state.run before = some stuck) {token : Placed Token} (hstep : stuck.step token = none)
    (stop : Nat) (after : List (Placed Token)) :
    parseFrom state stop (before ++ token :: after) =
      .error ⟨.unexpectedToken token.item.text stuck.expected, token.span⟩ := by
  induction before generalizing state stop with
  | nil =>
    cases h
    simp [parseFrom, hstep]
  | cons first before ih =>
    rw [run_cons] at h
    obtain ⟨next, hfirst, hrun⟩ := Option.bind_eq_some_iff.1 h
    simp only [List.cons_append, parseFrom, hfirst]
    exact ih hrun first.span.stop

theorem parseFrom_eq_unexpectedEnd {state last : State} {tokens : List (Placed Token)}
    (h : state.run tokens = some last) (hlast : ∀ tree, last ≠ .done tree) (stop : Nat) :
    parseFrom state stop tokens =
      let stop := (tokens.getLast?.map fun token => token.span.stop).getD stop
      .error ⟨.unexpectedEnd last.expected, ⟨stop, stop⟩⟩ := by
  induction tokens generalizing state stop with
  | nil =>
    cases h
    cases last with
    | done tree => exact absurd rfl (hlast tree)
    | _ => rfl
  | cons first tokens ih =>
    rw [run_cons] at h
    obtain ⟨next, hfirst, hrun⟩ := Option.bind_eq_some_iff.1 h
    simp only [parseFrom, hfirst, ih hrun, List.getLast?_cons]
    cases tokens.getLast? <;> rfl

/-- Tokens that are not the first tokens of a program have a first one that shows it. -/
theorem exists_first_unviable {tokens : List (Placed Token)} (h : ¬Viable tokens) :
    ∃ before token after, tokens = before ++ token :: after ∧ Viable before ∧
      ¬Viable (before ++ [token]) := by
  induction tokens using List.reverseRecOn with
  | nil => exact absurd (viable_iff.2 ⟨.initial, rfl⟩) h
  | append_singleton tokens token ih =>
    by_cases hviable : Viable tokens
    · exact ⟨tokens, token, [], rfl, hviable, h⟩
    · obtain ⟨before, first, after, rfl, hbefore, hfirst⟩ := ih hviable
      exact ⟨before, first, after ++ [token], by simp, hbefore, hfirst⟩

/-- Of tokens that are no program and not nested too deep, the parser reports the first one that no
program continues with, or the end if there is none, and says what could have followed. -/
theorem parseTokens_eq_error {tokens : List (Placed Token)} (hdeep : tooDeep? 0 tokens = none)
    (hnone : ∀ tree, ¬Derives (.block tree) tokens) :
    (∀ before token after, tokens = before ++ token :: after → Viable before →
      ¬Viable (before ++ [token]) →
        ∃ words, parseTokens tokens = .error ⟨.unexpectedToken token.item.text words, token.span⟩ ∧
          Expected before words) ∧
    (Viable tokens →
      ∃ words, parseTokens tokens =
          .error ⟨.unexpectedEnd words, ⟨lastStop tokens, lastStop tokens⟩⟩ ∧
        Expected tokens words) ∧
    (¬Viable tokens → ∃ before token after, tokens = before ++ token :: after ∧ Viable before ∧
      ¬Viable (before ++ [token])) := by
  have hparse : parseTokens tokens = parseFrom .initial 0 tokens := by rw [parseTokens, hdeep]
  rw [hparse]
  refine ⟨?_, fun hviable => ?_, exists_first_unviable⟩
  · rintro before token after rfl hviable htoken
    obtain ⟨stuck, hrun⟩ := viable_iff.1 hviable
    have hstep : stuck.step token = none := by
      rw [viable_concat_iff hrun, ← isSome_step] at htoken
      simpa using htoken
    exact ⟨stuck.expected, parseFrom_eq_unexpectedToken hrun hstep 0 after, expected_of_run hrun⟩
  · obtain ⟨last, hrun⟩ := viable_iff.1 hviable
    have hlast (tree : Tree.Block) : last ≠ .done tree := by
      rintro rfl
      exact hnone tree (run_initial_eq_done_iff.1 hrun)
    exact ⟨last.expected, parseFrom_eq_unexpectedEnd hrun hlast 0, expected_of_run hrun⟩

/-- A comma before a closing parenthesis, and the same tokens up to the comma. -/
theorem parseTokens_eq_error_after_comma :
    let before : List (Placed Token) := [⟨.openBrace, ⟨0, 1⟩⟩, ⟨.name "f", ⟨1, 2⟩⟩,
      ⟨.openParen, ⟨2, 3⟩⟩, ⟨.name "x", ⟨3, 4⟩⟩, ⟨.comma, ⟨4, 5⟩⟩]
    let tokens := before ++ [⟨.closeParen, ⟨5, 6⟩⟩, ⟨.closeBrace, ⟨6, 7⟩⟩]
    tooDeep? 0 tokens = none ∧ (∀ tree, ¬Derives (.block tree) tokens) ∧
      (∃ words, parseTokens tokens = .error ⟨.unexpectedToken ")" words, ⟨5, 6⟩⟩ ∧
        Expected before words) ∧
      ∃ words, parseTokens before = .error ⟨.unexpectedEnd words, ⟨5, 5⟩⟩ ∧
        Expected before words := by
  intro before tokens
  have hrun : initial.run before = some (.call ⟨"f", ⟨1, 2⟩⟩ [.name ⟨"x", ⟨3, 4⟩⟩] .separated
    (.statement 0 [] .root)) := rfl
  have hviable : Viable before := viable_iff.2 ⟨_, hrun⟩
  have htoken : ¬Viable (before ++ [⟨.closeParen, ⟨5, 6⟩⟩]) := by
    rw [viable_concat_iff hrun]
    decide
  have htokens (tree : Tree.Block) : ¬Derives (.block tree) tokens := fun h =>
    nomatch run_initial_eq_done_iff.2 h
  have hbefore (tree : Tree.Block) : ¬Derives (.block tree) before := fun h =>
    nomatch run_initial_eq_done_iff.2 h
  refine ⟨rfl, htokens, ?_, ?_⟩
  · exact (parseTokens_eq_error rfl htokens).1 before _ _ rfl hviable htoken
  · exact (parseTokens_eq_error rfl hbefore).2.1 hviable

end CallScript.Program
