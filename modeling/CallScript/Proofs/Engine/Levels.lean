import CallScript.Engine.Run
import CallScript.Proofs.Program.Parsing
import CallScript.Proofs.Value.Failures

/-!
# Levels of blocks

`Job.levels` says how many blocks a job runs inside one another, read off from what is written in
it: a call counts for the block that it is run in when it is an argument.  The brackets of a program
are nested at least as deep (`Block.levels_ofTree_le`), and the parser bounds them
(`Block.levels_le_of_parse`).  Built-in functions load the arguments they are given, so they nest no
further than those (`Procedure.Within.builtin`).
-/

namespace CallScript

/-! ## Levels -/

mutual

/-- How many blocks are run inside one another for the value of an argument. -/
def Argument.levels : Argument → Nat
  | .number _ => 0
  | .string _ => 0
  | .name _ => 0
  | .call c => c.levels + 1
  | .block b => b.levels

/-- How many blocks are run inside one another for the values of arguments. -/
def Argument.listLevels : List Argument → Nat
  | [] => 0
  | argument :: arguments => max argument.levels (Argument.listLevels arguments)

/-- How many blocks are run inside one another by a call. -/
def Call.levels : Call → Nat
  | ⟨_, arguments⟩ => Argument.listLevels arguments

/-- How many blocks are run inside one another by calls. -/
def Call.listLevels : List Call → Nat
  | [] => 0
  | call :: calls => max call.levels (Call.listLevels calls)

/-- How many blocks are run inside one another by a block. -/
def Block.levels : Block → Nat
  | ⟨calls⟩ => Call.listLevels calls + 1

end

/-- How many blocks are run inside one another by a job, if it calls no definition. -/
def Job.levels : Job → Nat
  | .calls _ inner => Call.listLevels inner + 1
  | .expression .. => 0

theorem Call.levels_eq (call : Call) : call.levels = Argument.listLevels call.arguments := by
  obtain ⟨name, arguments⟩ := call
  rfl

theorem Block.levels_eq (block : Block) : block.levels = Call.listLevels block.calls + 1 := by
  obtain ⟨calls⟩ := block
  rfl

theorem Argument.levels_le_of_mem {argument : Argument} {arguments : List Argument}
    (h : argument ∈ arguments) : argument.levels ≤ Argument.listLevels arguments := by
  rw [eq_foldr_max_of_cons (f := Argument.levels) (g := Argument.listLevels) rfl fun _ _ => rfl]
  exact le_foldr_max Argument.levels h

mutual

theorem Argument.levels_ofTree_le : (tree : Program.Tree.Argument) →
    (Argument.ofTree tree).levels ≤ tree.nesting
  | .number _ | .string _ | .name _ => Nat.zero_le _
  | .call c => by
    have h := Call.levels_ofTree_lt c
    simp only [Argument.ofTree, Argument.levels, Program.Tree.Argument.nesting]
    omega
  | .block b => by
    have h := Block.levels_ofTree_le b
    simpa only [Argument.ofTree, Argument.levels, Program.Tree.Argument.nesting] using h

theorem Argument.listLevels_ofTree_le : (trees : List Program.Tree.Argument) →
    Argument.listLevels (Argument.listOfTree trees) ≤ Program.Tree.Argument.listNesting trees
  | [] => Nat.zero_le _
  | tree :: trees => by
    have h := Argument.levels_ofTree_le tree
    have hs := Argument.listLevels_ofTree_le trees
    simp only [Argument.listOfTree, Argument.listLevels, Program.Tree.Argument.listNesting]
    omega

theorem Call.levels_ofTree_lt : (tree : Program.Tree.Call) →
    (Call.ofTree tree).levels < tree.nesting
  | ⟨name, arguments, span⟩ => by
    have h := Argument.listLevels_ofTree_le arguments
    simp only [Call.ofTree, Call.levels, Program.Tree.Call.nesting]
    omega

theorem Call.listLevels_ofTree_le : (trees : List Program.Tree.Call) →
    Call.listLevels (Call.listOfTree trees) ≤ Program.Tree.Call.listNesting trees
  | [] => Nat.zero_le _
  | tree :: trees => by
    have h := Call.levels_ofTree_lt tree
    have hs := Call.listLevels_ofTree_le trees
    simp only [Call.listOfTree, Call.listLevels, Program.Tree.Call.listNesting]
    omega

theorem Block.levels_ofTree_le : (tree : Program.Tree.Block) →
    (Block.ofTree tree).levels ≤ tree.nesting
  | ⟨calls, span⟩ => by
    have h := Call.listLevels_ofTree_le calls
    simp only [Block.ofTree, Block.levels, Program.Tree.Block.nesting]
    omega

end

/-- A program that the parser accepts runs no more blocks inside one another than the parser allows
brackets. -/
theorem Block.levels_le_of_parse {source : String} {tree : Program.Tree.Block}
    (h : Program.parse source = .ok tree) : (Block.ofTree tree).levels ≤ Program.nestingLimit := by
  have htokens : ∃ tokens, Program.parseTokens tokens = .ok tree := by
    unfold Program.parse at h
    cases hscan : Program.scan source with
    | error e => simp [hscan, bind, Except.bind] at h
    | ok tokens => exact ⟨tokens, by simpa [hscan, bind, Except.bind] using h⟩
  obtain ⟨tokens, htokens⟩ := htokens
  exact Nat.le_trans (Block.levels_ofTree_le tree) (Program.parseTokens_iff_derives.1 htokens).2

/-! ## Procedures that nest no further than their arguments -/

/-- A procedure asks only for the values of arguments that show at most `n` levels, and does not
fail for nesting of its own accord. -/
inductive Procedure.Within (n : Nat) : Procedure → Prop where
  | done {value : Value} : Within n (.done value)
  | fail {e : RuntimeError} (he : e.IsOrdinary) : Within n (.fail e)
  | load {argument : Argument} {next : Value → Procedure} (ha : argument.levels ≤ n)
    (hnext : ∀ v, Within n (next v)) : Within n (.load argument next)
  | print {line : String} {next : Procedure} (hnext : Within n next) : Within n (.print line next)
  | inspect {next : Environment → Nat → Procedure}
    (hnext : ∀ env depth, Within n (next env depth)) : Within n (.inspect next)
  | define {name : String} {value : Value} {next : Procedure} (hnext : Within n next) :
    Within n (.define name value next)
  | defineBlock {name : String} {body : Block} {next : Procedure} (hnext : Within n next) :
    Within n (.defineBlock name body next)
  | evaluate {source : String} {next : Value → Procedure} (hnext : ∀ v, Within n (next v)) :
    Within n (.evaluate source next)
  | calculate {source : String} {next : Value → Procedure} (hnext : ∀ v, Within n (next v)) :
    Within n (.calculate source next)

namespace Procedure.Within

variable {n : Nat} {arguments : List Argument}

theorem loadFrom {next : List Value → Procedure} (hnext : ∀ vs, Within n (next vs))
    (h : ∀ argument ∈ arguments, argument.levels ≤ n) (loaded : List Value) :
    Within n (Procedure.loadFrom loaded next arguments) := by
  induction arguments generalizing loaded with
  | nil => exact hnext _
  | cons argument arguments ih =>
    rw [List.forall_mem_cons] at h
    exact .load h.1 fun v => ih h.2 (v :: loaded)

theorem withExpression (b : Builtin) (arguments : List Argument)
    {request : String → (Value → Procedure) → Procedure} {next : Value → Procedure}
    (hrequest : ∀ source, Within n (request source next)) (hnext : ∀ v, Within n (next v)) :
    Within n (b.withExpression arguments request next) := by
  unfold Builtin.withExpression
  split
  · exact hrequest _
  · exact hnext _
  · exact .fail nofun

/-- A built-in function nests no further than its arguments. -/
theorem builtin (b : Builtin) (h : ∀ argument ∈ arguments, argument.levels ≤ n) :
    Within n (b.procedure arguments) := by
  cases b with
  | out => exact loadFrom (fun _ => .print .done) h []
  | set =>
    simp only [Builtin.procedure]
    split
    · exact .load (h _ (by simp)) fun _ => .define .done
    · exact .fail nofun
    · exact .fail nofun
  | ret =>
    simp only [Builtin.procedure]
    split
    · exact .fail nofun
    · exact .load (h _ (by simp)) fun _ => .done
    · exact loadFrom (fun _ => .done) h []
  | define =>
    simp only [Builtin.procedure]
    split
    · exact .defineBlock .done
    · exact .fail nofun
    · exact .fail nofun
    · exact .fail nofun
  | names | dump =>
    simp only [Builtin.procedure]
    split
    · exact .inspect fun _ _ => .print .done
    · exact .fail nofun
  | calculate => exact withExpression _ _ (fun _ => .calculate fun _ => .done) fun _ => .done
  | calculateOut =>
    exact withExpression _ _ (fun _ => .calculate fun _ => .print .done) fun _ => .print .done
  | evaluate => exact withExpression _ _ (fun _ => .evaluate fun _ => .done) fun _ => .done

end Procedure.Within

end CallScript
