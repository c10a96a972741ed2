import CallScript.Engine.Stock
import CallScript.Proofs.Value.Callables
import CallScript.Session

/-!
# Where names come from

Plain bindings hand values out as they are stored, environments hand them out wrapped, and a
subscript of a wrapped mapping wraps again.  Over values without lists and functions this changes
nothing but the form of mappings: operators do not tell the two forms apart
(`Value.binary_asRead`, `Value.subscript_asRead`), so an expression comes to the same over either
kind of source, up to the form of the mapping it may come to (`Session.evaluateIn_scopes`).
-/

namespace CallScript

namespace Value

/-! ## Values without lists and functions -/

/-- A value made of nothing, numbers, strings and mappings in either form. -/
inductive IsRecord : Value → Prop where
  | none : IsRecord .none
  | number (x : Float) : IsRecord (.number x)
  | string (s : String) : IsRecord (.string s)
  | map {es : Bindings} (h : ∀ e ∈ es, IsRecord e.2) : IsRecord (.map es)
  | view {es : Bindings} (h : ∀ e ∈ es, IsRecord e.2) : IsRecord (.view es)

/-- A value with a stored mapping read as a wrapped one. -/
def asRead : Value → Value
  | .map es => .view es
  | v => v

@[simp] theorem asRead_asRead (v : Value) : v.asRead.asRead = v.asRead := by
  cases v <;> rfl

@[simp] theorem kind_asRead (v : Value) : v.asRead.kind = v.kind := by
  cases v <;> rfl

@[simp] theorem display_asRead (v : Value) : v.asRead.display = v.display := by
  cases v <;> rfl

theorem unsupported_asRead (op : BinaryOp) (left right : Value) :
    unsupported op left.asRead right.asRead = unsupported op left right := by
  simp [unsupported]

namespace IsRecord

variable {v : Value}

theorem asRead (h : v.IsRecord) : v.asRead.IsRecord := by
  cases h with
  | none => exact .none
  | number x => exact .number x
  | string s => exact .string s
  | map h => exact .view h
  | view h => exact .view h

/-- Whatever the name it is read under, only the form of a mapping changes. -/
theorem wrap (h : v.IsRecord) (name : String) : v.wrap name = v.asRead := by
  cases h <;> rfl

theorem function? (h : v.IsRecord) (name : String) : v.function? name = Option.none := by
  cases h <;> rfl

theorem product (h : v.IsRecord) (w : Value) : Value.product v w = .undefined := by
  have hitems : v.items? = Option.none := by cases h <;> rfl
  have hvector : v.vector? = Option.none := by rw [vector?, hitems]; rfl
  have hmatrix : v.matrix? = Option.none := by rw [matrix?, hitems]; rfl
  rw [Value.product, hmatrix, hvector]
  cases w.matrix? <;> rfl

theorem get? {es : Bindings} (h : ∀ e ∈ es, e.2.IsRecord) {key : String}
    (hget : Entries.get? key es = some v) : v.IsRecord :=
  h _ (Entries.mem_of_get? hget)

end IsRecord

/-! ## Operators -/

/-- A computation over values that does not tell the forms of mappings apart: it comes to the same
for values as stored and as read, and what it comes to is the same in either form. -/
structure Blind (stored read : Except RuntimeError Value) : Prop where
  read_eq : read = stored.map Value.asRead
  isRecord : ∀ v, stored = .ok v → v.IsRecord

namespace Blind

theorem error (e : RuntimeError) : Blind (.error e) (.error e) :=
  ⟨rfl, fun _ => nofun⟩

theorem number (x : Float) : Blind (.ok (.number x)) (.ok (.number x)) :=
  ⟨rfl, fun _ h => by cases h; exact .number x⟩

theorem string (s : String) : Blind (.ok (.string s)) (.ok (.string s)) :=
  ⟨rfl, fun _ h => by cases h; exact .string s⟩

theorem mapNumber (result : Except RuntimeError Float) :
    Blind (result.map .number) (result.map .number) := by
  cases result with
  | error e => exact error e
  | ok x => exact number x

end Blind

theorem timesString_blind (s : String) (x : Float) : Blind (timesString s x) (timesString s x) := by
  rw [timesString]
  cases repetitions x s.utf8ByteSize with
  | error e => exact .error e
  | ok count => exact .string (repeatString s count)

theorem matMul_asRead {left : Value} (hl : left.IsRecord) (right : Value) :
    Blind (matMul left right) (matMul left.asRead right.asRead) := by
  rw [matMul, matMul, hl.product, hl.asRead.product, unsupported_asRead]
  exact .error _

section

variable {left right : Value} (hl : left.IsRecord) (hr : right.IsRecord)
include hl hr

theorem arithmetic_asRead (op : BinaryOp) (f : Float → Float → Except RuntimeError Float) :
    Blind (arithmetic op f left right) (arithmetic op f left.asRead right.asRead) := by
  cases hl with
  | number x =>
    cases hr with
    | number y => exact .mapNumber (f x y)
    | _ => exact .error _
  | _ => cases hr <;> exact .error _

theorem add_asRead : Blind (add left right) (add left.asRead right.asRead) := by
  cases hl with
  | number x =>
    cases hr with
    | number y => exact .number (x + y)
    | _ => exact .error _
  | string s =>
    cases hr with
    | string t => exact .string (s ++ t)
    | _ => exact .error _
  | _ => cases hr <;> exact .error _

theorem multiply_asRead : Blind (multiply left right) (multiply left.asRead right.asRead) := by
  cases hl with
  | number x =>
    cases hr with
    | number y => exact .number (x * y)
    | string s => exact timesString_blind s x
    | _ => exact .error _
  | string s =>
    cases hr with
    | number x => exact timesString_blind s x
    | _ => exact .error _
  | _ => cases hr <;> exact .error _

theorem binary_asRead (op : BinaryOp) :
    Blind (binary op left right) (binary op left.asRead right.asRead) := by
  cases op with
  | add => exact add_asRead hl hr
  | sub => exact arithmetic_asRead hl hr .sub _
  | mul => exact multiply_asRead hl hr
  | div => exact arithmetic_asRead hl hr .div _
  | pow => exact arithmetic_asRead hl hr .pow _
  | bitXor => exact arithmetic_asRead hl hr .bitXor _
  | matMul => exact matMul_asRead hl right
  | _ => exact .error _

end

theorem unary_asRead {operand : Value} (h : operand.IsRecord) (op : UnaryOp) :
    Blind (unary op operand) (unary op operand.asRead) := by
  cases op with
  | neg =>
    cases h with
    | number x => exact .number (-x)
    | _ => exact .error _
  | _ => cases h <;> exact .error _

/-- A mapping hands out under a key what it has stored there, and its view the same as read. -/
theorem entry_asRead {es : Bindings} (h : ∀ e ∈ es, e.2.IsRecord) (key : String) :
    Blind (entry key (Entries.get? key es)) (entry key (Environment.get? ⟨es⟩ key)) := by
  rw [Environment.get?, Environment.getRaw?]
  cases hget : Entries.get? key es with
  | none => exact .error _
  | some v =>
    have hv := IsRecord.get? h hget
    rw [Option.map_some, hv.wrap]
    exact ⟨rfl, fun _ heq => by cases heq; exact hv⟩

theorem subscript_asRead {value index : Value} (hv : value.IsRecord) (hi : index.IsRecord) :
    Blind (subscript value index) (subscript value.asRead index.asRead) := by
  cases hv with
  | string s =>
    cases hi with
    | number x =>
      simp only [asRead, subscript]
      cases place x s.toList.length with
      | error e => exact .error e
      | ok i => exact .string _
    | _ => exact .error _
  | map h =>
    cases hi with
    | string key => exact entry_asRead h key
    | _ => exact .error _
  | @view es h =>
    cases hi with
    | string key =>
      -- The view hands out what it has stored as read, so in one form already.
      have hentry := entry_asRead h key
      have hread := hentry.read_eq
      refine ⟨?_, fun v heq => ?_⟩
      · change entry key (Environment.get? ⟨es⟩ key) =
          (entry key (Environment.get? ⟨es⟩ key)).map asRead
        rw [hread]
        cases entry key (Entries.get? key es) <;> simp [Except.map]
      · change entry key (Environment.get? ⟨es⟩ key) = .ok v at heq
        rw [hread] at heq
        cases hstored : entry key (Entries.get? key es) with
        | error e =>
          rw [hstored] at heq
          cases heq
        | ok stored =>
          rw [hstored] at heq
          cases heq
          exact (hentry.isRecord stored hstored).asRead
    | _ => exact .error _
  | _ => cases hi <;> exact .error _

end Value

/-! ## Expressions -/

/-- A source that hands out the values of bindings as read. -/
def Scope.Hands (scope : Scope) (bindings : Bindings) (world : World) : Prop :=
  ∀ name, scope.lookup name world = (Entries.get? name bindings).map Value.asRead

/-- An environment hands out what it binds as read. -/
theorem Environment.get?_asRead {bindings : Bindings} (h : ∀ entry ∈ bindings, entry.2.IsRecord)
    (name : String) :
    Environment.get? ⟨bindings⟩ name = (Entries.get? name bindings).map Value.asRead := by
  rw [Environment.get?, Environment.getRaw?]
  cases hget : Entries.get? name bindings with
  | none => rfl
  | some v => rw [Option.map_some, Option.map_some, (Value.IsRecord.get? h hget).wrap]

namespace Engine

/-- Two outcomes in the same world: the same error, or a value and that value as read. -/
inductive Alike (world : World) : Outcome Value → Outcome Value → Prop where
  | value {v : Value} (h : v.IsRecord) : Alike world (.value v world) (.value v.asRead world)
  | error (e : RuntimeError) : Alike world (.error e world) (.error e world)

theorem Alike.andThen {world : World} {stored read : Outcome Value} (h : Alike world stored read)
    {f g : Value → World → Outcome Value}
    (hfg : ∀ v, v.IsRecord → Alike world (f v world) (g v.asRead world)) :
    Alike world (stored.andThen f) (read.andThen g) := by
  cases h with
  | value hv => exact hfg _ hv
  | error e => exact .error e

theorem Alike.ofExcept {stored read : Except RuntimeError Value} (h : Value.Blind stored read)
    (world : World) : Alike world (.ofExcept stored world) (.ofExcept read world) := by
  rw [h.read_eq]
  cases stored with
  | ok v => exact .value (h.isRecord v rfl)
  | error e => exact .error e

variable {engine : Engine} {recur : Job → World → Outcome Value} {bindings : Bindings}
  {scope : Scope} {world : World} (hb : ∀ entry ∈ bindings, entry.2.IsRecord)
  (hscope : scope.Hands bindings world)

include hb hscope in
/-- An expression over bindings without lists and functions calls nothing, and comes to the same
over a source that hands them out as read. -/
theorem evaluate_alike : ∀ e : Expr, Alike world
    (evaluate engine recur (.bindings bindings) e world) (evaluate engine recur scope e world)
  | .number x => .value (.number x)
  | .name name => by
    rw [evaluate, evaluate, hscope name, Scope.lookup]
    cases hget : Entries.get? name bindings with
    | none => exact .error _
    | some v => exact .value (.get? hb hget)
  | .binary op left right => by
    rw [evaluate, evaluate]
    refine (evaluate_alike left).andThen fun l hl => ?_
    exact (evaluate_alike right).andThen fun r hr => .ofExcept (Value.binary_asRead hl hr op) world
  | .unary op operand => by
    rw [evaluate, evaluate]
    exact (evaluate_alike operand).andThen fun x hx => .ofExcept (Value.unary_asRead hx op) world
  | .subscript value index => by
    rw [evaluate, evaluate]
    refine (evaluate_alike value).andThen fun v hv => ?_
    exact (evaluate_alike index).andThen fun i hi => .ofExcept (Value.subscript_asRead hv hi) world
  | .call callee operands => by
    cases callee with
    | name name =>
      rw [evaluate, evaluate, hscope name, Scope.lookup]
      cases hget : Entries.get? name bindings with
      | none => exact .error _
      | some v =>
        have hv := Value.IsRecord.get? hb hget
        simp only [Option.map_some, hv.function?, hv.asRead.function?, Value.kind_asRead]
        exact .error _
    | _ => exact .error _
  | .string .. | .bool .. | .none | .boolean .. | .compare .. | .conditional .. | .lambda ..
  | .member .. | .slice .. | .list .. | .tuple .. | .dict .. | .set .. | .comprehension ..
  | .assign .. => .error _

end Engine

namespace Session

/-- Two ways to evaluate a text that reads come to the same, up to the form of a mapping. -/
theorem settle_alike (session : Session) {stored read : Outcome Value}
    (h : Engine.Alike session.world stored read) :
    ∃ result : Except Failure Value, result ≠ .error .outOfFuel ∧
      session.settle stored = (result, session) ∧
      session.settle read = (result.map Value.asRead, session) := by
  cases h with
  | @value v hv => exact ⟨.ok v, nofun, rfl, rfl⟩
  | error e => exact ⟨.error (.runtime e), nofun, rfl, rfl⟩

theorem evaluateIn_of_hands (session : Session) (fuel : Nat) (source : String)
    {bindings : Bindings} (hb : ∀ entry ∈ bindings, entry.2.IsRecord) {scope : Scope}
    (hscope : scope.Hands bindings session.world) :
    ∃ result : Except Failure Value, result ≠ .error .outOfFuel ∧
      session.evaluateIn (fuel + 1) (.bindings bindings) source = (result, session) ∧
      session.evaluateIn (fuel + 1) scope source = (result.map Value.asRead, session) := by
  unfold evaluateIn
  cases Expression.parse source with
  | error e => exact ⟨.error (.malformed e), nofun, rfl, rfl⟩
  | ok expr =>
    dsimp only
    cases expr.check with
    | error e => exact ⟨.error (.runtime e), nofun, rfl, rfl⟩
    | ok =>
      simp only [Engine.run_succ, Engine.step]
      exact session.settle_alike (Engine.evaluate_alike hb hscope expr)

/-- The same expression over bindings and over an environment, an environment in use or a frame
that holds them comes to the same, up to the form of a mapping: all fail alike, or all give a value
with the same text.  Nothing else happens. -/
theorem evaluateIn_scopes (session : Session) (fuel : Nat) (source : String) {bindings : Bindings}
    (hb : ∀ entry ∈ bindings, entry.2.IsRecord) {number : Nat}
    (hnumber : session.world.environment number = ⟨bindings⟩) {frame : Frame}
    (hframe : session.world.environment frame.home = ⟨bindings⟩) :
    ∃ result : Except Failure Value, result ≠ .error .outOfFuel ∧
      session.evaluateIn (fuel + 1) (.bindings bindings) source = (result, session) ∧
      (∀ scope ∈ [Scope.environment ⟨bindings⟩, .home number, .frame frame],
        session.evaluateIn (fuel + 1) scope source = (result.map Value.asRead, session)) ∧
      ∀ v, result = .ok v → v.asRead.display = v.display := by
  have hget := Environment.get?_asRead hb
  have hhands : ∀ scope ∈ [Scope.environment ⟨bindings⟩, .home number, .frame frame],
      scope.Hands bindings session.world := by
    intro scope hscope name
    simp only [List.mem_cons, List.not_mem_nil, or_false] at hscope
    rcases hscope with rfl | rfl | rfl
    · exact hget name
    · rw [Scope.lookup, hnumber, hget]
    · rw [Scope.lookup, hframe, hget]
  obtain ⟨result, hfuel, hstored, -⟩ :=
    session.evaluateIn_of_hands fuel source hb (hhands _ List.mem_cons_self)
  refine ⟨result, hfuel, hstored, fun scope hscope => ?_, fun v _ => v.display_asRead⟩
  obtain ⟨result', -, hstored', hread⟩ :=
    session.evaluateIn_of_hands fuel source hb (hhands scope hscope)
  cases hstored.symm.trans hstored'
  exact hread

/-- A mapping inside a mapping, both as stored: the subscript gives it as stored or as read. -/
theorem evaluateIn_scopes_nested :
    let inner : Bindings := [("k", .string "ab"), ("n", .none)]
    let bindings : Bindings := [("m", .map [("i", .map inner)]), ("key", .string "i")]
    let session : Session := { Session.new .stock .captured 8 with
      world := World.empty.allocate ⟨bindings⟩ }
    session.evaluateIn 1 (.bindings bindings) "m[key]" = (.ok (.map inner), session) ∧
      session.evaluateIn 1 (.frame session.frame) "m[key]" = (.ok (.view inner), session) := by
  intro inner bindings session
  have hinner : ∀ entry ∈ inner, entry.2.IsRecord := by
    simp only [inner, List.forall_mem_cons, List.not_mem_nil, false_implies, implies_true, and_true]
    exact ⟨.string _, .none⟩
  have hb : ∀ entry ∈ bindings, entry.2.IsRecord := by
    simp only [bindings, List.forall_mem_cons, List.not_mem_nil, false_implies, implies_true,
      and_true]
    exact ⟨.map (List.forall_mem_singleton.2 (.map hinner)), .string _⟩
  have hscan : Expression.scan "m[key]" = .ok [⟨.name "m", ⟨0, 1⟩⟩, ⟨.openBracket, ⟨1, 2⟩⟩,
      ⟨.name "key", ⟨2, 5⟩⟩, ⟨.closeBracket, ⟨5, 6⟩⟩] := by rfl
  have hparse : Expression.parse "m[key]" = .ok (.subscript (.name "m") (.name "key")) := by
    rw [Expression.parse, hscan]
    rfl
  have hstored : session.evaluateIn 1 (.bindings bindings) "m[key]" =
      (.ok (.map inner), session) := by
    rw [evaluateIn, hparse]
    rfl
  have hhome : session.world.environment session.frame.home = ⟨bindings⟩ := rfl
  obtain ⟨result, -, hresult, hread, -⟩ := evaluateIn_scopes session 0 "m[key]" hb hhome hhome
  obtain rfl := (Prod.mk.inj (hstored.symm.trans hresult)).1
  refine ⟨hstored, hread _ ?_⟩
  exact List.mem_cons_of_mem _ (List.mem_cons_of_mem _ List.mem_cons_self)

end Session

end CallScript
