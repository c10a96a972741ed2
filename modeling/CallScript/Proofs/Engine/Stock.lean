import CallScript.Engine.Stock
import CallScript.Proofs.Engine.Discipline

/-!
# What the stock functions do

The stock functions keep every property of values that is hereditary, and none fails for nesting.
All but one of them run nothing in a copy of the environment.
-/

namespace CallScript

namespace Toolkit

variable {P : Value → Prop} {values : List Value}

/-! ## Functions without effects -/

theorem texts_hereditary {α : Type} (hP : Value.Hereditary P) (f : α → String) (items : List α) :
    P (.list (items.map fun item => .string (f item))) := by
  refine hP.list fun text htext => ?_
  obtain ⟨item, -, rfl⟩ := List.mem_map.1 htext
  exact hP.string _

theorem sumOf_failsOnly (total : Float) (values : List Value) :
    FailsOnly RuntimeError.IsOrdinary (sumOf total values) := by
  fun_induction sumOf total values with
  | case1 => exact .ok _
  | case2 total x values ih => exact ih
  | case3 => exact .error nofun

theorem sumOf_hereditary (hP : Value.Hereditary P) {total : Float} {v : Value}
    (h : sumOf total values = .ok v) : P v := by
  fun_induction sumOf total values with
  | case1 total =>
    cases h
    exact hP.number total
  | case2 total x values ih => exact ih h
  | case3 => cases h

theorem pairsOf_each (hP : Value.Hereditary P) {entries : Bindings} (he : Bindings.Each P entries)
    (hvs : ∀ v ∈ values, P v) : Bindings.Each P (pairsOf entries values) := by
  fun_induction pairsOf entries values with
  | case1 entries => exact he
  | case2 entries key => exact he.insert hP.none _
  | case3 entries key value values ih =>
    exact ih (he.insert (hvs value (by simp)) _) fun v hv => hvs v (by simp [hv])

theorem nodup_keys_pairsOf {entries : Bindings} (h : (Entries.keys entries).Nodup) :
    (Entries.keys (pairsOf entries values)).Nodup := by
  fun_induction pairsOf entries values with
  | case1 entries => exact h
  | case2 entries key => exact Entries.nodup_keys_insert _ _ h
  | case3 entries key value values ih => exact ih (Entries.nodup_keys_insert _ _ h)

theorem stockPure_hereditary (hP : Value.Hereditary P) (hvs : ∀ v ∈ values, P v) {name : String}
    {v : Value} (h : stockPure name values = .ok v) : P v := by
  unfold stockPure at h
  split at h
  · exact sumOf_hereditary hP h
  · cases h
    exact hP.list hvs
  · split at h
    · cases h
      exact hvs v (by simp)
    · cases h
  · cases h
    exact texts_hereditary hP _ values
  · cases h
    exact hP.map (nodup_keys_pairsOf List.nodup_nil) (pairsOf_each hP (by simp [Bindings.Each]) hvs)
  · cases h
  · cases h

theorem stockPure_failsOnly (name : String) (values : List Value) :
    FailsOnly RuntimeError.IsOrdinary (stockPure name values) := by
  unfold stockPure
  split
  · exact sumOf_failsOnly 0.0 values
  · exact .ok _
  · split
    · exact .ok _
    · exact .error nofun
  · exact .ok _
  · exact .ok _
  · exact .error nofun
  · exact .error nofun

/-! ## Functions that are handed the running frame -/

variable {a : Allowance}

open Procedure

theorem sayAll_holds {last : Value} (hlast : a.value last) (hvs : ∀ v ∈ values, a.value v) :
    (sayAll last values).Holds a := by
  induction values generalizing last with
  | nil => exact .done hlast
  | cons value values ih =>
    exact .print (ih (hvs value (by simp)) fun v hv => hvs v (by simp [hv]))

theorem stockContextual_holds (name : String) (hvs : ∀ v ∈ values, a.value v) :
    (stockContextual name values).Holds a := by
  unfold stockContextual
  split
  · exact .inspect fun _ _ _ => .done (a.hereditary.number _)
  · exact .inspect fun _ _ _ => .done (a.hereditary.number _)
  · exact sayAll_holds a.hereditary.none hvs
  · split
    · exact .define (hvs _ (by simp)) .nothing
    · exact .refuse nofun
  · split
    · next target =>
      refine .inspect fun env _ henv => .remove (.done ?_)
      cases hv : env.getRaw? target with
      | none => exact a.hereditary.none
      | some v => exact henv.get? hv
    · exact .refuse nofun
  · exact .refuse nofun

theorem loadTimes_holds {next : List Value → Procedure}
    (hnext : ∀ vs, (∀ v ∈ vs, a.value v) → (next vs).Holds a) (argument : Argument)
    (count : Nat) : ∀ loaded : List Value, (∀ v ∈ loaded, a.value v) →
      (Procedure.loadTimes argument loaded next count).Holds a := by
  induction count with
  | zero =>
    intro loaded hl
    exact hnext _ fun v hv => hl v (List.mem_reverse.1 hv)
  | succ count ih =>
    intro loaded hl
    refine .load fun v hv => ih _ ?_
    simpa using ⟨hv, hl⟩

theorem stockSpecial_holds {name : String} (hcopies : name = "sandbox" → a.copies)
    (arguments : List Argument) : (stockSpecial name arguments).Holds a := by
  unfold stockSpecial
  split
  · exact .done (texts_hereditary a.hereditary _ arguments)
  · exact .done (texts_hereditary a.hereditary _ arguments)
  · refine .inCopy (hcopies rfl) (.loadAll (fun vs hvs => .done ?_) arguments) fun v hv => .done hv
    rw [List.getLastD_eq_getLast?]
    cases hv : vs.getLast? with
    | none => exact a.hereditary.none
    | some v => exact hvs v (List.mem_of_getLast? hv)
  · split
    · refine .load fun n _ => loadTimes_holds (fun vs hvs => .done ?_) _ _ [] (by simp)
      exact a.hereditary.list hvs
    · exact .refuse nofun
  · exact .refuse nofun

end Toolkit

/-! ## All functions of the host -/

/-- If they are given only values that satisfy `P`, the functions of the host hand on only such
values. -/
structure Toolkit.HandsOn {P : Value → Prop} (hP : Value.Hereditary P) (toolkit : Toolkit) :
    Prop where
  special : ∀ name arguments, (toolkit.special name arguments).Holds (.keeping hP)
  contextual : ∀ name values, (∀ v ∈ values, P v) →
    (toolkit.contextual name values).Holds (.keeping hP)
  pure : ∀ name values v, (∀ v ∈ values, P v) → toolkit.pure name values = .ok v → P v

theorem Toolkit.stock_handsOn {P : Value → Prop} (hP : Value.Hereditary P) :
    Toolkit.stock.HandsOn hP where
  special _ arguments := stockSpecial_holds (fun _ => trivial) arguments
  contextual name _ hvs := stockContextual_holds name hvs
  pure _ _ _ hvs hv := stockPure_hereditary hP hvs hv

/-! ## Sessions whose host has functions without effects only -/

/-- One of the built-in functions `builtins`, a definition, or one of the functions `pures` of the
host, which have no effects. -/
def Callable.OfPureHost (builtins : Builtin → Prop) (pures : String → Prop) : Callable → Prop
  | .builtin b => builtins b
  | .host .pure _ name => pures name
  | .host _ _ _ => False
  | .definition _ => True

/-- The functions `pures` bring no callable but the built-in functions `builtins`, definitions and
functions `pures`, and do not fail for nesting. -/
structure Toolkit.StaysPure (toolkit : Toolkit) (builtins : Builtin → Prop)
    (pures : String → Prop) : Prop where
  value : ∀ name, pures name → ∀ values,
    (∀ v ∈ values, v.All (Callable.OfPureHost builtins pures)) →
    ∀ v, toolkit.pure name values = .ok v → v.All (Callable.OfPureHost builtins pures)
  error : ∀ name, pures name → ∀ values,
    FailsOnly RuntimeError.IsOrdinary (toolkit.pure name values)

/-- The stock functions that have no effects bring no callable of their own. -/
theorem Toolkit.stock_staysPure (builtins : Builtin → Prop) :
    Toolkit.stock.StaysPure builtins fun _ => True where
  value _ _ _ hvs _ hv := stockPure_hereditary (Value.All.hereditary _) hvs hv
  error name _ values := stockPure_failsOnly name values

end CallScript
