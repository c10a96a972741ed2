import CallScript.Value.Operators

/-!
# The functions inside values

A property of values is `Value.Hereditary` if it passes from a value to its parts and from the parts
to the whole.  Then reading a value from an environment and applying an operator keep it.

`Value.All p` says that every callable in a value satisfies `p`, however deep in lists and mappings
it stands.  It is hereditary: no reading and no operator brings a callable into a value that was not
in the values it started from.
-/

namespace CallScript

namespace Entries

variable {α : Type}

theorem mem_of_get? {name : String} {value : α} {entries : List (String × α)}
    (h : get? name entries = some value) : (name, value) ∈ entries := by
  induction entries with
  | nil => simp at h
  | cons entry entries ih =>
    obtain ⟨key, old⟩ := entry
    by_cases hk : key = name
    · simp only [get?, hk, if_true, Option.some.injEq] at h
      simp [hk, h]
    · simp only [get?, hk, if_false] at h
      exact List.mem_cons_of_mem _ (ih h)

theorem get?_eq_none_iff {name : String} {entries : List (String × α)} :
    get? name entries = none ↔ name ∉ keys entries := by
  induction entries with
  | nil => simp
  | cons entry entries ih =>
    obtain ⟨key, value⟩ := entry
    by_cases h : key = name
    · simp [get?, h]
    · simp [get?, h, ih, Ne.symm h]

theorem mem_insert {name : String} {value : α} {entries : List (String × α)}
    {entry : String × α} (h : entry ∈ insert name value entries) :
    entry.2 = value ∨ entry ∈ entries := by
  induction entries with
  | nil =>
    simp only [insert, List.mem_singleton] at h
    exact .inl (by rw [h])
  | cons old entries ih =>
    obtain ⟨key, old⟩ := old
    by_cases hk : key = name
    · simp only [insert, hk, if_true, List.mem_cons] at h
      rcases h with rfl | h
      · exact .inl rfl
      · exact .inr (List.mem_cons_of_mem _ h)
    · simp only [insert, hk, if_false, List.mem_cons] at h
      rcases h with rfl | h
      · exact .inr List.mem_cons_self
      · exact (ih h).imp_right (List.mem_cons_of_mem _)

theorem mem_erase {name : String} {entries : List (String × α)} {entry : String × α}
    (h : entry ∈ erase name entries) : entry ∈ entries := by
  induction entries with
  | nil => simp [erase] at h
  | cons old entries ih =>
    obtain ⟨key, old⟩ := old
    by_cases hk : key = name
    · simp only [erase, hk, if_true] at h
      exact List.mem_cons_of_mem _ h
    · simp only [erase, hk, if_false, List.mem_cons] at h
      rcases h with rfl | h
      · exact List.mem_cons_self
      · exact List.mem_cons_of_mem _ (ih h)

theorem mem_extend {entries more : List (String × α)} {entry : String × α}
    (h : entry ∈ extend entries more) :
    entry ∈ entries ∨ ∃ added ∈ more, entry.2 = added.2 := by
  induction more generalizing entries with
  | nil => exact .inl h
  | cons first more ih =>
    have h' : entry ∈ extend (insert first.1 first.2 entries) more := h
    obtain h | ⟨added, hadded, he⟩ := ih h'
    · obtain he | h := mem_insert h
      · exact .inr ⟨first, List.mem_cons_self, he⟩
      · exact .inl h
    · exact .inr ⟨added, List.mem_cons_of_mem _ hadded, he⟩

end Entries

/-! ## Properties that values hand on -/

/-- A property that passes from values to what is read from them and to what is made of them. -/
structure Value.Hereditary (P : Value → Prop) : Prop where
  none : P .none
  number : ∀ x, P (.number x)
  string : ∀ s, P (.string s)
  list : ∀ {xs}, (∀ x ∈ xs, P x) → P (.list xs)
  items : ∀ {xs}, P (.list xs) → ∀ x ∈ xs, P x
  map : ∀ {es : Bindings}, (Entries.keys es).Nodup → (∀ e ∈ es, P e.2) → P (.map es)
  mapEntries : ∀ {es : Bindings}, P (.map es) → ∀ e ∈ es, P e.2
  view : ∀ {es : Bindings}, P (.map es) → P (.view es)
  viewEntries : ∀ {es : Bindings}, P (.view es) → ∀ e ∈ es, P e.2
  function : ∀ {name c}, P (.function name c) ↔ P (.callable c)

/-- Every value of bindings satisfies `P`. -/
def Bindings.Each (P : Value → Prop) (bindings : Bindings) : Prop :=
  ∀ entry ∈ bindings, P entry.2

namespace Bindings.Each

variable {P Q : Value → Prop} {entries more : Bindings}

theorem get? (h : Bindings.Each P entries) {name : String} {v : Value}
    (hv : Entries.get? name entries = some v) : P v :=
  h _ (Entries.mem_of_get? hv)

theorem imp (h : ∀ v, P v → Q v) (heach : Bindings.Each P entries) : Bindings.Each Q entries :=
  fun entry hentry => h _ (heach entry hentry)

theorem insert (h : Bindings.Each P entries) {v : Value} (hv : P v) (name : String) :
    Bindings.Each P (Entries.insert name v entries) := by
  intro entry hentry
  rcases Entries.mem_insert hentry with he | he
  · exact he ▸ hv
  · exact h entry he

theorem extend (h : Bindings.Each P entries) (hmore : Bindings.Each P more) :
    Bindings.Each P (Entries.extend entries more) := by
  intro entry hentry
  rcases Entries.mem_extend hentry with hentry | ⟨added, hadded, hv⟩
  · exact h entry hentry
  · exact hv ▸ hmore added hadded

theorem erase (h : Bindings.Each P entries) (name : String) :
    Bindings.Each P (Entries.erase name entries) :=
  fun entry hentry => h entry (Entries.mem_erase hentry)

end Bindings.Each

namespace Value.Hereditary

variable {P : Value → Prop} (hP : Hereditary P)

include hP

/-! ### Reading -/

theorem asView? {v w : Value} (hv : P v) (h : v.asView? = some w) : P w := by
  unfold Value.asView? at h
  split at h
  · cases h
    exact hP.view hv
  · cases h
    exact hv
  · cases h

theorem wrap (name : String) {v : Value} (hv : P v) : P (v.wrap name) := by
  unfold Value.wrap
  split
  · exact hP.view hv
  · exact hv
  · refine hP.list fun w hw => ?_
    obtain ⟨x, hx, hw⟩ := List.mem_filterMap.1 hw
    exact hP.asView? (hP.items hv x hx) hw
  · exact hP.function.2 hv
  · exact hP.function.2 (hP.function.1 hv)
  · exact hv

theorem environment {env : Environment} (h : Bindings.Each P env.bindings) {name : String}
    {v : Value} (hv : env.get? name = some v) : P v := by
  obtain ⟨raw, hraw, rfl⟩ := Option.map_eq_some_iff.1 hv
  exact hP.wrap name (h.get? hraw)

/-! ### Operators -/

theorem ofVector (xs : List Float) : P (Value.ofVector xs) := by
  refine hP.list fun v hv => ?_
  obtain ⟨x, -, rfl⟩ := List.mem_map.1 hv
  exact hP.number x

theorem product {left right v : Value} (h : Value.product left right = .value v) : P v := by
  unfold Value.product at h
  split at h
  · split at h
    · simp only [Product.value.injEq] at h
      subst h
      refine hP.list fun row hrow => ?_
      obtain ⟨xs, -, rfl⟩ := List.mem_map.1 hrow
      exact hP.ofVector _
    · simp at h
  · split at h
    · split at h
      · simp only [Product.value.injEq] at h
        exact h ▸ hP.ofVector _
      · simp at h
    · simp at h
  · split at h
    · split at h
      · simp only [Product.value.injEq] at h
        exact h ▸ hP.ofVector _
      · simp at h
    · simp at h
  · split at h
    · split at h
      · simp only [Product.value.injEq] at h
        exact h ▸ hP.number _
      · simp at h
    · simp at h

theorem repeated {xs : List Value} (hxs : ∀ x ∈ xs, P x) (count : Nat) :
    P (.list (Value.repeatList xs count)) := by
  refine hP.list fun x hx => ?_
  unfold Value.repeatList at hx
  split at hx
  · simp at hx
  · obtain ⟨ys, hys, hx⟩ := List.mem_flatten.1 hx
    exact hxs x (List.eq_of_mem_replicate hys ▸ hx)

theorem timesString {s : String} {x : Float} {v : Value}
    (h : Value.timesString s x = .ok v) : P v := by
  unfold Value.timesString at h
  cases hr : Value.repetitions x s.utf8ByteSize with
  | error e => simp [hr, bind, Except.bind] at h
  | ok count =>
    simp only [hr, bind, Except.bind, pure, Except.pure, Except.ok.injEq] at h
    exact h ▸ hP.string _

theorem timesList {xs : List Value} {x : Float} {v : Value} (hxs : ∀ x ∈ xs, P x)
    (h : Value.timesList xs x = .ok v) : P v := by
  unfold Value.timesList at h
  cases hr : Value.repetitions x xs.length with
  | error e => simp [hr, bind, Except.bind] at h
  | ok count =>
    simp only [hr, bind, Except.bind, pure, Except.pure, Except.ok.injEq] at h
    exact h ▸ hP.repeated hxs count

theorem arithmetic {op : BinaryOp} {f : Float → Float → Except RuntimeError Float}
    {left right v : Value} (h : Value.arithmetic op f left right = .ok v) : P v := by
  unfold Value.arithmetic at h
  split at h
  · next x y =>
    cases hf : f x y with
    | error e => simp [hf, Except.map] at h
    | ok z =>
      simp only [hf, Except.map, Except.ok.injEq] at h
      exact h ▸ hP.number z
  · simp at h

theorem add {left right v : Value} (hl : P left) (hr : P right)
    (h : Value.add left right = .ok v) : P v := by
  unfold Value.add at h
  split at h
  · simp only [Except.ok.injEq] at h
    exact h ▸ hP.number _
  · simp only [Except.ok.injEq] at h
    exact h ▸ hP.string _
  · simp only [Except.ok.injEq] at h
    subst h
    refine hP.list fun x hx => ?_
    exact (List.mem_append.1 hx).elim (hP.items hl x) (hP.items hr x)
  · simp at h

theorem multiply {left right v : Value} (hl : P left) (hr : P right)
    (h : Value.multiply left right = .ok v) : P v := by
  unfold Value.multiply at h
  split at h
  · simp only [Except.ok.injEq] at h
    exact h ▸ hP.number _
  · exact hP.timesString h
  · exact hP.timesString h
  · exact hP.timesList (hP.items hl) h
  · exact hP.timesList (hP.items hr) h
  · simp at h

theorem binary {op : BinaryOp} {left right v : Value} (hl : P left) (hr : P right)
    (h : Value.binary op left right = .ok v) : P v := by
  cases op with
  | add => exact hP.add hl hr h
  | mul => exact hP.multiply hl hr h
  | sub | div | pow | bitXor => exact hP.arithmetic h
  | matMul =>
    simp only [Value.binary, Value.matMul] at h
    split at h
    · next hp =>
      simp only [Except.ok.injEq] at h
      exact h ▸ hP.product hp
    all_goals simp at h
  | floorDiv | mod | bitAnd | bitOr | shiftLeft | shiftRight => simp [Value.binary] at h

theorem unary {op : UnaryOp} {operand v : Value} (h : Value.unary op operand = .ok v) : P v := by
  unfold Value.unary at h
  split at h
  · simp only [Except.ok.injEq] at h
    exact h ▸ hP.number _
  all_goals simp at h

omit hP in
theorem entry {key : String} {found : Option Value} {v : Value}
    (hf : ∀ w, found = some w → P w) (h : Value.entry key found = .ok v) : P v := by
  unfold Value.entry at h
  split at h
  · simp only [Except.ok.injEq] at h
    exact h ▸ hf _ rfl
  · simp at h

theorem subscript {value index v : Value} (hv : P value)
    (h : Value.subscript value index = .ok v) : P v := by
  unfold Value.subscript at h
  split at h
  · next xs x =>
    cases hi : Value.place x xs.length with
    | error e => simp [hi, bind, Except.bind] at h
    | ok i =>
      simp only [hi, bind, Except.bind, pure, Except.pure, Except.ok.injEq] at h
      subst h
      rw [List.getD_eq_getElem?_getD]
      cases hx : xs[i]? with
      | none => exact hP.none
      | some x => exact hP.items hv x (List.mem_of_getElem? hx)
  · next s x =>
    dsimp only at h
    cases hi : Value.place x s.toList.length with
    | error e => simp [hi, bind, Except.bind] at h
    | ok i =>
      simp only [hi, bind, Except.bind, pure, Except.pure, Except.ok.injEq] at h
      exact h ▸ hP.string _
  · exact entry (fun w hw => Bindings.Each.get? (hP.mapEntries hv) hw) h
  · exact entry (fun w hw => hP.environment (hP.viewEntries hv) hw) h
  · simp at h

end Value.Hereditary

/-! ## Callables -/

/-- Every callable in a value satisfies `p`. -/
inductive Value.All (p : Callable → Prop) : Value → Prop where
  | none : All p .none
  | number (x : Float) : All p (.number x)
  | string (s : String) : All p (.string s)
  | list {xs : List Value} : (∀ x ∈ xs, All p x) → All p (.list xs)
  | map {es : Bindings} : (∀ e ∈ es, All p e.2) → All p (.map es)
  | view {es : Bindings} : (∀ e ∈ es, All p e.2) → All p (.view es)
  | callable {c : Callable} : p c → All p (.callable c)
  | function {name : String} {c : Callable} : p c → All p (.function name c)

/-- A callable that is no definition but one of `allowed`. -/
def Callable.Among (allowed : Definition → Prop) (c : Callable) : Prop :=
  ∀ d, c = .definition d → allowed d

/-- A callable stands in a value. -/
inductive Value.Has (c : Callable) : Value → Prop where
  | list {x : Value} {xs : List Value} (hx : x ∈ xs) (h : Has c x) : Has c (.list xs)
  | map {e : String × Value} {es : Bindings} (he : e ∈ es) (h : Has c e.2) : Has c (.map es)
  | view {e : String × Value} {es : Bindings} (he : e ∈ es) (h : Has c e.2) : Has c (.view es)
  | callable : Has c (.callable c)
  | function (name : String) : Has c (.function name c)

/-- Every callable in the values of bindings satisfies `p`. -/
abbrev Bindings.All (p : Callable → Prop) : Bindings → Prop :=
  Bindings.Each (Value.All p)

namespace Value.All

variable {p q : Callable → Prop}

theorem imp (h : ∀ c, p c → q c) {v : Value} (hv : v.All p) : v.All q := by
  induction hv with
  | none => exact .none
  | number x => exact .number x
  | string s => exact .string s
  | list _ ih => exact .list ih
  | map _ ih => exact .map ih
  | view _ ih => exact .view ih
  | callable hc => exact .callable (h _ hc)
  | function hc => exact .function (h _ hc)

theorem of_forall_has : ∀ v : Value, (∀ c, v.Has c → p c) → v.All p
  | .none, _ => .none
  | .number x, _ => .number x
  | .string s, _ => .string s
  | .list xs, h => .list fun x hx => of_forall_has x fun c hc => h c (.list hx hc)
  | .map es, h => .map fun e he => of_forall_has e.2 fun c hc => h c (.map he hc)
  | .view es, h => .view fun e he => of_forall_has e.2 fun c hc => h c (.view he hc)
  | .callable c, h => .callable (h c .callable)
  | .function name c, h => .function (h c (.function name))
termination_by v => sizeOf v
decreasing_by
  all_goals simp_wf
  · have := List.sizeOf_lt_of_mem hx
    omega
  all_goals
    have := List.sizeOf_lt_of_mem he
    obtain ⟨name, v⟩ := e
    simp only [Prod.mk.sizeOf_spec] at this
    show sizeOf v < _
    omega

theorem of_has {c : Callable} {v : Value} (hc : v.Has c) (hv : v.All p) : p c := by
  induction hc with
  | list hx _ ih =>
    cases hv with
    | list hxs => exact ih (hxs _ hx)
  | map he _ ih =>
    cases hv with
    | map hes => exact ih (hes _ he)
  | view he _ ih =>
    cases hv with
    | view hes => exact ih (hes _ he)
  | callable =>
    cases hv with
    | callable hc => exact hc
  | function =>
    cases hv with
    | function hc => exact hc

theorem callable_iff {c : Callable} : (Value.callable c).All p ↔ p c :=
  ⟨of_has .callable, .callable⟩

/-- What is read from values and made of them brings no callable that was not in them. -/
theorem hereditary (p : Callable → Prop) : Hereditary (Value.All p) where
  none := .none
  number := .number
  string := .string
  list := .list
  items h := by
    cases h with
    | list h => exact h
  map _ h := .map h
  mapEntries h := by
    cases h with
    | map h => exact h
  view h := by
    cases h with
    | map h => exact .view h
  viewEntries h := by
    cases h with
    | view h => exact h
  function := ⟨fun h => .callable (h.of_has (.function _)), fun h => .function (h.of_has .callable)⟩

theorem environment {env : Environment} (h : Bindings.All p env.bindings) {name : String}
    {v : Value} (hv : env.get? name = some v) : v.All p :=
  (hereditary p).environment h hv

end Value.All

end CallScript
