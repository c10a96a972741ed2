import CallScript.Proofs.Session.Termination
import CallScript.Settings
import Mathlib.Data.List.Forall2

/-!
# Configured bindings

Settings give a session its bindings as TOML entries.  `Toml.StandsAt` says where a value stands
among entries, however deep, and under which key; `Toml.NoLater` compares positions in the order in
which a depth-first walk meets them.  `Toml.Denotes` says which value of programs a TOML value
denotes, if it denotes one.

The conversion is all or nothing: it gives the bindings that the entries denote if no boolean and no
date stands among them (`Settings.entriesOf_eq_ok_iff`), and otherwise blames the first of those,
with the key it stands under (`Settings.entriesOf_reports`).  Settings that a text says have their
tables in the order of the keys (`Settings.ascend_of_read`).  They hold no functions, so a session
that follows settings has been given data only (`Settings.session_givenData`).
-/

namespace CallScript

namespace Toml

/-- The values directly inside a value, each with the key it stands under: the items of an array
stand under the key of the array. -/
def parts (name : String) : Toml → List (String × Toml)
  | .array items => items.map (name, ·)
  | .table entries => entries
  | _ => []

/-- The value at a position among entries, with the nearest key on the way to it.  A position says
which entry to take, then which of the values inside it, and so on. -/
inductive StandsAt : List (String × Toml) → List Nat → String → Toml → Prop where
  | here {entries : List (String × Toml)} {i : Nat} {key : String} {value : Toml}
      (h : entries[i]? = some (key, value)) : StandsAt entries [i] key value
  | inside {entries : List (String × Toml)} {i : Nat} {name key : String} {value inner : Toml}
      {path : List Nat} (h : entries[i]? = some (name, value))
      (hs : StandsAt (value.parts name) path key inner) : StandsAt entries (i :: path) key inner

/-- The kind of a value that denotes nothing. -/
def unsupported? : Toml → Option UnsupportedKind
  | .boolean _ => some .boolean
  | .datetime _ => some .datetime
  | _ => none

/-- The value that a TOML value denotes. -/
inductive Denotes : Toml → Value → Prop where
  | string (text : String) : Denotes (.string text) (.string text)
  | integer (n : Int) : Denotes (.integer n) (.number (Float.ofInt n))
  | float (x : Float) : Denotes (.float x) (.number x)
  | array {items : List Toml} {values : List Value} (h : List.Forall₂ Denotes items values) :
      Denotes (.array items) (.list values)
  | table {entries : List (String × Toml)} {bindings : Bindings}
      (hkeys : Entries.keys bindings = Entries.keys entries)
      (h : List.Forall₂ Denotes (entries.map Prod.snd) (bindings.map Prod.snd)) :
      Denotes (.table entries) (.map bindings)

/-- Whether the keys of entries are in order. -/
def KeysAscend (entries : List (String × Toml)) : Prop :=
  (Entries.keys entries).Pairwise (· ≤ ·)

/-- Whether the keys of every table among entries are in order, however deep it stands. -/
def TablesAscend (entries : List (String × Toml)) : Prop :=
  ∀ path key inner, StandsAt entries path key (.table inner) → KeysAscend inner

/-! ## Positions -/

namespace StandsAt

variable {entries : List (String × Toml)} {entry : String × Toml} {i : Nat} {path : List Nat}
  {name key : String} {value inner : Toml}

@[simp] theorem not_of_no_entries : ¬StandsAt [] path key value := by
  rintro (⟨h⟩ | ⟨h, -⟩) <;> simp at h

@[simp] theorem not_of_no_position : ¬StandsAt entries [] key value := by
  rintro ⟨⟩

@[simp] theorem zero_iff : StandsAt ((name, value) :: entries) (0 :: path) key inner ↔
    (path = [] ∧ name = key ∧ value = inner) ∨ StandsAt (value.parts name) path key inner := by
  constructor
  · rintro (⟨h⟩ | ⟨h, hs⟩)
    · simp_all
    · simp only [List.getElem?_cons_zero, Option.some.injEq, Prod.mk.injEq] at h
      obtain ⟨rfl, rfl⟩ := h
      exact .inr hs
  · rintro (⟨rfl, rfl, rfl⟩ | hs)
    · exact .here rfl
    · exact .inside rfl hs

@[simp] theorem succ_iff : StandsAt (entry :: entries) ((i + 1) :: path) key inner ↔
    StandsAt entries (i :: path) key inner := by
  constructor
  · rintro (⟨h⟩ | ⟨h, hs⟩)
    · exact .here (by simpa using h)
    · exact .inside (by simpa using h) hs
  · rintro (⟨h⟩ | ⟨h, hs⟩)
    · exact .here (by simpa using h)
    · exact .inside (by simpa using h) hs

/-- At most one value stands at a position, under one key. -/
theorem unique {key' : String} {value' : Toml} (h : StandsAt entries path key value)
    (h' : StandsAt entries path key' value') : key = key' ∧ value = value' := by
  induction h with
  | here hi =>
    cases h' with
    | here hi' => simpa [hi] using hi'
    | inside _ hs => exact absurd hs not_of_no_position
  | inside hi hs ih =>
    cases h' with
    | here => exact absurd hs not_of_no_position
    | inside hi' hs' =>
      obtain ⟨rfl, rfl⟩ : _ ∧ _ := by simpa [hi] using hi'
      exact ih hs'

end StandsAt

/-! ## The order of a walk -/

/-- A depth-first walk meets a position no later than another one: they are the same, or the first
one comes before the other in lexicographic order. -/
def NoLater (path path' : List Nat) : Prop :=
  path = path' ∨ List.Lex (· < ·) path path'

namespace NoLater

variable {path path' : List Nat} {i j : Nat}

theorem nil (path : List Nat) : NoLater [] path := by
  cases path with
  | nil => exact .inl rfl
  | cons i path => exact .inr .nil

theorem cons (i : Nat) (h : NoLater path path') : NoLater (i :: path) (i :: path') := by
  rcases h with rfl | h
  · exact .inl rfl
  · exact .inr (.cons h)

theorem of_lt (h : i < j) (path path' : List Nat) : NoLater (i :: path) (j :: path') :=
  .inr (.rel h)

theorem succ (h : NoLater (i :: path) (j :: path')) :
    NoLater ((i + 1) :: path) ((j + 1) :: path') := by
  rcases h with h | h
  · obtain ⟨rfl, rfl⟩ := List.cons.inj h
    exact .inl rfl
  · cases h with
    | cons h => exact .inr (.cons h)
    | rel h => exact of_lt (Nat.succ_lt_succ h) path path'

theorem antisymm (h : NoLater path path') (h' : NoLater path' path) : path = path' := by
  rcases h with h | h
  · exact h
  rcases h' with h' | h'
  · exact h'.symm
  · exact absurd h' (List.lex_asymm (fun hlt => Nat.lt_asymm hlt) h)

end NoLater

/-! ## Values that denote nothing -/

/-- A position at which a value denotes nothing, with the error that blames it. -/
def Offends (entries : List (String × Toml)) (path : List Nat) (e : SettingsError) : Prop :=
  ∃ key value kind, StandsAt entries path key value ∧ value.unsupported? = some kind ∧
    e = .unsupported key kind

/-- The error that blames the first of the values that denote nothing. -/
def FirstOffence (entries : List (String × Toml)) (e : SettingsError) : Prop :=
  ∃ path, Offends entries path e ∧ ∀ path' e', Offends entries path' e' → NoLater path path'

section Offends

variable {entries : List (String × Toml)} {entry : String × Toml} {i : Nat} {path : List Nat}
  {name : String} {value : Toml} {e e' : SettingsError}

@[simp] theorem not_offends_nil : ¬Offends [] path e := by
  simp [Offends]

@[simp] theorem not_offends_of_no_position : ¬Offends entries [] e := by
  simp [Offends]

theorem offends_zero_iff : Offends ((name, value) :: entries) (0 :: path) e ↔
    (path = [] ∧ ∃ kind, value.unsupported? = some kind ∧ e = .unsupported name kind) ∨
      Offends (value.parts name) path e := by
  simp only [Offends, StandsAt.zero_iff]
  grind

@[simp] theorem offends_succ_iff :
    Offends (entry :: entries) ((i + 1) :: path) e ↔ Offends entries (i :: path) e := by
  simp [Offends]

theorem Offends.unique (h : Offends entries path e) (h' : Offends entries path e') : e = e' := by
  obtain ⟨key, value, kind, hs, hkind, rfl⟩ := h
  obtain ⟨key', value', kind', hs', hkind', rfl⟩ := h'
  obtain ⟨rfl, rfl⟩ := hs.unique hs'
  rw [Option.some.inj (hkind.symm.trans hkind')]

theorem FirstOffence.unique (h : FirstOffence entries e) (h' : FirstOffence entries e') :
    e = e' := by
  obtain ⟨path, ho, hle⟩ := h
  obtain ⟨path', ho', hle'⟩ := h'
  obtain rfl : path = path' := (hle _ _ ho').antisymm (hle' _ _ ho)
  exact ho.unique ho'

end Offends

/-- Whether a conversion of entries fails with the error that blames the first value that denotes
nothing, and succeeds if there is none. -/
def Reports {α : Type} (entries : List (String × Toml)) : Except SettingsError α → Prop
  | .ok _ => ∀ path e, ¬Offends entries path e
  | .error e => FirstOffence entries e

namespace Reports

variable {α β : Type} {entries : List (String × Toml)} {name : String} {value : Toml}
  {r : Except SettingsError α} {s : Except SettingsError β} {e : SettingsError}

theorem map (h : Reports entries r) (f : α → β) : Reports entries (r.map f) := by
  cases r with
  | ok a => exact h
  | error e => exact h

/-- A value that denotes nothing is blamed itself. -/
theorem unsupported {kind : UnsupportedKind} (h : value.unsupported? = some kind) :
    Reports [(name, value)] (.error (.unsupported name kind) : Except SettingsError α) := by
  refine ⟨[0], offends_zero_iff.2 (.inl ⟨rfl, kind, h, rfl⟩), fun path e ho => ?_⟩
  match path with
  | [] => simp at ho
  | 0 :: path => exact (NoLater.nil path).cons 0
  | (i + 1) :: path => simp at ho

/-- Any other value fails as the values inside it do. -/
theorem inside (hvalue : value.unsupported? = none) (h : Reports (value.parts name) r) :
    Reports [(name, value)] r := by
  have hinside (path : List Nat) (e : SettingsError) : Offends [(name, value)] path e ↔
      ∃ rest, path = 0 :: rest ∧ Offends (value.parts name) rest e := by
    match path with
    | [] => simp
    | 0 :: path => simp [offends_zero_iff, hvalue]
    | (i + 1) :: path => simp
  cases r with
  | ok a =>
    intro path e ho
    obtain ⟨rest, -, ho⟩ := (hinside path e).1 ho
    exact h rest e ho
  | error e =>
    obtain ⟨first, ho, hle⟩ := h
    refine ⟨0 :: first, (hinside _ e).2 ⟨first, rfl, ho⟩, fun path e' ho' => ?_⟩
    obtain ⟨rest, rfl, hrest⟩ := (hinside path e').1 ho'
    exact (hle rest e' hrest).cons 0

theorem nil (a : α) : Reports [] (.ok a : Except SettingsError α) :=
  fun _ _ => not_offends_nil

/-- An error in the first entry comes before all others. -/
theorem cons_of_error (h : Reports [(name, value)] (.error e : Except SettingsError α)) :
    Reports ((name, value) :: entries) (.error e : Except SettingsError β) := by
  obtain ⟨first, ho, hle⟩ := h
  match first with
  | [] => simp at ho
  | (i + 1) :: first => simp at ho
  | 0 :: first =>
    refine ⟨0 :: first, offends_zero_iff.2 (offends_zero_iff.1 ho), fun path e' ho' => ?_⟩
    match path with
    | [] => simp at ho'
    | 0 :: path => exact hle _ e' (offends_zero_iff.2 (offends_zero_iff.1 ho'))
    | (i + 1) :: path => exact .of_lt i.succ_pos first path

/-- Where the first entry can be converted, the others decide. -/
theorem cons_of_ok {a : α} (h : Reports [(name, value)] (.ok a : Except SettingsError α))
    (hs : Reports entries s) : Reports ((name, value) :: entries) s := by
  have hrest (path : List Nat) (e : SettingsError) :
      Offends ((name, value) :: entries) path e ↔
        ∃ i rest, path = (i + 1) :: rest ∧ Offends entries (i :: rest) e := by
    match path with
    | [] => simp
    | 0 :: path =>
      have hnot := h (0 :: path) e
      rw [offends_zero_iff] at hnot ⊢
      simp [hnot]
    | (i + 1) :: path => simp
  cases s with
  | ok b =>
    intro path e ho
    obtain ⟨i, rest, -, ho⟩ := (hrest path e).1 ho
    exact hs _ e ho
  | error e =>
    obtain ⟨first, ho, hle⟩ := hs
    match first with
    | [] => simp at ho
    | i :: first =>
      refine ⟨(i + 1) :: first, offends_succ_iff.2 ho, fun path e' ho' => ?_⟩
      obtain ⟨j, rest, rfl, hj⟩ := (hrest path e').1 ho'
      exact (hle _ e' hj).succ

/-- The first entry decides, and where it can be converted the others do. -/
theorem cons {γ : Type} (h : Reports [(name, value)] r) (hs : Reports entries s)
    (f : α → β → γ) :
    Reports ((name, value) :: entries) (r >>= fun a => s.map (f a)) := by
  cases r with
  | ok a => exact cons_of_ok h (hs.map (f a))
  | error e => exact cons_of_error h

theorem eq_error_iff (h : Reports entries r) : r = .error e ↔ FirstOffence entries e := by
  cases r with
  | ok a => simpa using fun ⟨path, ho, _⟩ => h path e ho
  | error e' =>
    constructor
    · rintro ⟨⟩
      exact h
    · intro h'
      rw [h.unique h']

theorem exists_ok_iff (h : Reports entries r) :
    (∃ a, r = .ok a) ↔
      ∀ path key value, StandsAt entries path key value → value.unsupported? = none := by
  constructor
  · rintro ⟨a, rfl⟩ path key value hs
    rw [Option.eq_none_iff_forall_ne_some]
    exact fun kind hkind => h path _ ⟨key, value, kind, hs, hkind, rfl⟩
  · intro hall
    cases r with
    | ok a => exact ⟨a, rfl⟩
    | error e =>
      obtain ⟨path, ⟨key, value, kind, hs, hkind, -⟩, -⟩ := h
      simp [hall path key value hs] at hkind

end Reports

end Toml

namespace Settings

open Toml

theorem valuesOf_cons (name : String) (item : Toml) (items : List Toml) :
    valuesOf name (item :: items) =
      valueOf name item >>= fun value => (valuesOf name items).map (value :: ·) := by
  rw [valuesOf]
  cases valueOf name item with
  | error e => rfl
  | ok value => cases valuesOf name items <;> rfl

theorem entriesOf_cons (key : String) (item : Toml) (entries : List (String × Toml)) :
    entriesOf ((key, item) :: entries) =
      valueOf key item >>= fun value => (entriesOf entries).map ((key, value) :: ·) := by
  rw [entriesOf]
  cases valueOf key item with
  | error e => rfl
  | ok value => cases entriesOf entries <;> rfl

/-! ## Failures -/

mutual

theorem valueOf_reports (name : String) (value : Toml) :
    Reports [(name, value)] (valueOf name value) := by
  cases value with
  | string | integer | float =>
    rw [valueOf]
    exact .inside rfl (.nil _)
  | boolean | datetime =>
    rw [valueOf]
    exact .unsupported rfl
  | array items =>
    rw [valueOf]
    exact .inside rfl ((valuesOf_reports name items).map Value.list)
  | table entries =>
    rw [valueOf]
    exact .inside rfl ((entriesOf_reports entries).map Value.map)

theorem valuesOf_reports (name : String) (items : List Toml) :
    Reports (items.map (name, ·)) (valuesOf name items) := by
  cases items with
  | nil =>
    rw [valuesOf]
    exact .nil _
  | cons item items =>
    rw [valuesOf_cons]
    exact (valueOf_reports name item).cons (valuesOf_reports name items) _

theorem entriesOf_reports (entries : List (String × Toml)) :
    Reports entries (entriesOf entries) := by
  cases entries with
  | nil =>
    rw [entriesOf]
    exact .nil _
  | cons entry entries =>
    obtain ⟨key, item⟩ := entry
    rw [entriesOf_cons]
    exact (valueOf_reports key item).cons (entriesOf_reports entries) _

end

/-! ## Successes -/

section Except

variable {ε α β γ : Type} {r : Except ε α} {s : Except ε β}

theorem map_eq_ok_iff {f : α → β} {b : β} : r.map f = .ok b ↔ ∃ a, r = .ok a ∧ f a = b := by
  cases r <;> simp [Except.map]

theorem bind_map_eq_ok_iff {f : α → β → γ} {c : γ} :
    (r >>= fun a => s.map (f a)) = .ok c ↔ ∃ a b, r = .ok a ∧ s = .ok b ∧ f a b = c := by
  cases r <;> cases s <;> simp [bind, Except.bind, Except.map]

end Except

mutual

theorem valueOf_eq_ok_iff (name : String) (item : Toml) (value : Value) :
    valueOf name item = .ok value ↔ Denotes item value := by
  cases item with
  | string text =>
    rw [valueOf]
    exact ⟨by rintro ⟨⟩; exact .string text, by rintro ⟨⟩; rfl⟩
  | integer n =>
    rw [valueOf]
    exact ⟨by rintro ⟨⟩; exact .integer n, by rintro ⟨⟩; rfl⟩
  | float x =>
    rw [valueOf]
    exact ⟨by rintro ⟨⟩; exact .float x, by rintro ⟨⟩; rfl⟩
  | boolean | datetime =>
    rw [valueOf]
    exact ⟨by rintro ⟨⟩, by rintro ⟨⟩⟩
  | array items =>
    have ih := valuesOf_eq_ok_iff name items
    rw [valueOf, map_eq_ok_iff]
    constructor
    · rintro ⟨values, hvalues, rfl⟩
      exact .array ((ih values).1 hvalues)
    · intro h
      cases h with
      | array h => exact ⟨_, (ih _).2 h, rfl⟩
  | table entries =>
    have ih := entriesOf_eq_ok_iff entries
    rw [valueOf, map_eq_ok_iff]
    constructor
    · rintro ⟨bindings, hbindings, rfl⟩
      obtain ⟨hkeys, h⟩ := (ih bindings).1 hbindings
      exact .table hkeys h
    · intro h
      cases h with
      | table hkeys h => exact ⟨_, (ih _).2 ⟨hkeys, h⟩, rfl⟩

theorem valuesOf_eq_ok_iff (name : String) (items : List Toml) (values : List Value) :
    valuesOf name items = .ok values ↔ List.Forall₂ Denotes items values := by
  cases items with
  | nil => simp [valuesOf, eq_comm]
  | cons item items =>
    have hitem := valueOf_eq_ok_iff name item
    have hitems := valuesOf_eq_ok_iff name items
    rw [valuesOf_cons, bind_map_eq_ok_iff, List.forall₂_cons_left_iff]
    simp only [hitem, hitems]
    grind

theorem entriesOf_eq_ok_iff (entries : List (String × Toml)) (bindings : Bindings) :
    entriesOf entries = .ok bindings ↔ Entries.keys bindings = Entries.keys entries ∧
      List.Forall₂ Denotes (entries.map Prod.snd) (bindings.map Prod.snd) := by
  cases entries with
  | nil =>
    rw [entriesOf]
    constructor
    · rintro ⟨⟩
      exact ⟨rfl, .nil⟩
    · rintro ⟨hkeys, -⟩
      rw [List.map_eq_nil_iff.1 hkeys]
  | cons entry entries =>
    obtain ⟨key, item⟩ := entry
    have hitem := valueOf_eq_ok_iff key item
    have hentries := entriesOf_eq_ok_iff entries
    rw [entriesOf_cons, bind_map_eq_ok_iff]
    constructor
    · rintro ⟨value, rest, hvalue, hrest, rfl⟩
      obtain ⟨hkeys, hvalues⟩ := (hentries rest).1 hrest
      exact ⟨by simp [hkeys], .cons ((hitem value).1 hvalue) hvalues⟩
    · rintro ⟨hkeys, hvalues⟩
      cases bindings with
      | nil => simp at hkeys
      | cons binding bindings =>
        obtain ⟨name, value⟩ := binding
        obtain ⟨hname, hkeys⟩ := List.cons.inj hkeys
        obtain ⟨hvalue, hvalues⟩ := List.forall₂_cons.1 hvalues
        exact ⟨value, bindings, (hitem value).2 hvalue, (hentries bindings).2 ⟨hkeys, hvalues⟩,
          by rw [← show name = key from hname]⟩

end

/-! ## Data -/

mutual

theorem data_of_valueOf {name : String} {item : Toml} {value : Value}
    (h : valueOf name item = .ok value) : value.All Callable.None := by
  cases item with
  | string | integer | float =>
    rw [valueOf] at h
    cases h
    constructor
  | boolean | datetime =>
    rw [valueOf] at h
    cases h
  | array items =>
    rw [valueOf, map_eq_ok_iff] at h
    obtain ⟨values, hvalues, rfl⟩ := h
    exact .list (data_of_valuesOf hvalues)
  | table entries =>
    rw [valueOf, map_eq_ok_iff] at h
    obtain ⟨bindings, hbindings, rfl⟩ := h
    exact .map (data_of_entriesOf hbindings)

theorem data_of_valuesOf {name : String} {items : List Toml} {values : List Value}
    (h : valuesOf name items = .ok values) : ∀ value ∈ values, value.All Callable.None := by
  cases items with
  | nil =>
    rw [valuesOf] at h
    cases h
    exact nofun
  | cons item items =>
    rw [valuesOf_cons, bind_map_eq_ok_iff] at h
    obtain ⟨value, values, hvalue, hvalues, rfl⟩ := h
    exact List.forall_mem_cons.2 ⟨data_of_valueOf hvalue, data_of_valuesOf hvalues⟩

theorem data_of_entriesOf {entries : List (String × Toml)} {bindings : Bindings}
    (h : entriesOf entries = .ok bindings) : Bindings.All Callable.None bindings := by
  cases entries with
  | nil =>
    rw [entriesOf] at h
    cases h
    exact nofun
  | cons entry entries =>
    obtain ⟨key, item⟩ := entry
    rw [entriesOf_cons, bind_map_eq_ok_iff] at h
    obtain ⟨value, bindings, hvalue, hbindings, rfl⟩ := h
    exact List.forall_mem_cons.2 ⟨data_of_valueOf hvalue, data_of_entriesOf hbindings⟩

end

/-- A session that follows settings has been given data only. -/
theorem session_givenData {settings : Settings} {toolkit : Toolkit} {sink : Sink}
    {session : Session} (h : settings.session toolkit sink = .ok session) : session.GivenData := by
  rw [Settings.session] at h
  cases hvalues : settings.values with
  | error e =>
    rw [hvalues] at h
    cases h
  | ok bindings =>
    rw [hvalues] at h
    obtain rfl := Except.ok.inj h
    have hnew := Session.GivenData.new toolkit sink settings.maxDepth
    split
    · exact hnew
    · exact hnew.install (data_of_entriesOf hvalues)

end Settings

/-! ## The order of keys -/

namespace Toml

variable {entries : List (String × Toml)} {name : String} {value : Toml}

theorem keysAscend_sorted (entries : List (String × Toml)) : KeysAscend (sorted entries) := by
  have h : (sorted entries).Pairwise fun a b => !decide (b.1 < a.1) := by
    apply List.pairwise_mergeSort
    · intro a b c hab hbc
      simp only [Bool.not_eq_true', decide_eq_false_iff_not, String.not_lt] at hab hbc ⊢
      exact String.le_trans hab hbc
    · intro a b
      simp only [Bool.or_eq_true, Bool.not_eq_true', decide_eq_false_iff_not, String.not_lt]
      exact String.le_total a.1 b.1
  refine List.pairwise_map.2 (h.imp fun hab => ?_)
  simpa only [Bool.not_eq_true', decide_eq_false_iff_not, String.not_lt] using hab

/-- Whether the keys of a value are in order, if it is a table, and those of the tables inside. -/
def Ascends (name : String) (value : Toml) : Prop :=
  (∀ inner, value = .table inner → KeysAscend inner) ∧ TablesAscend (value.parts name)

theorem tablesAscend_iff :
    TablesAscend entries ↔ ∀ entry ∈ entries, Ascends entry.1 entry.2 := by
  constructor
  · intro h entry hmem
    obtain ⟨i, hi⟩ := List.mem_iff_getElem?.1 hmem
    exact ⟨fun inner hv => h [i] entry.1 inner (.here (hv ▸ hi)),
      fun path key inner hs => h (i :: path) key inner (.inside hi hs)⟩
  · rintro h path key inner (⟨hi⟩ | ⟨hi, hs⟩)
    · exact (h _ (List.mem_of_getElem? hi)).1 inner rfl
    · exact (h _ (List.mem_of_getElem? hi)).2 _ key inner hs

theorem tablesAscend_nil : TablesAscend [] := by
  simp [tablesAscend_iff]

theorem ascends_of_parts (h : ∀ inner, value ≠ .table inner) (hparts : value.parts name = []) :
    Ascends name value :=
  ⟨fun inner hv => absurd hv (h inner), hparts ▸ tablesAscend_nil⟩

theorem tablesAscend_sorted (h : TablesAscend entries) : TablesAscend (sorted entries) := by
  rw [tablesAscend_iff] at h ⊢
  exact fun entry hmem => h entry (List.mem_mergeSort.1 hmem)

theorem ascends_table (hkeys : KeysAscend entries) (h : TablesAscend entries) :
    Ascends name (.table entries) := by
  refine ⟨?_, h⟩
  rintro inner ⟨⟩
  exact hkeys

/-- A table that is no date has its entries settled and put in order. -/
theorem settled?_table {entry : String × Toml} (h : entry.1 ≠ datetimeKey) :
    settled? (.table (entry :: entries)) =
      (settledEntries? (entry :: entries)).map fun settled => .table (sorted settled) := by
  obtain ⟨key, value⟩ := entry
  simp only [settled?, settledEntries?, if_neg h]
  cases settled? value <;> cases settledEntries? entries <;> rfl

theorem settledItems?_cons (item : Toml) (items : List Toml) :
    settledItems? (item :: items) =
      (settled? item).bind fun item => (settledItems? items).map (item :: ·) := by
  rw [settledItems?]
  cases settled? item <;> cases settledItems? items <;> rfl

theorem settledEntries?_cons (key : String) (value : Toml) (entries : List (String × Toml)) :
    settledEntries? ((key, value) :: entries) =
      (settled? value).bind fun value => (settledEntries? entries).map ((key, value) :: ·) := by
  rw [settledEntries?]
  cases settled? value <;> cases settledEntries? entries <;> rfl

mutual

theorem ascends_of_settled? {item settled : Toml} (h : settled? item = some settled)
    (name : String) : Ascends name settled := by
  match item with
  | .string _ | .integer _ | .float _ | .boolean _ | .datetime _ =>
    obtain rfl := Option.some.inj h
    exact ascends_of_parts (by simp) rfl
  | .array items =>
    rw [settled?, Option.map_eq_some_iff] at h
    obtain ⟨settled, hitems, rfl⟩ := h
    exact ⟨by simp, tablesAscend_of_settledItems? hitems name⟩
  | .table [] =>
    obtain rfl := Option.some.inj h
    exact ascends_table .nil tablesAscend_nil
  | .table ((key, value) :: entries) =>
    by_cases hkey : key = datetimeKey
    · simp only [settled?, if_pos hkey] at h
      split at h
      · obtain ⟨date, -, rfl⟩ := Option.map_eq_some_iff.1 h
        exact ascends_of_parts (by simp) rfl
      · simp at h
    · rw [settled?_table hkey, Option.map_eq_some_iff] at h
      obtain ⟨settled, hentries, rfl⟩ := h
      exact ascends_table (keysAscend_sorted settled)
        (tablesAscend_sorted (tablesAscend_of_settledEntries? hentries))

theorem tablesAscend_of_settledItems? {items settled : List Toml}
    (h : settledItems? items = some settled) (name : String) :
    TablesAscend (settled.map (name, ·)) := by
  match items with
  | [] =>
    obtain rfl := Option.some.inj h
    exact tablesAscend_nil
  | item :: items =>
    rw [settledItems?_cons, Option.bind_eq_some_iff] at h
    obtain ⟨first, hfirst, h⟩ := h
    obtain ⟨rest, hrest, rfl⟩ := Option.map_eq_some_iff.1 h
    have hitem := ascends_of_settled? hfirst name
    have hitems := tablesAscend_iff.1 (tablesAscend_of_settledItems? hrest name)
    exact tablesAscend_iff.2 (List.forall_mem_cons.2 ⟨hitem, hitems⟩)

theorem tablesAscend_of_settledEntries? {entries settled : List (String × Toml)}
    (h : settledEntries? entries = some settled) : TablesAscend settled := by
  match entries with
  | [] =>
    obtain rfl := Option.some.inj h
    exact tablesAscend_nil
  | (key, value) :: entries =>
    rw [settledEntries?_cons, Option.bind_eq_some_iff] at h
    obtain ⟨first, hfirst, h⟩ := h
    obtain ⟨rest, hrest, rfl⟩ := Option.map_eq_some_iff.1 h
    have hvalue := ascends_of_settled? hfirst key
    have hentries := tablesAscend_iff.1 (tablesAscend_of_settledEntries? hrest)
    exact tablesAscend_iff.2 (List.forall_mem_cons.2 ⟨hvalue, hentries⟩)

end

end Toml

namespace Settings

open Toml

theorem ascend_of_bindingsOf? {table : Option Toml} {bindings : List (String × Toml)}
    (h : bindingsOf? table = some bindings) : KeysAscend bindings ∧ TablesAscend bindings := by
  match table with
  | none =>
    obtain rfl := Option.some.inj h
    exact ⟨.nil, tablesAscend_nil⟩
  | some (.table entries) =>
    obtain ⟨settled, hentries, rfl⟩ := Option.map_eq_some_iff.1 h
    exact ⟨keysAscend_sorted settled,
      tablesAscend_sorted (tablesAscend_of_settledEntries? hentries)⟩
  | some (.datetime date) =>
    obtain rfl := Option.some.inj h
    refine ⟨List.pairwise_singleton _ _, tablesAscend_iff.2 ?_⟩
    simpa using ascends_of_parts (by simp) rfl

/-- Settings that a text says have every table in the order of its keys. -/
theorem ascend_of_read {source : String} {settings : Settings} (h : read source = .ok settings) :
    KeysAscend settings.bindings ∧ TablesAscend settings.bindings := by
  unfold read at h
  split at h
  case h_2 => simp at h
  case h_1 settings' hread =>
    obtain rfl := Except.ok.inj h
    obtain ⟨document, -, hentries⟩ := Option.bind_eq_some_iff.1 hread
    simp only [ofEntries?, Option.bind_eq_bind, Option.bind_eq_some_iff] at hentries
    obtain ⟨engine, -, repl, -, bindings, hbindings, depth, -, prompt, -, file, -, hs⟩ := hentries
    obtain rfl := Option.some.inj hs
    exact ascend_of_bindingsOf? hbindings

theorem session_eq_error_iff (settings : Settings) (toolkit : Toolkit) (sink : Sink)
    (e : SettingsError) :
    settings.session toolkit sink = .error e ↔ settings.values = .error e := by
  rw [session]
  cases settings.values <;> simp

/-- Configured bindings are converted completely or not at all.  They are converted exactly if no
boolean and no date stands anywhere among them, and then the values have the same keys and the same
shape.  Otherwise the first boolean or date is blamed, with the nearest key on the way to it, and
there is no session.  The walk follows the order of the keys in settings that a text says. -/
theorem values_complete_or_refused (settings : Settings) :
    ((∃ bindings, settings.values = .ok bindings) ↔ ∀ path key value,
      StandsAt settings.bindings path key value → value.unsupported? = none) ∧
    (∀ bindings, settings.values = .ok bindings ↔
      Entries.keys bindings = Entries.keys settings.bindings ∧
        List.Forall₂ Denotes (settings.bindings.map Prod.snd) (bindings.map Prod.snd)) ∧
    (∀ e, settings.values = .error e ↔ FirstOffence settings.bindings e) ∧
    (∀ e toolkit sink, settings.session toolkit sink = .error e ↔ settings.values = .error e) ∧
    (∀ source, read source = .ok settings →
      KeysAscend settings.bindings ∧ TablesAscend settings.bindings) :=
  have hreports := entriesOf_reports settings.bindings
  ⟨hreports.exists_ok_iff, entriesOf_eq_ok_iff settings.bindings, fun _ => hreports.eq_error_iff,
    fun e toolkit sink => settings.session_eq_error_iff toolkit sink e,
    fun _ hread => ascend_of_read hread⟩

/-- Settings with a boolean deep under the first key and one right under the last. -/
def nested : Settings :=
  ⟨10000, "kotazy> ", none,
    [("a", .array [.string "", .table [("k", .array [.boolean true])]]), ("z", .boolean true)]⟩

/-- The boolean under `k` is met before the one under `z`, which the text says first. -/
theorem values_complete_or_refused_nested :
    read "bindings=\x7bz=true,a=['',\x7bk=[true]\x7d]\x7d" = .ok nested ∧
      KeysAscend nested.bindings ∧ nested.values = .error (.unsupported "k" .boolean) ∧
        FirstOffence nested.bindings (.unsupported "k" .boolean) := by
  obtain ⟨-, -, hfailure, -, hread⟩ := values_complete_or_refused nested
  have hnested : read "bindings=\x7bz=true,a=['',\x7bk=[true]\x7d]\x7d" = .ok nested := by cbv
  have hvalues : nested.values = .error (.unsupported "k" .boolean) := by cbv
  exact ⟨hnested, (hread _ hnested).1, hvalues, (hfailure _).1 hvalues⟩

end Settings

end CallScript
