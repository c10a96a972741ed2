import CallScript.Proofs.Value.Callables
import CallScript.Value.Equality
import Mathlib.Data.List.Perm.Subperm
import Mathlib.Logic.Basic

/-!
# Equality of values is an equivalence, except for NaN

Two mappings with distinct keys are equal if each has under every key what the other has there
(`Value.same_iff_sameContents`): the comparison walks over one of them only, but with as many keys
on both sides none can be missing on the other.  Neither the order of entries nor the form of a
mapping matters to that, and it is as symmetric and as transitive as the equality of the values
inside.  The one number that is not equal to itself is NaN (`number_beq_iff`), so a value is equal
to itself unless NaN stands somewhere in it.
-/

namespace CallScript

/-! ## Numbers -/

section Numbers

open Float.Model

/-- A number with the sign of a zero forgotten. -/
def unsignedZero : UnpackedFloat → UnpackedFloat
  | .zero _ => .zero .positive
  | x => x

theorem compare_sign_iff (s s' : UnpackedFloat.Sign) : compare s s' = .eq ↔ s = s' := by
  cases s <;> cases s' <;> simp [compare]

theorem compare_finite_iff {s s' : UnpackedFloat.Sign} {m m' : Nat} {e e' : Int} {h : 0 < m}
    {h' : 0 < m'} : UnpackedFloat.compare (.finite s m e h) (.finite s' m' e' h') = some .eq ↔
      s = s' ∧ m = m' ∧ e = e' := by
  have hthen : (compare e e').then (compare m m') = .eq ↔ m = m' ∧ e = e' := by simp [and_comm]
  cases s <;> cases s'
  · exact Option.some_inj.trans (Ordering.swap_eq_eq.trans (hthen.trans (and_iff_right rfl).symm))
  · exact iff_of_false nofun nofun
  · exact iff_of_false nofun nofun
  · exact Option.some_inj.trans (hthen.trans (and_iff_right rfl).symm)

theorem unpacked_beq_iff (a b : UnpackedFloat) :
    a.beq b = true ↔ a.isNaN = false ∧ unsignedZero a = unsignedZero b := by
  unfold UnpackedFloat.beq
  rw [beq_iff_eq]
  -- Numbers of two kinds never compare as equal, whatever the signs that choose the branch.
  cases a with
  | notANumber => exact iff_of_false nofun nofun
  | infinity s =>
    cases b with
    | infinity s' =>
      have hsigns := Option.some_inj.trans (compare_sign_iff s s')
      rw [← UnpackedFloat.infinity.injEq] at hsigns
      exact hsigns.trans (and_iff_right rfl).symm
    | _ => cases s <;> exact iff_of_false nofun nofun
  | zero s =>
    cases b with
    | zero s' => exact iff_of_true rfl ⟨rfl, rfl⟩
    | notANumber => exact iff_of_false nofun nofun
    | infinity s' => cases s' <;> exact iff_of_false nofun nofun
    | finite s' m e h => cases s' <;> exact iff_of_false nofun nofun
  | finite s m e h =>
    cases b with
    | finite s' m' e' h' =>
      rw [compare_finite_iff, ← UnpackedFloat.finite.injEq]
      exact (and_iff_right rfl).symm
    | infinity s' => cases s' <;> exact iff_of_false nofun nofun
    | _ => cases s <;> exact iff_of_false nofun nofun

/-- Numbers are equal if they are the same up to the sign of zero, and not NaN. -/
theorem number_beq_iff (x y : Float) : (x == y) = true ↔
    x.isNaN = false ∧ unsignedZero x.toModel.unpack = unsignedZero y.toModel.unpack :=
  unpacked_beq_iff x.toModel.unpack y.toModel.unpack

theorem number_beq_self_iff (x : Float) : (x == x) = true ↔ x.isNaN = false := by
  rw [number_beq_iff]
  exact and_iff_left rfl

theorem isNaN_eq_of_unsignedZero_eq {a b : UnpackedFloat} (h : unsignedZero a = unsignedZero b) :
    a.isNaN = b.isNaN := by
  have hsame (x : UnpackedFloat) : (unsignedZero x).isNaN = x.isNaN := by cases x <;> rfl
  rw [← hsame a, h, hsame b]

theorem number_beq_symm {x y : Float} (h : (x == y) = true) : (y == x) = true := by
  rw [number_beq_iff] at h ⊢
  exact ⟨(isNaN_eq_of_unsignedZero_eq h.2).symm.trans h.1, h.2.symm⟩

theorem number_beq_trans {x y z : Float} (h : (x == y) = true) (h' : (y == z) = true) :
    (x == z) = true := by
  rw [number_beq_iff] at h h' ⊢
  exact ⟨h.1, h.2.trans h'.2⟩

end Numbers

/-! ## Callables -/

namespace Callable

theorem same_refl (c : Callable) : c.same c = true := by
  cases c <;> simp [same]

theorem same_symm {a b : Callable} (h : a.same b = true) : b.same a = true := by
  cases a <;> cases b <;> simp_all [same]

theorem same_trans {a b c : Callable} (h : a.same b = true) (h' : b.same c = true) :
    a.same c = true := by
  cases a <;> cases b <;> cases c <;> simp_all [same]

end Callable

/-! ## Entries with distinct keys -/

namespace Entries

variable {α : Type}

theorem get?_eq_some_iff {name : String} {value : α} {entries : List (String × α)}
    (h : (keys entries).Nodup) : get? name entries = some value ↔ (name, value) ∈ entries := by
  refine ⟨mem_of_get?, fun hmem => ?_⟩
  induction entries with
  | nil => simp at hmem
  | cons entry entries ih =>
    obtain ⟨key, first⟩ := entry
    rw [keys_cons, List.nodup_cons] at h
    rcases List.mem_cons.1 hmem with heq | hmem
    · cases heq
      simp [get?]
    · have hne : key ≠ name := by
        rintro rfl
        exact h.1 (List.mem_map.2 ⟨_, hmem, rfl⟩)
      simp [get?, hne, ih h.2 hmem]

theorem nodup_keys_perm {entries entries' : List (String × α)} (h : entries.Perm entries') :
    (keys entries).Nodup ↔ (keys entries').Nodup :=
  (h.map Prod.fst).nodup_iff

/-- The order of entries does not matter to what is found under a name. -/
theorem get?_perm {entries entries' : List (String × α)} (h : entries.Perm entries')
    (hkeys : (keys entries).Nodup) (name : String) : get? name entries = get? name entries' := by
  apply Option.ext
  intro value
  rw [get?_eq_some_iff hkeys, get?_eq_some_iff ((nodup_keys_perm h).1 hkeys)]
  exact h.mem_iff

/-- Names that all stand among as many others are those others. -/
theorem mem_keys_iff_of_subset {β : Type} {entries : List (String × α)}
    {others : List (String × β)} (hkeys : (keys entries).Nodup)
    (hsubset : keys entries ⊆ keys others) (hlength : others.length ≤ entries.length)
    (name : String) : name ∈ keys entries ↔ name ∈ keys others := by
  have hperm : (keys entries).Perm (keys others) :=
    (hkeys.subperm hsubset).perm_of_length_le (by simpa [keys] using hlength)
  exact hperm.mem_iff

end Entries

/-! ## Values -/

namespace Value

/-- The keys of every mapping in a value are distinct, as writing with `Entries.insert` keeps
them. -/
inductive Proper : Value → Prop where
  | none : Proper .none
  | number (x : Float) : Proper (.number x)
  | string (s : String) : Proper (.string s)
  | list {xs : List Value} (h : ∀ x ∈ xs, Proper x) : Proper (.list xs)
  | mapping {v : Value} {es : Bindings} (hv : v.entries? = some es)
    (hkeys : (Entries.keys es).Nodup) (h : ∀ e ∈ es, Proper e.2) : Proper v
  | callable (c : Callable) : Proper (.callable c)
  | function (name : String) (c : Callable) : Proper (.function name c)

/-- A number stands in a value. -/
inductive HasNumber (x : Float) : Value → Prop where
  | number : HasNumber x (.number x)
  | item {v : Value} {vs : List Value} (hv : v ∈ vs) (h : HasNumber x v) : HasNumber x (.list vs)
  | entry {v : Value} {es : Bindings} {e : String × Value} (hv : v.entries? = some es)
    (he : e ∈ es) (h : HasNumber x e.2) : HasNumber x v

/-- One value becomes another if mappings in it take the other form or another order of entries. -/
inductive Rearranges : Value → Value → Prop where
  | refl (v : Value) : Rearranges v v
  | trans {u v w : Value} (h : Rearranges u v) (h' : Rearranges v w) : Rearranges u w
  | mapping {u v : Value} {es es' : Bindings} (hu : u.entries? = some es)
    (hv : v.entries? = some es') (h : es.Perm es') : Rearranges u v
  | item {x y : Value} (before after : List Value) (h : Rearranges x y) :
    Rearranges (.list (before ++ x :: after)) (.list (before ++ y :: after))
  | entry {u v x y : Value} {before after : Bindings} {key : String} (h : Rearranges x y)
    (hu : u.entries? = some (before ++ (key, x) :: after))
    (hv : v.entries? = some (before ++ (key, y) :: after)) : Rearranges u v

/-- Two mappings have the same keys, with equal values under each. -/
def SameContents (as bs : Bindings) : Prop :=
  ∀ key, Option.Rel (fun a b => same a b = true) (Entries.get? key as) (Entries.get? key bs)

theorem Proper.items {xs : List Value} (h : (Value.list xs).Proper) : ∀ x ∈ xs, x.Proper := by
  cases h with
  | list h => exact h
  | mapping hv => cases hv

theorem Proper.entries {v : Value} {es : Bindings} (h : v.Proper) (hv : v.entries? = some es) :
    (Entries.keys es).Nodup ∧ ∀ e ∈ es, e.2.Proper := by
  cases h with
  | mapping hv' hkeys h =>
    cases hv.symm.trans hv'
    exact ⟨hkeys, h⟩
  | _ => cases hv

theorem Proper.get? {v : Value} {es : Bindings} {key : String} {x : Value} (h : v.Proper)
    (hv : v.entries? = some es) (hx : Entries.get? key es = some x) : x.Proper :=
  (h.entries hv).2 _ (Entries.mem_of_get? hx)

/-- What is read from values with distinct keys, and what is made of them, has distinct keys. -/
theorem Proper.hereditary : Hereditary Proper where
  none := .none
  number := .number
  string := .string
  list := .list
  items := Proper.items
  map hkeys h := .mapping rfl hkeys h
  mapEntries h := (h.entries rfl).2
  view h := .mapping rfl (h.entries rfl).1 (h.entries rfl).2
  viewEntries h := (h.entries rfl).2
  function := ⟨fun _ => .callable _, fun _ => .function _ _⟩

/-! ### What the comparison of lists and of mappings says -/

theorem sameItems_self_iff (xs : List Value) :
    sameItems xs xs = true ↔ ∀ x ∈ xs, same x x = true := by
  induction xs with
  | nil => simp [sameItems]
  | cons x xs ih => simp [sameItems, ih]

theorem sameEntries_iff (as bs : Bindings) : sameEntries as bs = true ↔
    ∀ e ∈ as, ∃ b, Entries.get? e.1 bs = some b ∧ same e.2 b = true := by
  induction as with
  | nil => simp [sameEntries]
  | cons e as ih =>
    obtain ⟨key, a⟩ := e
    simp only [sameEntries, Bool.and_eq_true, ih, List.forall_mem_cons]
    cases Entries.get? key bs <;> simp

theorem same_mapping {u v : Value} {as bs : Bindings} (hu : u.entries? = some as)
    (hv : v.entries? = some bs) :
    same u v = (decide (as.length = bs.length) && sameEntries as bs) := by
  cases u <;> cases hu <;> cases v <;> cases hv <;> rfl

/-- Only a mapping is equal to a mapping. -/
theorem entries?_of_same {u v : Value} {as : Bindings} (hu : u.entries? = some as)
    (h : same u v = true) : ∃ bs, v.entries? = some bs := by
  cases u <;> cases hu <;> cases v <;> first | exact ⟨_, rfl⟩ | cases h

theorem same_iff_sameContents {u v : Value} {as bs : Bindings} (hu : u.Proper) (hv : v.Proper)
    (has : u.entries? = some as) (hbs : v.entries? = some bs) :
    same u v = true ↔ SameContents as bs := by
  have hkeys := (hu.entries has).1
  have hkeys' := (hv.entries hbs).1
  rw [same_mapping has hbs, Bool.and_eq_true, decide_eq_true_iff, sameEntries_iff]
  constructor
  · rintro ⟨hlength, hentries⟩ key
    have hsubset : Entries.keys as ⊆ Entries.keys bs := by
      intro name hname
      obtain ⟨e, he, rfl⟩ := List.mem_map.1 hname
      obtain ⟨b, hb, -⟩ := hentries e he
      exact List.mem_map.2 ⟨_, Entries.mem_of_get? hb, rfl⟩
    cases ha : Entries.get? key as with
    | none =>
      have hb : Entries.get? key bs = Option.none := by
        rw [Entries.get?_eq_none_iff] at ha ⊢
        rwa [← Entries.mem_keys_iff_of_subset hkeys hsubset (Nat.le_of_eq hlength.symm)]
      rw [hb]
      exact .none
    | some a =>
      obtain ⟨b, hb, hsame⟩ := hentries _ (Entries.mem_of_get? ha)
      rw [hb]
      exact .some hsame
  · intro h
    have hnames : ∀ name, name ∈ Entries.keys as ↔ name ∈ Entries.keys bs := by
      intro name
      rw [← not_iff_not, ← Entries.get?_eq_none_iff, ← Entries.get?_eq_none_iff]
      have hname := h name
      revert hname
      cases Entries.get? name as <;> cases Entries.get? name bs <;> rintro ⟨⟩ <;> simp
    refine ⟨?_, fun e he => ?_⟩
    · have hperm := (List.perm_ext_iff_of_nodup hkeys hkeys').2 hnames
      simpa [Entries.keys] using hperm.length_eq
    · have hname := h e.1
      rw [(Entries.get?_eq_some_iff hkeys).2 he] at hname
      revert hname
      cases Entries.get? e.1 bs with
      | none => rintro ⟨⟩
      | some b => rintro ⟨hsame⟩; exact ⟨b, rfl, hsame⟩

/-! ### An equivalence apart from NaN -/

theorem sameItems_symm {xs ys : List Value}
    (ih : ∀ x ∈ xs, ∀ y ∈ ys, same x y = true → same y x = true)
    (h : sameItems xs ys = true) : sameItems ys xs = true := by
  induction xs generalizing ys with
  | nil =>
    cases ys with
    | nil => rfl
    | cons y ys => cases h
  | cons x xs ihxs =>
    cases ys with
    | nil => cases h
    | cons y ys =>
      simp only [sameItems, Bool.and_eq_true] at h ⊢
      exact ⟨ih x List.mem_cons_self y List.mem_cons_self h.1,
        ihxs (fun x hx y hy => ih x (.tail _ hx) y (.tail _ hy)) h.2⟩

theorem sameItems_trans {xs ys zs : List Value}
    (ih : ∀ x ∈ xs, ∀ y ∈ ys, ∀ z ∈ zs, same x y = true → same y z = true → same x z = true)
    (h : sameItems xs ys = true) (h' : sameItems ys zs = true) : sameItems xs zs = true := by
  induction xs generalizing ys zs with
  | nil =>
    cases ys with
    | nil => exact h'
    | cons y ys => cases h
  | cons x xs ihxs =>
    cases ys with
    | nil => cases h
    | cons y ys =>
      cases zs with
      | nil => cases h'
      | cons z zs =>
        simp only [sameItems, Bool.and_eq_true] at h h' ⊢
        exact ⟨ih x List.mem_cons_self y List.mem_cons_self z List.mem_cons_self h.1 h'.1,
          ihxs (fun x hx y hy z hz => ih x (.tail _ hx) y (.tail _ hy) z (.tail _ hz)) h.2 h'.2⟩

theorem SameContents.symm {as bs : Bindings}
    (ih : ∀ key a b, Entries.get? key as = some a → Entries.get? key bs = some b →
      same a b = true → same b a = true) (h : SameContents as bs) : SameContents bs as := by
  intro key
  have hkey := h key
  have ihkey := ih key
  revert hkey ihkey
  cases Entries.get? key as <;> cases Entries.get? key bs <;> rintro ⟨⟩ ihkey
  · exact .none
  · next hsame => exact .some (ihkey _ _ rfl rfl hsame)

theorem SameContents.trans {as bs cs : Bindings}
    (ih : ∀ key a b c, Entries.get? key as = some a → Entries.get? key bs = some b →
      Entries.get? key cs = some c → same a b = true → same b c = true → same a c = true)
    (h : SameContents as bs) (h' : SameContents bs cs) : SameContents as cs := by
  intro key
  have hkey := h key
  have hkey' := h' key
  have ihkey := ih key
  revert hkey hkey' ihkey
  cases Entries.get? key as <;> cases Entries.get? key bs <;> cases Entries.get? key cs <;>
    rintro ⟨⟩ ⟨⟩ ihkey
  · exact .none
  · next hsame hsame' => exact .some (ihkey _ _ _ rfl rfl rfl hsame hsame')

theorem same_symm {u v : Value} (hu : u.Proper) (hv : v.Proper) (h : same u v = true) :
    same v u = true := by
  induction hu generalizing v with
  | none =>
    cases v with
    | none => rfl
    | _ => cases h
  | number x =>
    cases v with
    | number y => exact number_beq_symm h
    | _ => cases h
  | string s =>
    cases v with
    | string t => simpa [same, eq_comm] using h
    | _ => cases h
  | list _ ih =>
    cases v with
    | list ys => exact sameItems_symm (fun x hx y hy => ih x hx (hv.items y hy)) h
    | _ => cases h
  | mapping has hkeys hproper ih =>
    obtain ⟨bs, hbs⟩ := entries?_of_same has h
    have hu := Proper.mapping has hkeys hproper
    rw [same_iff_sameContents hu hv has hbs] at h
    rw [same_iff_sameContents hv hu hbs has]
    exact h.symm fun key a b ha hb => ih _ (Entries.mem_of_get? ha) (hv.get? hbs hb)
  | callable c =>
    cases v with
    | callable c' => exact Callable.same_symm h
    | _ => cases h
  | function name c =>
    cases v with
    | function name' c' =>
      simp only [same, Bool.and_eq_true, decide_eq_true_iff] at h ⊢
      exact ⟨h.1.symm, Callable.same_symm h.2⟩
    | _ => cases h

theorem same_trans {u v w : Value} (hu : u.Proper) (hv : v.Proper) (hw : w.Proper)
    (h : same u v = true) (h' : same v w = true) : same u w = true := by
  induction hu generalizing v w with
  | none =>
    cases v with
    | none => exact h'
    | _ => cases h
  | number x =>
    cases v with
    | number y =>
      cases w with
      | number z => exact number_beq_trans h h'
      | _ => cases h'
    | _ => cases h
  | string s =>
    cases v with
    | string t =>
      have heq : s = t := of_decide_eq_true h
      rwa [heq]
    | _ => cases h
  | list _ ih =>
    cases v with
    | list ys =>
      cases w with
      | list zs =>
        exact sameItems_trans
          (fun x hx y hy z hz => ih x hx (hv.items y hy) (hw.items z hz)) h h'
      | _ => cases h'
    | _ => cases h
  | mapping has hkeys hproper ih =>
    obtain ⟨bs, hbs⟩ := entries?_of_same has h
    obtain ⟨cs, hcs⟩ := entries?_of_same hbs h'
    have hu := Proper.mapping has hkeys hproper
    rw [same_iff_sameContents hu hv has hbs] at h
    rw [same_iff_sameContents hv hw hbs hcs] at h'
    rw [same_iff_sameContents hu hw has hcs]
    exact h.trans (fun key a b c ha hb hc =>
      ih _ (Entries.mem_of_get? ha) (hv.get? hbs hb) (hw.get? hcs hc)) h'
  | callable c =>
    cases v with
    | callable c' =>
      cases w with
      | callable c'' => exact Callable.same_trans h h'
      | _ => cases h'
    | _ => cases h
  | function name c =>
    cases v with
    | function name' c' =>
      cases w with
      | function name'' c'' =>
        simp only [same, Bool.and_eq_true, decide_eq_true_iff] at h h' ⊢
        exact ⟨h.1.trans h'.1, Callable.same_trans h.2 h'.2⟩
      | _ => cases h'
    | _ => cases h

theorem sameContents_self_iff {es : Bindings} (hkeys : (Entries.keys es).Nodup) :
    SameContents es es ↔ ∀ e ∈ es, same e.2 e.2 = true := by
  constructor
  · intro h e he
    have hkey := h e.1
    rw [(Entries.get?_eq_some_iff hkeys).2 he] at hkey
    cases hkey with
    | some hsame => exact hsame
  · intro h key
    cases hx : Entries.get? key es with
    | none => exact .none
    | some x => exact .some (h _ (Entries.mem_of_get? hx))

theorem HasNumber.items {x : Float} {vs : List Value} (h : (Value.list vs).HasNumber x) :
    ∃ v ∈ vs, v.HasNumber x := by
  cases h with
  | item hv h => exact ⟨_, hv, h⟩
  | entry hv => cases hv

theorem HasNumber.entries {x : Float} {v : Value} {es : Bindings} (h : v.HasNumber x)
    (hv : v.entries? = some es) : ∃ e ∈ es, e.2.HasNumber x := by
  cases h with
  | entry hv' he h =>
    cases hv.symm.trans hv'
    exact ⟨_, he, h⟩
  | _ => cases hv

theorem not_hasNumber {x : Float} {v : Value} (hnumber : v.number? = Option.none)
    (hitems : v.items? = Option.none) (hentries : v.entries? = Option.none) : ¬v.HasNumber x := by
  intro h
  cases h with
  | number => cases hnumber
  | item => cases hitems
  | entry hv =>
    rw [hentries] at hv
    cases hv

theorem same_self_iff {v : Value} (hv : v.Proper) :
    same v v = true ↔ ∀ x, v.HasNumber x → x.isNaN = false := by
  induction hv with
  | none =>
    exact iff_of_true rfl fun x hx => absurd hx (not_hasNumber rfl rfl rfl)
  | number y =>
    show (y == y) = true ↔ _
    rw [number_beq_self_iff]
    refine ⟨fun hy x hx => ?_, fun h => h y .number⟩
    cases hx with
    | number => exact hy
    | entry hes => cases hes
  | string s =>
    exact iff_of_true (decide_eq_true rfl) fun x hx => absurd hx (not_hasNumber rfl rfl rfl)
  | @list vs _ ih =>
    show sameItems vs vs = true ↔ _
    rw [sameItems_self_iff]
    constructor
    · intro h x hx
      obtain ⟨v, hv, hx⟩ := hx.items
      exact (ih v hv).1 (h v hv) x hx
    · intro h v hv
      exact (ih v hv).2 fun x hx => h x (.item hv hx)
  | mapping hes hkeys hproper ih =>
    have hv := Proper.mapping hes hkeys hproper
    rw [same_iff_sameContents hv hv hes hes, sameContents_self_iff hkeys]
    constructor
    · intro h x hx
      obtain ⟨e, he, hx⟩ := hx.entries hes
      exact (ih e he).1 (h e he) x hx
    · intro h e he
      exact (ih e he).2 fun x hx => h x (.entry hes he hx)
  | callable c =>
    exact iff_of_true (Callable.same_refl c) fun x hx => absurd hx (not_hasNumber rfl rfl rfl)
  | function name c =>
    have hsame : same (.function name c) (.function name c) = true := by
      simp [same, Callable.same_refl]
    exact iff_of_true hsame fun x hx => absurd hx (not_hasNumber rfl rfl rfl)

/-! ### Rearranging a value -/

theorem sameItems_congr {x y : Value} {zs : List Value} (before after : List Value)
    (h : ∀ z ∈ zs, same x z = same y z) :
    sameItems (before ++ x :: after) zs = sameItems (before ++ y :: after) zs := by
  induction before generalizing zs with
  | nil =>
    cases zs with
    | nil => rfl
    | cons z zs => simp only [List.nil_append, sameItems, h z List.mem_cons_self]
  | cons b before ih =>
    cases zs with
    | nil => rfl
    | cons z zs =>
      simp only [List.cons_append, sameItems]
      rw [ih fun z hz => h z (.tail _ hz)]

theorem sameEntries_congr {key : String} {x y : Value} {cs : Bindings} (before after : Bindings)
    (h : ∀ c, Entries.get? key cs = some c → same x c = same y c) :
    sameEntries (before ++ (key, x) :: after) cs =
      sameEntries (before ++ (key, y) :: after) cs := by
  induction before with
  | nil =>
    simp only [List.nil_append, sameEntries]
    cases hc : Entries.get? key cs with
    | none => rfl
    | some c => exact congrArg (· && sameEntries after cs) (h c hc)
  | cons b before ih => simp only [List.cons_append, sameEntries, ih]

theorem Rearranges.proper {u v : Value} (h : u.Rearranges v) (hu : u.Proper) : v.Proper := by
  induction h with
  | refl v => exact hu
  | trans _ _ ih ih' => exact ih' (ih hu)
  | mapping hes hes' hperm =>
    obtain ⟨hkeys, hproper⟩ := hu.entries hes
    refine .mapping hes' ((Entries.nodup_keys_perm hperm).1 hkeys) fun e he => ?_
    exact hproper e (hperm.mem_iff.2 he)
  | item before after _ ih =>
    have hitems := hu.items
    simp only [List.forall_mem_append, List.forall_mem_cons] at hitems
    refine .list ?_
    simp only [List.forall_mem_append, List.forall_mem_cons]
    exact ⟨hitems.1, ih hitems.2.1, hitems.2.2⟩
  | entry _ hes hes' ih =>
    obtain ⟨hkeys, hproper⟩ := hu.entries hes
    simp only [List.forall_mem_append, List.forall_mem_cons] at hproper
    refine .mapping hes' (by simpa [Entries.keys] using hkeys) ?_
    simp only [List.forall_mem_append, List.forall_mem_cons]
    exact ⟨hproper.1, ih hproper.2.1, hproper.2.2⟩

theorem same_congr_mapping {u v w : Value} {as bs : Bindings} (hu : u.entries? = some as)
    (hv : v.entries? = some bs) (h : ∀ cs, w.entries? = some cs → same u w = same v w) :
    same u w = same v w := by
  cases hw : w.entries? with
  | some cs => exact h cs hw
  | none =>
    -- What is no mapping differs from both.
    have hne : ∀ {x : Value} {es : Bindings}, x.entries? = some es → same x w = false := by
      intro x es hx
      rw [Bool.eq_false_iff]
      intro hsame
      obtain ⟨cs, hcs⟩ := entries?_of_same hx hsame
      rw [hw] at hcs
      cases hcs
    rw [hne hu, hne hv]

theorem Rearranges.same_left {u v w : Value} (h : u.Rearranges v) (hu : u.Proper)
    (hw : w.Proper) : same u w = same v w := by
  induction h generalizing w with
  | refl v => rfl
  | trans h _ ih ih' => exact (ih hu hw).trans (ih' (h.proper hu) hw)
  | @mapping u v as bs has hbs hperm =>
    apply same_congr_mapping has hbs
    intro cs hcs
    have hv := (Rearranges.mapping has hbs hperm).proper hu
    have hget := Entries.get?_perm hperm (hu.entries has).1
    rw [Bool.eq_iff_iff, same_iff_sameContents hu hw has hcs, same_iff_sameContents hv hw hbs hcs]
    simp only [SameContents, hget]
  | item before after _ ih =>
    cases w with
    | list zs =>
      have hx := hu.items _ (List.mem_append_right before List.mem_cons_self)
      exact sameItems_congr before after fun z hz => ih hx (hw.items z hz)
    | _ => rfl
  | @entry u v x y before after key _ has hbs ih =>
    apply same_congr_mapping has hbs
    intro cs hcs
    have hx := (hu.entries has).2 _ (List.mem_append_right before List.mem_cons_self)
    rw [same_mapping has hcs, same_mapping hbs hcs,
      sameEntries_congr before after fun c hc => ih hx (hw.get? hcs hc)]
    simp

theorem same_comm {u v : Value} (hu : u.Proper) (hv : v.Proper) : same u v = same v u := by
  rw [Bool.eq_iff_iff]
  exact ⟨same_symm hu hv, same_symm hv hu⟩

/-- Equality is symmetric and transitive, a value is equal to itself exactly if no number in it is
NaN, and the form of the mappings in two values and the order of their entries do not matter. -/
theorem beq_laws {u v w : Value} (hu : u.Proper) (hv : v.Proper) (hw : w.Proper) :
    ((u == v) = true → (v == u) = true) ∧
    ((u == v) = true → (v == w) = true → (u == w) = true) ∧
    ((v == v) = true ↔ ∀ x, v.HasNumber x → x.isNaN = false) ∧
    ∀ u' v', u.Rearranges u' → v.Rearranges v' → (u' == v') = (u == v) := by
  refine ⟨same_symm hu hv, same_trans hu hv hw, same_self_iff hv, ?_⟩
  intro u' v' hu' hv'
  have hproper := hu'.proper hu
  calc same u' v'
    _ = same v' u' := same_comm hproper (hv'.proper hv)
    _ = same v u' := (hv'.same_left hv hproper).symm
    _ = same u' v := same_comm hv hproper
    _ = same u v := (hu'.same_left hu hv).symm

/-- A mapping with a mapping and a zero in it, as stored. -/
def storedSample : Value :=
  .map [("a", .number 0.0), ("b", .map [("c", .callable (.builtin .out)), ("d", .none)])]

/-- The same mapping as read, with the entries in other orders and the other zero. -/
def readSample : Value :=
  .view [("b", .map [("d", .none), ("c", .callable (.builtin .out))]), ("a", .number (-0.0))]

theorem storedSample_proper : storedSample.Proper := by
  refine .mapping rfl (by decide) ?_
  simp only [List.forall_mem_cons, List.not_mem_nil]
  refine ⟨.number _, .mapping rfl (by decide) ?_, by simp⟩
  simp only [List.forall_mem_cons, List.not_mem_nil]
  exact ⟨.callable _, .none, by simp⟩

theorem readSample_proper : readSample.Proper := by
  refine .mapping rfl (by decide) ?_
  simp only [List.forall_mem_cons, List.not_mem_nil]
  refine ⟨.mapping rfl (by decide) ?_, .number _, by simp⟩
  simp only [List.forall_mem_cons, List.not_mem_nil]
  exact ⟨.none, .callable _, by simp⟩

theorem beq_laws_stored_and_read :
    (storedSample == readSample) = true ∧ (readSample == storedSample) = true ∧
    (storedSample == storedSample) = true ∧
    (∀ x, readSample.HasNumber x → x.isNaN = false) ∧
    (Value.view [("b", .map [("c", .callable (.builtin .out)), ("d", .none)]), ("a", .number 0.0)]
      == readSample) = true := by
  have h : (storedSample == readSample) = true := by decide
  have h' : (readSample == readSample) = true := by decide
  obtain ⟨hsymm, htrans, hself, hrearranges⟩ :=
    beq_laws storedSample_proper readSample_proper storedSample_proper
  refine ⟨h, hsymm h, htrans h (hsymm h), hself.1 h', ?_⟩
  rw [hrearranges _ readSample (.mapping rfl rfl (.swap _ _ _)) (.refl _), h]

end Value

end CallScript
