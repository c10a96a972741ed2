import CallScript.Engine.Step
import Mathlib.Order.Bounds.Basic
import Mathlib.Order.MinMax

/-!
# Edit distance counts edits

An edit puts a character in, takes one out or replaces one; `Edits n a b` says that `n` edits turn
`a` into `b`.  The table behind `editDistance` holds the distances between the prefixes of two
texts, and these follow a recursion on the last characters (`distance`, which reads its texts from
the end).  Every row is right if the row before it is (`nextRow_row`), and no edit changes a
distance by more than one (`Edit.near`), so the last entry of the last row is the least number of
edits (`editDistance_isLeast`).  A name that is suggested is the first of the nearest
(`suggestion_is_nearest`).
-/

namespace CallScript

/-! ## Edits -/

/-- One edit of a text. -/
inductive Edit : List Char → List Char → Prop where
  | insertion (before after : List Char) (c : Char) : Edit (before ++ after) (before ++ c :: after)
  | deletion (before after : List Char) (c : Char) : Edit (before ++ c :: after) (before ++ after)
  | substitution (before after : List Char) (c d : Char) :
    Edit (before ++ c :: after) (before ++ d :: after)

/-- A number of edits, one after another, turn a text into another. -/
inductive Edits : Nat → List Char → List Char → Prop where
  | none (text : List Char) : Edits 0 text text
  | more {n : Nat} {first next last : List Char} (h : Edit first next) (hs : Edits n next last) :
    Edits (n + 1) first last

theorem Edit.cons {a b : List Char} (h : Edit a b) (c : Char) : Edit (c :: a) (c :: b) := by
  cases h with
  | insertion before after d => exact .insertion (c :: before) after d
  | deletion before after d => exact .deletion (c :: before) after d
  | substitution before after d e => exact .substitution (c :: before) after d e

theorem Edit.reverse {a b : List Char} (h : Edit a b) : Edit a.reverse b.reverse := by
  cases h with
  | insertion before after c => simpa using Edit.insertion after.reverse before.reverse c
  | deletion before after c => simpa using Edit.deletion after.reverse before.reverse c
  | substitution before after c d => simpa using Edit.substitution after.reverse before.reverse c d

theorem Edits.cons {n : Nat} {a b : List Char} (h : Edits n a b) (c : Char) :
    Edits n (c :: a) (c :: b) := by
  induction h with
  | none text => exact .none (c :: text)
  | more h _ ih => exact .more (h.cons c) ih

theorem Edits.reverse {n : Nat} {a b : List Char} (h : Edits n a b) :
    Edits n a.reverse b.reverse := by
  induction h with
  | none text => exact .none text.reverse
  | more h _ ih => exact .more h.reverse ih

theorem edits_reverse_iff {n : Nat} {a b : List Char} :
    Edits n a.reverse b.reverse ↔ Edits n a b := by
  constructor
  · intro h
    simpa using h.reverse
  · exact Edits.reverse

/-! ## Distances by recursion -/

/-- The least cost of turning one text into the other from the front on: a first character is taken
out, put in, or kept or replaced. -/
def distance : List Char → List Char → Nat
  | [], b => b.length
  | a, [] => a.length
  | c :: a, d :: b =>
    min (min (distance a (d :: b) + 1) (distance (c :: a) b + 1))
      (distance a b + if c = d then 0 else 1)

@[simp] theorem distance_nil_left (b : List Char) : distance [] b = b.length := by
  rw [distance]

@[simp] theorem distance_nil_right (a : List Char) : distance a [] = a.length := by
  cases a <;> simp [distance]

theorem distance_cons_cons (c d : Char) (a b : List Char) :
    distance (c :: a) (d :: b) =
      min (min (distance a (d :: b) + 1) (distance (c :: a) b + 1))
        (distance a b + if c = d then 0 else 1) := by
  rw [distance]

theorem edits_nil_left : ∀ b : List Char, Edits b.length [] b
  | [] => .none []
  | d :: b => .more (.insertion [] [] d) ((edits_nil_left b).cons d)

theorem edits_nil_right : ∀ a : List Char, Edits a.length a []
  | [] => .none []
  | c :: a => .more (.deletion [] a c) (edits_nil_right a)

/-- The distance is a number of edits that are enough. -/
theorem edits_distance (a b : List Char) : Edits (distance a b) a b := by
  fun_induction distance a b with
  | case1 b => exact edits_nil_left b
  | case2 a _ => exact edits_nil_right a
  | case3 c a d b ih_delete ih_insert ih_keep =>
    rcases min_choice (min (distance a (d :: b) + 1) (distance (c :: a) b + 1))
      (distance a b + if c = d then 0 else 1) with h | h <;> rw [h]
    · rcases min_choice (distance a (d :: b) + 1) (distance (c :: a) b + 1) with h | h <;> rw [h]
      · exact .more (.deletion [] a c) ih_delete
      · exact .more (.insertion [] (c :: a) d) (ih_insert.cons d)
    · by_cases hcd : c = d
      · rw [if_pos hcd, hcd]
        exact ih_keep.cons d
      · rw [if_neg hcd]
        exact .more (.substitution [] a c d) (ih_keep.cons d)

/-! ## No edit is worth more than one -/

theorem distance_cons_le_left (c : Char) (a b : List Char) :
    distance (c :: a) b ≤ distance a b + 1 := by
  cases b with
  | nil => simp
  | cons d b =>
    rw [distance_cons_cons]
    omega

theorem distance_cons_le_right (d : Char) (a b : List Char) :
    distance a (d :: b) ≤ distance a b + 1 := by
  cases a with
  | nil => simp
  | cons c a =>
    rw [distance_cons_cons]
    omega

/-- One text is at most one edit farther than another from every text. -/
def Near (a a' : List Char) : Prop :=
  ∀ b, distance a b ≤ distance a' b + 1

theorem near_cons (c : Char) (a : List Char) : Near a (c :: a) := by
  intro b
  induction b with
  | nil => simp; omega
  | cons d b ih =>
    have hright := distance_cons_le_right d a b
    rw [distance_cons_cons]
    omega

theorem near_replace (c d : Char) (a : List Char) : Near (c :: a) (d :: a) := by
  intro b
  induction b with
  | nil => simp
  | cons e b ih =>
    rw [distance_cons_cons, distance_cons_cons]
    split <;> split <;> omega

theorem Near.cons {a a' : List Char} (h : Near a a') (c : Char) : Near (c :: a) (c :: a') := by
  intro b
  induction b with
  | nil => simpa using h []
  | cons d b ih =>
    have hlong := h (d :: b)
    have hshort := h b
    rw [distance_cons_cons, distance_cons_cons]
    omega

theorem Near.append {a a' : List Char} (h : Near a a') : ∀ before, Near (before ++ a) (before ++ a')
  | [] => h
  | c :: before => (Near.append h before).cons c

theorem Edit.near {a a' : List Char} (h : Edit a a') : Near a a' := by
  cases h with
  | insertion before after c => exact (near_cons c after).append before
  | deletion before after c => exact Near.append (distance_cons_le_left c after) before
  | substitution before after c d => exact (near_replace c d after).append before

theorem distance_self (a : List Char) : distance a a = 0 := by
  induction a with
  | nil => exact distance_nil_left []
  | cons c a ih =>
    rw [distance_cons_cons, if_pos rfl]
    omega

/-- The distance is the least number of edits. -/
theorem distance_isLeast (a b : List Char) : IsLeast {n | Edits n a b} (distance a b) := by
  refine ⟨edits_distance a b, fun n h => ?_⟩
  induction h with
  | none text => rw [distance_self]
  | more h _ ih =>
    have hfirst := h.near
    exact (hfirst _).trans (Nat.succ_le_succ ih)

/-! ## The table -/

/-- The row of the table for a prefix of the first text, from a place in the second text on.  Both
prefixes are given from their ends. -/
def row (read passed : List Char) : List Char → List Nat
  | [] => [distance read passed]
  | d :: rest => distance read passed :: row read (d :: passed) rest

theorem row_eq_cons (read passed rest : List Char) :
    ∃ entries, row read passed rest = distance read passed :: entries := by
  cases rest with
  | nil => exact ⟨[], rfl⟩
  | cons d rest => exact ⟨_, rfl⟩

theorem range_eq_row (target : List Char) : List.range (target.length + 1) = row [] [] target := by
  have hrow (passed : List Char) : ∀ rest : List Char,
      row [] passed rest = List.range' passed.length (rest.length + 1) := by
    intro rest
    induction rest generalizing passed with
    | nil => simp [row]
    | cons d rest ih => simp [row, ih, List.range'_succ]
  rw [hrow, List.range_eq_range']
  rfl

/-- The entries after the first one, each from the entry before it and from two entries of the row
above. -/
theorem nextEntries_row (c : Char) (read passed rest : List Char) :
    distance (c :: read) passed ::
        nextEntries c rest (row read passed rest) (distance (c :: read) passed) =
      row (c :: read) passed rest := by
  induction rest generalizing passed with
  | nil => rfl
  | cons d rest ih =>
    obtain ⟨entries, hentries⟩ := row_eq_cons read (d :: passed) rest
    have hentry : min (min (distance read (d :: passed) + 1) (distance (c :: read) passed + 1))
        (distance read passed + if c = d then 0 else 1) = distance (c :: read) (d :: passed) :=
      (distance_cons_cons c d read passed).symm
    have htail := ih (d :: passed)
    simp only [row, hentries, nextEntries, hentry] at htail ⊢
    rw [htail]

theorem nextRow_row (target read : List Char) (c : Char) :
    nextRow target (row read [] target) c = row (c :: read) [] target := by
  obtain ⟨entries, hentries⟩ := row_eq_cons read [] target
  have hfirst : (row read [] target).headD 0 + 1 = distance (c :: read) [] := by
    simp [hentries]
  rw [nextRow, hfirst]
  exact nextEntries_row c read [] target

theorem foldl_nextRow (target source read : List Char) :
    source.foldl (nextRow target) (row read [] target) =
      row (source.reverse ++ read) [] target := by
  induction source generalizing read with
  | nil => rfl
  | cons c source ih =>
    rw [List.foldl_cons, nextRow_row, ih]
    simp

theorem getLastD_row (read passed rest : List Char) (default : Nat) :
    (row read passed rest).getLastD default = distance read (rest.reverse ++ passed) := by
  induction rest generalizing passed default with
  | nil => rfl
  | cons d rest ih =>
    rw [row, List.getLastD_cons, ih]
    simp

/-- The table computes distances. -/
theorem editDistance_eq (source target : List Char) :
    editDistance source target = distance source.reverse target.reverse := by
  rw [editDistance, range_eq_row, foldl_nextRow, getLastD_row, List.append_nil, List.append_nil]

theorem editDistance_isLeast (source target : List Char) :
    IsLeast {n | Edits n source target} (editDistance source target) := by
  have hleast := distance_isLeast source.reverse target.reverse
  simp only [edits_reverse_iff] at hleast
  rw [editDistance_eq]
  exact hleast

/-! ## Suggestions -/

theorem leastDistance_eq_none_iff {entries : List (Nat × String)} :
    leastDistance entries = none ↔ entries = [] := by
  cases entries with
  | nil => simp [leastDistance]
  | cons entry entries =>
    rw [leastDistance]
    split
    · simp
    · split <;> simp

/-- What is found has farther entries before it and no nearer ones after it. -/
theorem exists_split_of_leastDistance {entries : List (Nat × String)} {best : Nat × String}
    (h : leastDistance entries = some best) : ∃ before after, entries = before ++ best :: after ∧
      (∀ entry ∈ before, best.1 < entry.1) ∧ ∀ entry ∈ after, best.1 ≤ entry.1 := by
  induction entries generalizing best with
  | nil => cases h
  | cons entry entries ih =>
    rw [leastDistance] at h
    split at h
    · next hnone =>
      cases h
      rw [leastDistance_eq_none_iff.1 hnone]
      exact ⟨[], [], rfl, by simp, by simp⟩
    · next found hfound =>
      obtain ⟨before, after, rfl, hbefore, hafter⟩ := ih hfound
      by_cases hlt : found.1 < entry.1
      · rw [if_pos hlt] at h
        cases h
        exact ⟨entry :: before, after, rfl, List.forall_mem_cons.2 ⟨hlt, hbefore⟩, hafter⟩
      · rw [if_neg hlt] at h
        cases h
        have hle : entry.1 ≤ found.1 := Nat.le_of_not_lt hlt
        refine ⟨[], before ++ found :: after, rfl, by simp, ?_⟩
        intro other hother
        simp only [List.mem_append, List.mem_cons] at hother
        rcases hother with hother | rfl | hother
        · exact hle.trans (hbefore other hother).le
        · exact hle
        · exact hle.trans (hafter other hother)

theorem leastDistance_append {before after : List (Nat × String)} {best : Nat × String}
    (hbefore : ∀ entry ∈ before, best.1 < entry.1) (hafter : ∀ entry ∈ after, best.1 ≤ entry.1) :
    leastDistance (before ++ best :: after) = some best := by
  induction before with
  | nil =>
    rw [List.nil_append, leastDistance]
    split
    · rfl
    · next found hfound =>
      obtain ⟨_, _, rfl, -⟩ := exists_split_of_leastDistance hfound
      have hle := hafter found (by simp)
      rw [if_neg (by omega)]
  | cons entry before ih =>
    obtain ⟨hentry, hbefore⟩ := List.forall_mem_cons.1 hbefore
    rw [List.cons_append, leastDistance, ih hbefore]
    simp only [if_pos hentry]

/-- A candidate within the threshold than which none is nearer to the name, and which stands before
all others that are as near. -/
structure Nearest (name : String) (threshold : Nat) (candidates : List String) (best : String) :
    Prop where
  within : editDistance name.toList best.toList ≤ threshold
  first : ∃ before after, candidates = before ++ best :: after ∧
    (∀ other ∈ before,
      editDistance name.toList best.toList < editDistance name.toList other.toList) ∧
    ∀ other ∈ after,
      editDistance name.toList best.toList ≤ editDistance name.toList other.toList

section Nearest

variable {name : String} {threshold : Nat} {candidates : List String} {best : String}

theorem nearest?_eq_none_iff :
    nearest? name threshold candidates = none ↔
      ∀ candidate ∈ candidates, threshold < editDistance name.toList candidate.toList := by
  rw [nearest?, Option.map_eq_none_iff, leastDistance_eq_none_iff, List.filter_eq_nil_iff]
  simp

theorem nearest_of_nearest? (h : nearest? name threshold candidates = some best) :
    Nearest name threshold candidates best := by
  rw [nearest?, Option.map_eq_some_iff] at h
  obtain ⟨entry, hleast, rfl⟩ := h
  obtain ⟨before, after, hsplit, hbefore, hafter⟩ := exists_split_of_leastDistance hleast
  obtain ⟨front, back, hmeasured, rfl, hback⟩ := List.filter_eq_append_iff.1 hsplit
  obtain ⟨skipped, rest, rfl, hskipped, hwithin, rfl⟩ := List.filter_eq_cons_iff.1 hback
  rw [← List.append_assoc] at hmeasured
  obtain ⟨earlier, others, rfl, hearlier, hothers⟩ := List.map_eq_append_iff.1 hmeasured
  obtain ⟨best, later, rfl, rfl, rfl⟩ := List.map_eq_cons_iff.1 hothers
  simp only [decide_eq_true_eq] at hwithin
  refine ⟨hwithin, earlier, later, rfl, fun other hother => ?_, fun other hother => ?_⟩
  -- A candidate that the filter drops is farther than the threshold, and so than the best.
  · by_cases hnear : editDistance name.toList other.toList ≤ threshold
    · have hmem : (editDistance name.toList other.toList, other) ∈ front ++ skipped := by
        rw [← hearlier]
        exact List.mem_map_of_mem hother
      rcases List.mem_append.1 hmem with hmem | hmem
      · exact hbefore _ (List.mem_filter.2 ⟨hmem, decide_eq_true hnear⟩)
      · exact absurd (decide_eq_true hnear) (hskipped _ hmem)
    · exact Nat.lt_of_le_of_lt hwithin (Nat.lt_of_not_le hnear)
  · by_cases hnear : editDistance name.toList other.toList ≤ threshold
    · exact hafter _ (List.mem_filter.2 ⟨List.mem_map_of_mem hother, decide_eq_true hnear⟩)
    · exact hwithin.trans (Nat.le_of_not_le hnear)

theorem nearest?_of_nearest (h : Nearest name threshold candidates best) :
    nearest? name threshold candidates = some best := by
  obtain ⟨before, after, rfl, hbefore, hafter⟩ := h.first
  rw [nearest?, Option.map_eq_some_iff]
  refine ⟨(editDistance name.toList best.toList, best), ?_, rfl⟩
  rw [List.map_append, List.map_cons, List.filter_append,
    List.filter_cons_of_pos (by simpa using h.within)]
  refine leastDistance_append ?_ ?_
  · intro entry hentry
    obtain ⟨other, hother, rfl⟩ := List.mem_map.1 (List.mem_filter.1 hentry).1
    exact hbefore other hother
  · intro entry hentry
    obtain ⟨other, hother, rfl⟩ := List.mem_map.1 (List.mem_filter.1 hentry).1
    exact hafter other hother

theorem nearest?_eq_some_iff :
    nearest? name threshold candidates = some best ↔ Nearest name threshold candidates best :=
  ⟨nearest_of_nearest?, nearest?_of_nearest⟩

end Nearest

theorem find_eq_error_iff {env : Environment} {name : String} {e : RuntimeError} :
    env.find name = .error e ↔
      env.get? name = none ∧ e = .undefinedName name (nearest? name 2 env.names) := by
  unfold Environment.find
  cases env.get? name with
  | some v => simp
  | none => simp [eq_comm]

/-- The table counts the least number of edits; a candidate is suggested unless all are farther than
the threshold, and then the first of the nearest; and the failure of a look-up suggests one of the
names that are bound. -/
theorem suggestion_is_nearest :
    (∀ a b : String, IsLeast {n | Edits n a.toList b.toList} (editDistance a.toList b.toList)) ∧
    (∀ (name : String) (threshold : Nat) (candidates : List String),
      (nearest? name threshold candidates = none ↔
        ∀ candidate ∈ candidates, threshold < editDistance name.toList candidate.toList) ∧
      ∀ best, nearest? name threshold candidates = some best ↔
        Nearest name threshold candidates best) ∧
    ∀ (env : Environment) (name : String) (e : RuntimeError), env.find name = .error e ↔
      env.get? name = none ∧ ∃ suggestion, e = .undefinedName name suggestion ∧
        (suggestion = none ↔ ∀ bound ∈ env.names, 2 < editDistance name.toList bound.toList) ∧
        ∀ best, suggestion = some best ↔ Nearest name 2 env.names best := by
  refine ⟨fun a b => editDistance_isLeast _ _,
    fun name threshold candidates => ⟨nearest?_eq_none_iff, fun best => nearest?_eq_some_iff⟩,
    fun env name e => ?_⟩
  rw [find_eq_error_iff]
  constructor
  · rintro ⟨hunbound, rfl⟩
    exact ⟨hunbound, _, rfl, nearest?_eq_none_iff, fun best => nearest?_eq_some_iff⟩
  · rintro ⟨hunbound, suggestion, rfl, -, hbest⟩
    have hsame : suggestion = nearest? name 2 env.names :=
      Option.ext fun best => (hbest best).trans nearest?_eq_some_iff.symm
    exact ⟨hunbound, by rw [hsame]⟩

/-- Of two names at the same distance, the first is suggested. -/
example : nearest? "sot" 2 ["fle", "set", "sat", "out"] = some "set" := by decide

end CallScript
