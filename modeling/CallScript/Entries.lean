/-!
# Ordered entries

Mappings from names to values that remember the order in which names were first written.  Writing a
name again keeps its place, erasing a name keeps the order of the rest.  Keys stay distinct
(`nodup_keys_insert`) and in the order of their first writing (`keys_extend`), and a look-up gives
the value written last (`get?_insert`, `get?_extend`).
-/

namespace CallScript.Entries

variable {α : Type}

/-- The value under a name. -/
def get? (name : String) : List (String × α) → Option α
  | [] => none
  | (key, value) :: entries => if key = name then some value else get? name entries

/-- Writes a value under a name: in its place if the name is present, at the end otherwise. -/
def insert (name : String) (value : α) : List (String × α) → List (String × α)
  | [] => [(name, value)]
  | (key, old) :: entries =>
    if key = name then (key, value) :: entries else (key, old) :: insert name value entries

/-- Removes a name. -/
def erase (name : String) : List (String × α) → List (String × α)
  | [] => []
  | (key, value) :: entries => if key = name then entries else (key, value) :: erase name entries

/-- Writes every entry of `more`, in order. -/
def extend (entries more : List (String × α)) : List (String × α) :=
  more.foldl (fun entries (key, value) => insert key value entries) entries

/-- The entries written by a list of pairs: a repeated name keeps its first place and its last
value. -/
def ofList (pairs : List (String × α)) : List (String × α) :=
  extend [] pairs

/-- The names, in order. -/
def keys (entries : List (String × α)) : List String :=
  entries.map Prod.fst

/-- Whether a name is present. -/
def contains (name : String) (entries : List (String × α)) : Bool :=
  (get? name entries).isSome

@[simp] theorem get?_nil (name : String) : get? name ([] : List (String × α)) = none := rfl

@[simp] theorem keys_nil : keys ([] : List (String × α)) = [] := rfl

@[simp] theorem keys_cons (entry : String × α) (entries : List (String × α)) :
    keys (entry :: entries) = entry.1 :: keys entries := rfl

theorem get?_insert (name query : String) (value : α) (entries : List (String × α)) :
    get? query (insert name value entries) =
      if name = query then some value else get? query entries := by
  induction entries with
  | nil => simp [insert, get?]
  | cons entry entries ih =>
    obtain ⟨key, old⟩ := entry
    by_cases h : key = name
    · subst h
      by_cases hq : key = query <;> simp [insert, get?, hq]
    · by_cases hq : key = query
      · subst hq
        simp [insert, get?, h, Ne.symm h]
      · simp [insert, get?, h, hq, ih]

theorem keys_insert (name : String) (value : α) (entries : List (String × α)) :
    keys (insert name value entries) =
      if name ∈ keys entries then keys entries else keys entries ++ [name] := by
  induction entries with
  | nil => simp [insert]
  | cons entry entries ih =>
    obtain ⟨key, old⟩ := entry
    by_cases h : key = name
    · simp [insert, h]
    · have h' : name ≠ key := fun e => h e.symm
      simp only [insert, h, if_false, keys_cons, ih, List.mem_cons, h', false_or]
      split <;> simp

theorem nodup_keys_insert (name : String) (value : α) {entries : List (String × α)}
    (h : (keys entries).Nodup) : (keys (insert name value entries)).Nodup := by
  rw [keys_insert]
  split
  · exact h
  · next hn =>
    rw [List.nodup_append]
    refine ⟨h, by simp, ?_⟩
    intro a ha b hb e
    simp only [List.mem_singleton] at hb
    exact hn (hb ▸ e ▸ ha)

theorem get?_append (query : String) (entries more : List (String × α)) :
    get? query (entries ++ more) = (get? query entries).or (get? query more) := by
  induction entries with
  | nil => rfl
  | cons entry entries ih =>
    obtain ⟨key, value⟩ := entry
    by_cases h : key = query <;> simp [get?, h, ih]

theorem extend_cons (entries more : List (String × α)) (name : String) (value : α) :
    extend entries ((name, value) :: more) = extend (insert name value entries) more := rfl

theorem extend_append (entries more others : List (String × α)) :
    extend entries (more ++ others) = extend (extend entries more) others :=
  List.foldl_append

/-- Of what is written under a name, the last remains. -/
theorem get?_extend (query : String) (entries more : List (String × α)) :
    get? query (extend entries more) = (get? query more.reverse).or (get? query entries) := by
  induction more generalizing entries with
  | nil => rfl
  | cons entry more ih =>
    obtain ⟨key, value⟩ := entry
    rw [extend_cons, ih, List.reverse_cons, get?_append, get?_insert]
    cases get? query more.reverse <;> by_cases h : key = query <;> simp [get?, h]

/-- New names follow those that are present, in the order in which they are first written. -/
theorem keys_extend (entries more : List (String × α)) :
    keys (extend entries more) =
      keys entries ++ ((keys more).removeAll (keys entries)).eraseDups := by
  induction more generalizing entries with
  | nil => simp [extend]
  | cons entry more ih =>
    obtain ⟨key, value⟩ := entry
    rw [extend_cons, ih, keys_insert, keys_cons]
    split
    · next hmem => simp [List.removeAll, hmem]
    · next hnew =>
      have hrest : (keys more).removeAll (keys entries ++ [key]) =
          ((keys more).removeAll (keys entries)).filter fun name => !name == key := by
        simp [List.removeAll, List.filter_filter, Bool.and_comm, Bool.beq_eq_decide_eq]
      have hfirst : (key :: keys more).removeAll (keys entries) =
          key :: (keys more).removeAll (keys entries) := by
        simp [List.removeAll, hnew]
      rw [hrest, hfirst, List.eraseDups_cons, List.append_assoc, List.singleton_append]

end CallScript.Entries
