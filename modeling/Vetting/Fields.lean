/-!
# Ordered maps

A map from names to values that remembers the order in which its names arrived: records,
rule maps, error maps and reports are all of this kind. Reading a name finds its first entry;
writing a name keeps its place when it is there and appends it otherwise. The two laws
`get?_put_self` and `get?_put_of_ne` say what a write does to every reading, and `keys_put`
what it does to the order.
-/

set_option autoImplicit false

namespace Vetting

/-- A map from names to values, in order of arrival. -/
abbrev Fields (α : Type) := List (String × α)

namespace Fields

variable {α β : Type}

/-- The value under a name, if there is one. -/
def get? (fields : Fields α) (name : String) : Option α :=
  List.lookup name fields

/-- Whether a name has an entry. -/
def has (fields : Fields α) (name : String) : Bool :=
  (fields.get? name).isSome

/-- The names in order. -/
def keys (fields : Fields α) : List String :=
  fields.map Prod.fst

/-- The values in order. -/
def values (fields : Fields α) : List α :=
  fields.map Prod.snd

/-- Writes a value: in place when the name has an entry, at the end otherwise. -/
def put : Fields α → String → α → Fields α
  | [], name, value => [(name, value)]
  | (key, old) :: rest, name, value =>
    if key = name then (key, value) :: rest else (key, old) :: put rest name value

/-- Writes all entries of the second map into the first, one after the other. -/
def merge (fields news : Fields α) : Fields α :=
  news.foldl (fun acc entry => acc.put entry.1 entry.2) fields

/-- The map of a list of pairs: a repeated name keeps its first place and its last value. -/
def ofPairs (pairs : List (String × α)) : Fields α :=
  merge [] pairs

/-- Applies a function to every value and leaves the names alone. -/
def mapValues (f : α → β) (fields : Fields α) : Fields β :=
  fields.map fun entry => (entry.1, f entry.2)

/-- Takes out the entry of a name. -/
def erase (fields : Fields α) (name : String) : Fields α :=
  fields.eraseP fun entry => entry.1 == name

/-- No name has two entries. -/
def Distinct (fields : Fields α) : Prop :=
  fields.keys.Nodup

instance (fields : Fields α) : Decidable fields.Distinct :=
  inferInstanceAs (Decidable fields.keys.Nodup)

/-- Without fields there is none to look up. -/
@[simp] theorem get?_nil (name : String) : get? ([] : Fields α) name = none := rfl

/-- The first field that has a name is the one that is looked up. -/
theorem get?_cons (key : String) (value : α) (rest : Fields α) (name : String) :
    get? ((key, value) :: rest) name = if name = key then some value else get? rest name := by
  rw [get?, List.lookup_cons]
  by_cases h : name = key
  · rw [if_pos h, beq_iff_eq.2 h]
  · rw [if_neg h, beq_false_of_ne h]
    rfl

/-- A name just written reads as what was written. -/
@[simp] theorem get?_put_self (fields : Fields α) (name : String) (value : α) :
    (fields.put name value).get? name = some value := by
  induction fields with
  | nil => simp [put, get?_cons]
  | cons entry rest ih =>
    obtain ⟨key, old⟩ := entry
    by_cases h : key = name
    · simp [put, h, get?_cons]
    · simp [put, h, get?_cons, ih, Ne.symm h]

/-- Writing one name changes no other reading. -/
theorem get?_put_of_ne (fields : Fields α) {name other : String} (value : α)
    (hne : other ≠ name) : (fields.put name value).get? other = fields.get? other := by
  induction fields with
  | nil => simp [put, get?_cons, hne]
  | cons entry rest ih =>
    obtain ⟨key, old⟩ := entry
    by_cases h : key = name
    · subst h; simp [put, get?_cons, hne]
    · by_cases hk : other = key <;> simp [put, h, get?_cons, ih, hk]

/-- A name has an entry exactly when it is among the keys. -/
theorem get?_isSome_iff (fields : Fields α) (name : String) :
    (fields.get? name).isSome ↔ name ∈ fields.keys := by
  induction fields with
  | nil => simp [keys]
  | cons entry rest ih =>
    obtain ⟨key, old⟩ := entry
    by_cases h : name = key
    · simp [get?_cons, keys, h]
    · simpa [get?_cons, keys, h] using ih

/-- A name that is not among the keys has no entry. -/
theorem get?_eq_none {fields : Fields α} {name : String} (h : name ∉ fields.keys) :
    fields.get? name = none := by
  cases hget : fields.get? name with
  | none => rfl
  | some value =>
    have hsome : (fields.get? name).isSome := by rw [hget]; rfl
    exact absurd ((get?_isSome_iff fields name).1 hsome) h

/-- A name that a map does not have is read in the map that comes after it. -/
theorem get?_append {fields : Fields α} {name : String} (h : name ∉ fields.keys)
    (rest : Fields α) : get? (fields ++ rest) name = rest.get? name := by
  induction fields with
  | nil => rfl
  | cons entry fields ih =>
    obtain ⟨key, value⟩ := entry
    rw [keys, List.map_cons, List.mem_cons, not_or] at h
    rw [List.cons_append, get?_cons, if_neg h.1]
    exact ih h.2

/-- What is read under a name is an entry of that name. -/
theorem mem_of_get? {fields : Fields α} {name : String} {value : α}
    (h : fields.get? name = some value) : (name, value) ∈ fields := by
  induction fields with
  | nil => simp at h
  | cons entry rest ih =>
    obtain ⟨key, old⟩ := entry
    rw [get?_cons] at h
    by_cases hk : name = key
    · rw [if_pos hk, Option.some.injEq] at h
      rw [hk, h]
      exact List.mem_cons_self
    · rw [if_neg hk] at h
      exact List.mem_cons_of_mem _ (ih h)

/-- With distinct names every entry is what is read under its name. -/
theorem get?_of_mem {fields : Fields α} (hd : fields.Distinct) {name : String} {value : α}
    (h : (name, value) ∈ fields) : fields.get? name = some value := by
  induction fields with
  | nil => cases h
  | cons entry rest ih =>
    obtain ⟨key, old⟩ := entry
    rw [Distinct, keys, List.map_cons, List.nodup_cons] at hd
    rw [get?_cons]
    rcases List.mem_cons.1 h with heq | hmem
    · cases heq
      exact if_pos rfl
    · have hne : name ≠ key := by
        rintro rfl
        exact hd.1 (List.mem_map.2 ⟨_, hmem, rfl⟩)
      rw [if_neg hne]
      exact ih hd.2 hmem

/-- A write brings in no entry but its own. -/
theorem mem_put {fields : Fields α} {name : String} {value : α} {entry : String × α}
    (h : entry ∈ fields.put name value) : entry ∈ fields ∨ entry = (name, value) := by
  induction fields with
  | nil => exact Or.inr (List.mem_singleton.1 h)
  | cons first rest ih =>
    obtain ⟨key, old⟩ := first
    by_cases hk : key = name
    · rw [put, if_pos hk, List.mem_cons] at h
      rcases h with rfl | h
      · exact Or.inr (by rw [hk])
      · exact Or.inl (List.mem_cons_of_mem _ h)
    · rw [put, if_neg hk, List.mem_cons] at h
      rcases h with rfl | h
      · exact Or.inl List.mem_cons_self
      · exact (ih h).imp_left (List.mem_cons_of_mem _)

/-- Merging brings in no entries but those of the second map. -/
theorem mem_merge {fields news : Fields α} {entry : String × α}
    (h : entry ∈ fields.merge news) : entry ∈ fields ∨ entry ∈ news := by
  induction news generalizing fields with
  | nil => exact Or.inl h
  | cons first rest ih =>
    have hstep : entry ∈ fields.put first.1 first.2 ∨ entry ∈ rest := ih h
    rcases hstep with hmem | hmem
    · rcases mem_put hmem with hold | rfl
      · exact Or.inl hold
      · exact Or.inr List.mem_cons_self
    · exact Or.inr (List.mem_cons_of_mem _ hmem)

/-- Writing keeps the order of the names and appends a name that is new. -/
theorem keys_put (fields : Fields α) (name : String) (value : α) :
    (fields.put name value).keys =
      if name ∈ fields.keys then fields.keys else fields.keys ++ [name] := by
  induction fields with
  | nil => simp [put, keys]
  | cons entry rest ih =>
    obtain ⟨key, old⟩ := entry
    by_cases h : key = name
    · simp [put, keys, h]
    · simp only [keys] at ih
      by_cases hm : name ∈ rest.map Prod.fst
      · simp [put, keys, h, ih, hm]
      · simp [put, keys, h, ih, hm, Ne.symm h]

/-- Writing keeps names distinct. -/
theorem Distinct.put {fields : Fields α} (hd : fields.Distinct) (name : String) (value : α) :
    (fields.put name value).Distinct := by
  unfold Distinct at *
  rw [keys_put]
  split
  · exact hd
  · next h =>
    exact List.nodup_append.2 ⟨hd, by simp, by
      intro a ha b hb
      rw [List.mem_singleton] at hb
      subst hb
      exact fun hab => h (hab ▸ ha)⟩

/-- Merging keeps names distinct. -/
theorem Distinct.merge {fields : Fields α} (hd : fields.Distinct) (news : Fields α) :
    (fields.merge news).Distinct := by
  induction news generalizing fields with
  | nil => exact hd
  | cons entry rest ih => exact ih (hd.put entry.1 entry.2)

/-- A map made of pairs has distinct names. -/
theorem distinct_ofPairs (pairs : List (String × α)) : (ofPairs pairs).Distinct :=
  (show Distinct ([] : Fields α) from List.nodup_nil).merge pairs

end Fields

end Vetting
