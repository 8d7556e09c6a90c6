/-!
# Named fields

`Fields α` is a table from names to values, kept as the list of its entries. Tables are built
with `set`, which keeps the names in increasing order (`Fields.Sorted`), so a table has one
spelling and listing it lists its names in order. Strings are ordered by their characters'
code points, which is also the order of their bytes in UTF-8.

* `get?`, `set`, `erase` — one name at a time, related by `get?_set` and `get?_erase`, which
  hold of every list of entries;
* `ofEntries` — the table of a list of entries, a later entry replacing an earlier one;
* `sorted_set`, `sorted_erase`, `sorted_ofEntries` — the order is kept.
-/

namespace WorkflowCompiler

/-- A table from names to values: its entries, in increasing order of the names. -/
abbrev Fields (α : Type) := List (String × α)

namespace Fields

variable {α β : Type}

/-- The value of a name. -/
def get? : Fields α → String → Option α
  | [], _ => none
  | (name, value) :: rest, key => if name = key then some value else get? rest key

/-- The name is in the table. -/
def has (fields : Fields α) (key : String) : Bool := (fields.get? key).isSome

/-- The table with the name bound to the value, its entry put at the place of the name. -/
def set : Fields α → String → α → Fields α
  | [], key, value => [(key, value)]
  | (name, old) :: rest, key, value =>
    if name = key then (key, value) :: rest
    else if key < name then (key, value) :: (name, old) :: rest
    else (name, old) :: set rest key value

/-- The table without the name. -/
def erase : Fields α → String → Fields α
  | [], _ => []
  | (name, value) :: rest, key =>
    if name = key then erase rest key else (name, value) :: erase rest key

/-- The names, in order. -/
def names (fields : Fields α) : List String := fields.map Prod.fst

/-- The table of the entries; a later entry replaces an earlier one of its name. -/
def ofEntries (entries : List (String × α)) : Fields α :=
  entries.foldl (fun fields entry => fields.set entry.1 entry.2) []

/-- The table with each value replaced by its image. -/
def mapValues (f : α → β) (fields : Fields α) : Fields β :=
  fields.map fun entry => (entry.1, f entry.2)

/-! ## Looking up after a change -/

@[simp] theorem get?_nil (key : String) : get? ([] : Fields α) key = none := rfl

theorem get?_cons (name : String) (value : α) (rest : Fields α) (key : String) :
    get? ((name, value) :: rest) key = if name = key then some value else get? rest key := rfl

/-- A name is bound to the value set last, and every other name to what it was bound to. -/
theorem get?_set (fields : Fields α) (key other : String) (value : α) :
    (fields.set key value).get? other = if key = other then some value else fields.get? other := by
  induction fields with
  | nil => rfl
  | cons entry rest ih =>
    obtain ⟨name, old⟩ := entry
    by_cases hn : name = key
    · subst hn
      by_cases ho : name = other <;> simp [set, get?_cons, ho]
    · by_cases hl : key < name
      · simp [set, hn, hl, get?_cons]
      · by_cases ho : name = other
        · subst ho
          simp [set, hn, hl, get?_cons, Ne.symm hn]
        · simp [set, hn, hl, get?_cons, ho, ih]

/-- An erased name is unbound, and every other name is bound to what it was bound to. -/
theorem get?_erase (fields : Fields α) (key other : String) :
    (fields.erase key).get? other = if key = other then none else fields.get? other := by
  induction fields with
  | nil => simp [erase]
  | cons entry rest ih =>
    obtain ⟨name, old⟩ := entry
    by_cases hn : name = key
    · subst hn
      rw [erase, if_pos rfl, ih, get?_cons]
      by_cases ho : name = other <;> simp [ho]
    · by_cases ho : name = other
      · subst ho
        simp [erase, hn, get?_cons, Ne.symm hn]
      · simp [erase, hn, get?_cons, ho, ih]

/-- What a look-up finds is an entry. -/
theorem mem_of_get?_eq_some {fields : Fields α} {key : String} {value : α}
    (h : fields.get? key = some value) : (key, value) ∈ fields := by
  induction fields with
  | nil => cases h
  | cons entry rest ih =>
    obtain ⟨name, old⟩ := entry
    by_cases hn : name = key
    · simp_all [get?_cons]
    · rw [get?_cons, if_neg hn] at h
      exact List.mem_cons_of_mem _ (ih h)

/-- If the names differ, every entry is what a look-up of its name finds. -/
theorem get?_of_mem {fields : Fields α} (hnodup : fields.names.Nodup) {entry : String × α}
    (h : entry ∈ fields) : fields.get? entry.1 = some entry.2 := by
  induction fields with
  | nil => cases h
  | cons head rest ih =>
    rw [names, List.map_cons, List.nodup_cons] at hnodup
    rcases List.mem_cons.1 h with rfl | h
    · rw [get?_cons, if_pos rfl]
    · have hne : head.1 ≠ entry.1 := fun heq => hnodup.1 (heq ▸ List.mem_map_of_mem h)
      rw [get?_cons, if_neg hne, ih hnodup.2 h]

/-- A name is bound exactly when an entry has it. -/
theorem get?_isSome_iff {fields : Fields α} {key : String} :
    (fields.get? key).isSome = true ↔ key ∈ fields.names := by
  induction fields with
  | nil => simp [names]
  | cons entry rest ih =>
    obtain ⟨name, old⟩ := entry
    by_cases hn : name = key
    · simp [get?_cons, hn, names]
    · simpa [get?_cons, hn, names, Ne.symm hn] using ih

theorem get?_eq_none_iff {fields : Fields α} {key : String} :
    fields.get? key = none ↔ key ∉ fields.names := by
  rw [← get?_isSome_iff, Option.not_isSome_iff_eq_none]

/-- A name is bound to what the first of two tables that has it binds it to. -/
theorem get?_append (fields more : Fields α) (key : String) :
    get? (fields ++ more) key = (fields.get? key).or (more.get? key) := by
  induction fields with
  | nil => rfl
  | cons entry rest ih =>
    rw [List.cons_append, get?_cons, get?_cons, ih]
    split <;> rfl

theorem get?_foldl_set_of_not_mem {entries : List (String × α)} {key : String}
    (h : key ∉ entries.map Prod.fst) (fields : Fields α) :
    get? (entries.foldl (fun fields entry => fields.set entry.1 entry.2) fields) key =
      fields.get? key := by
  induction entries generalizing fields with
  | nil => rfl
  | cons entry entries ih =>
    rw [List.map_cons, List.mem_cons, not_or] at h
    rw [List.foldl_cons, ih h.2, get?_set, if_neg (Ne.symm h.1)]

theorem get?_foldl_set_of_mem {entries : List (String × α)}
    (hnodup : (entries.map Prod.fst).Nodup) {entry : String × α} (h : entry ∈ entries)
    (fields : Fields α) :
    get? (entries.foldl (fun fields entry => fields.set entry.1 entry.2) fields) entry.1 =
      some entry.2 := by
  induction entries generalizing fields with
  | nil => cases h
  | cons head entries ih =>
    rw [List.map_cons, List.nodup_cons] at hnodup
    rcases List.mem_cons.1 h with rfl | h
    · rw [List.foldl_cons, get?_foldl_set_of_not_mem hnodup.1, get?_set, if_pos rfl]
    · exact ih hnodup.2 h _

/-- A table of entries with different names holds each of them. -/
theorem get?_ofEntries_of_mem {entries : List (String × α)} (hnodup : (entries.map Prod.fst).Nodup)
    {entry : String × α} (h : entry ∈ entries) : (ofEntries entries).get? entry.1 = some entry.2 :=
  get?_foldl_set_of_mem hnodup h []

/-! ## Order -/

/-- The names stand in increasing order, each once. -/
def Sorted (fields : Fields α) : Prop := fields.Pairwise fun a b => a.1 < b.1

theorem mem_set {fields : Fields α} {key : String} {value : α} {entry : String × α}
    (h : entry ∈ fields.set key value) : entry = (key, value) ∨ entry ∈ fields := by
  induction fields with
  | nil => exact .inl (by simpa [set] using h)
  | cons head rest ih =>
    obtain ⟨name, old⟩ := head
    simp only [set] at h
    split at h
    · rcases List.mem_cons.1 h with h | h
      · exact .inl h
      · exact .inr (List.mem_cons_of_mem _ h)
    · split at h
      · rcases List.mem_cons.1 h with h | h
        · exact .inl h
        · exact .inr h
      · rcases List.mem_cons.1 h with h | h
        · exact .inr (h ▸ List.mem_cons_self)
        · exact (ih h).imp id (List.mem_cons_of_mem _)

theorem mem_of_mem_erase {fields : Fields α} {key : String} {entry : String × α}
    (h : entry ∈ fields.erase key) : entry ∈ fields := by
  induction fields with
  | nil => cases h
  | cons head rest ih =>
    obtain ⟨name, old⟩ := head
    simp only [erase] at h
    split at h
    · exact List.mem_cons_of_mem _ (ih h)
    · rcases List.mem_cons.1 h with h | h
      · exact h ▸ List.mem_cons_self
      · exact List.mem_cons_of_mem _ (ih h)

theorem sorted_set {fields : Fields α} (h : fields.Sorted) (key : String) (value : α) :
    (fields.set key value).Sorted := by
  induction fields with
  | nil => exact List.pairwise_singleton _ _
  | cons head rest ih =>
    obtain ⟨name, old⟩ := head
    rw [Sorted, List.pairwise_cons] at h
    simp only [set]
    split
    · rename_i hn
      subst hn
      exact List.pairwise_cons.2 ⟨h.1, h.2⟩
    · rename_i hn
      split
      · rename_i hl
        refine List.pairwise_cons.2 ⟨fun entry hmem => ?_, List.pairwise_cons.2 ⟨h.1, h.2⟩⟩
        rcases List.mem_cons.1 hmem with rfl | hmem
        · exact hl
        · exact String.lt_trans hl (h.1 entry hmem)
      · rename_i hl
        refine List.pairwise_cons.2 ⟨fun entry hmem => ?_, ih h.2⟩
        rcases mem_set hmem with rfl | hmem
        · have hle : name ≤ key := String.not_lt.1 hl
          by_cases hlt : name < key
          · exact hlt
          · exact absurd (String.le_antisymm hle (String.not_lt.1 hlt)) hn
        · exact h.1 entry hmem

theorem sorted_erase {fields : Fields α} (h : fields.Sorted) (key : String) :
    (fields.erase key).Sorted := by
  induction fields with
  | nil => exact h
  | cons head rest ih =>
    obtain ⟨name, old⟩ := head
    rw [Sorted, List.pairwise_cons] at h
    simp only [erase]
    split
    · exact ih h.2
    · exact List.pairwise_cons.2 ⟨fun entry hmem => h.1 entry (mem_of_mem_erase hmem), ih h.2⟩

/-- Only the names have to be in order. -/
theorem sorted_iff_names {fields : Fields α} :
    fields.Sorted ↔ fields.names.Pairwise (· < ·) := by
  rw [names, List.pairwise_map, Sorted]

/-- The names of a table in increasing order differ. -/
theorem Sorted.names_nodup {fields : Fields α} (h : fields.Sorted) : fields.names.Nodup := by
  rw [names, List.Nodup, List.pairwise_map]
  refine List.Pairwise.imp (fun {a b} hlt heq => ?_) h
  rw [heq] at hlt
  exact String.lt_irrefl _ hlt

/-- A table in increasing order binds a name to a value exactly if they are an entry. -/
theorem Sorted.get?_eq_some_iff {fields : Fields α} (h : fields.Sorted) {key : String}
    {value : α} : fields.get? key = some value ↔ (key, value) ∈ fields :=
  ⟨mem_of_get?_eq_some, get?_of_mem h.names_nodup⟩

theorem sorted_foldl_set {fields : Fields α} (h : fields.Sorted) (entries : List (String × α)) :
    (entries.foldl (fun fields entry => fields.set entry.1 entry.2) fields).Sorted := by
  induction entries generalizing fields with
  | nil => exact h
  | cons entry rest ih => exact ih (sorted_set h entry.1 entry.2)

theorem sorted_ofEntries (entries : List (String × α)) : (ofEntries entries).Sorted :=
  sorted_foldl_set List.Pairwise.nil entries

end Fields

end WorkflowCompiler
